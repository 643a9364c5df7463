import Mathlib.Tactic.Common

/-! # The application stream of a TLS connection

    The model of `record_recv` and `tls_read` in `tls/tls.c` after the handshake, against a
    peer that sends application data and post-handshake messages. Record protection is
    ideal: a record carries the generation of the key and the sequence number it was
    sealed with, and opens iff both are the reader's. Running out of records stands for a
    connection that is closed or idle. -/

namespace Cervus.Tls

open List

/-! ## Section 1: The reader -/

abbrev Bytes := List UInt8

inductive ContentType where
  | alert
  | handshake
  | appData
  | other
  deriving DecidableEq

/-- A record on the wire. -/
inductive Sealed where
  | changeCipherSpec
  | record (epoch seq : Nat) (type : ContentType) (content : Bytes)

/-- The fields of `tls_conn` in use. The generations of the keys count the calls of
    `advance_read_key` and `advance_write_key`; `plain` is what is left from `plain_off`. -/
structure Conn where
  wire   : List Sealed
  epoch  : Nat := 0
  rseq   : Nat := 0
  wepoch : Nat := 0
  plain  : Bytes := []

/-- `KeyUpdate` as a handshake type -/
def keyUpdate : UInt8 := 24

/-- The test that `tls_read` makes for a `KeyUpdate`. -/
def looksUpdate (b : Bytes) : Bool := b.length ≥ 4 ∧ b.head? = some keyUpdate

/-- What `tls_read` does with a handshake record. -/
def Conn.handshakeRecord (c : Conn) (b : Bytes) : Conn :=
  if looksUpdate b then
    { c with
      epoch := c.epoch + 1, rseq := 0
      wepoch := if b[4]? = some 1 then c.wepoch + 1 else c.wepoch }
  else c

inductive Fill where
  | data
  | closed
  | error
  deriving DecidableEq

/-- The loop of `tls_read` with `record_recv` inlined, over the records given. -/
def Conn.fill (c : Conn) : List Sealed → Fill × Conn
  | [] => (.error, { c with wire := [] })
  | .changeCipherSpec :: rest => c.fill rest
  | .record epoch seq type content :: rest =>
    if epoch ≠ c.epoch ∨ seq ≠ c.rseq then (.error, { c with wire := rest })
    else
      let c := { c with rseq := c.rseq + 1 }
      match type with
      | .alert =>
        (if content.length ≥ 2 ∧ content[1]? = some 0 then .closed else .error,
          { c with wire := rest })
      | .appData =>
        if content = [] then c.fill rest else (.data, { c with wire := rest, plain := content })
      | .handshake => (c.handshakeRecord content).fill rest
      | .other => c.fill rest

/-- `tls_read`, `none` if it returns -1. -/
def Conn.tlsRead (c : Conn) (len : Nat) : Option Bytes × Conn :=
  let r := if c.plain = [] then c.fill c.wire else (.data, c)
  match r.1 with
  | .data => (some (r.2.plain.take len), { r.2 with plain := r.2.plain.drop len })
  | .closed => (some [], r.2)
  | .error => (none, r.2)

/-- The bytes that calls with these buffer sizes return, one after another. -/
def Conn.reads (c : Conn) : List Nat → Bytes × Conn
  | [] => ([], c)
  | len :: lens =>
    let r := c.tlsRead len
    let rs := r.2.reads lens
    (r.1.getD [] ++ rs.1, rs.2)

/-! ## Section 2: The peer -/

/-- What the peer puts into a record. -/
inductive Rec where
  | app (data : Bytes)
  | hs (bytes : Bytes)

/-- The complete handshake messages at the front, by type, and what is left. -/
def messages : Nat → Bytes → List UInt8 × Bytes
  | fuel + 1, b@(t :: x :: y :: z :: body) =>
    let len := x.toNat * 65536 + y.toNat * 256 + z.toNat
    if len ≤ body.length then
      let r := messages fuel (body.drop len)
      (t :: r.1, r.2)
    else ([], b)
  | _, b => ([], b)

/-- The messages that are complete with a record, after what was left before it. -/
def after (left b : Bytes) : List UInt8 × Bytes := messages (left ++ b).length (left ++ b)

/-- The record ends with a `KeyUpdate`, so the next one is under the next key. -/
def endsUpdate (left b : Bytes) : Bool :=
  (after left b).1.getLast? = some keyUpdate ∧ (after left b).2 = []

/-- A legal packing: only tickets (type 4) and key updates, no other record inside a
    message, and a key update at the end of its record. -/
def legal : Bytes → List Rec → Bool
  | left, [] => left = []
  | left, .app _ :: rs => left = [] ∧ legal [] rs
  | left, .hs b :: rs =>
    b ≠ [] ∧ (after left b).1.all (fun t => t = 4 ∨ t = keyUpdate) ∧
      (after left b).1.dropLast.all (· ≠ keyUpdate) ∧
      ((after left b).1.getLast? = some keyUpdate → (after left b).2 = []) ∧
      legal (after left b).2 rs

/-- The records as they are sealed. -/
def sealAll (epoch seq : Nat) : Bytes → List Rec → List Sealed
  | _, [] => []
  | left, .app d :: rs => .record epoch seq .appData d :: sealAll epoch (seq + 1) left rs
  | left, .hs b :: rs =>
    .record epoch seq .handshake b ::
      if endsUpdate left b then sealAll (epoch + 1) 0 (after left b).2 rs
      else sealAll epoch (seq + 1) (after left b).2 rs

/-- The application data of the records. -/
def appOf : List Rec → Bytes
  | [] => []
  | .app d :: rs => d ++ appOf rs
  | .hs _ :: rs => appOf rs

/-- Every handshake record looks like a key update iff it ends with one. -/
def Recognised : Bytes → List Rec → Prop
  | _, [] => True
  | left, .app _ :: rs => Recognised left rs
  | left, .hs b :: rs => looksUpdate b = endsUpdate left b ∧ Recognised (after left b).2 rs

/-! ## Section 3: Reader and peer -/

/-- The records to come are sealed for the reader, and their key updates recognised. -/
def InStep (c : Conn) (rs : List Rec) : Prop :=
  ∃ left, c.wire = sealAll c.epoch c.rseq left rs ∧ Recognised left rs

/-- A turn of the loop takes the next data, or all records if there is none. -/
theorem fill_spec (c : Conn) (left : Bytes) (rs : List Rec) (hrec : Recognised left rs) :
    (∃ c' rs', c.fill (sealAll c.epoch c.rseq left rs) = (.data, c') ∧ InStep c' rs' ∧
      c'.plain ≠ [] ∧ appOf rs = c'.plain ++ appOf rs') ∨
    (∃ c', c.fill (sealAll c.epoch c.rseq left rs) = (.error, c') ∧ InStep c' [] ∧
      c'.plain = c.plain ∧ appOf rs = []) := by
  induction rs generalizing c left with
  | nil => exact .inr ⟨_, rfl, ⟨[], rfl, trivial⟩, rfl, rfl⟩
  | cons r rs ih =>
    cases r with
    | app d =>
      by_cases hd : d = []
      · have := ih { c with rseq := c.rseq + 1 } left hrec
        simpa [sealAll, Conn.fill, hd, appOf] using this
      · refine .inl ⟨_, rs, by simp [sealAll, Conn.fill, hd]; rfl, ⟨left, rfl, hrec⟩, hd, rfl⟩
    | hs b =>
      obtain ⟨hlook, hrec⟩ := hrec
      -- reader and peer change the key at the same record
      cases hu : endsUpdate left b with
      | true =>
        have := ih { c with
          epoch := c.epoch + 1, rseq := 0
          wepoch := if b[4]? = some 1 then c.wepoch + 1 else c.wepoch } _ hrec
        simpa [sealAll, Conn.fill, Conn.handshakeRecord, hlook, hu, appOf] using this
      | false =>
        have := ih { c with rseq := c.rseq + 1 } _ hrec
        simpa [sealAll, Conn.fill, Conn.handshakeRecord, hlook, hu, appOf] using this

variable {rs : List Rec} {c : Conn}

/-- One call returns a piece of what is to come, and some of it if there is any. -/
theorem tlsRead_spec (h : InStep c rs) (len : Nat) :
    ∃ rs', InStep (c.tlsRead len).2 rs' ∧ c.plain ++ appOf rs =
        (c.tlsRead len).1.getD [] ++ ((c.tlsRead len).2.plain ++ appOf rs') ∧
      (0 < len → c.plain ++ appOf rs ≠ [] → (c.tlsRead len).1.getD [] ≠ []) := by
  by_cases hp : c.plain = []
  · obtain ⟨left, hwire, hrec⟩ := h
    rcases fill_spec c left rs hrec with ⟨c', rs', hfill, hin, hne, happ⟩ |
      ⟨c', hfill, hin, hpl, happ⟩
    · simp only [Conn.tlsRead, hp, if_true, hwire, hfill]
      refine ⟨rs', hin, ?_, fun hlen _ => ?_⟩
      · simp [happ, ← append_assoc]
      · simp [hne, Nat.pos_iff_ne_zero.1 hlen]
    · simp only [Conn.tlsRead, hp, if_true, hwire, hfill]
      exact ⟨[], hin, by simp [hpl, hp, happ, appOf], fun _ hne => absurd happ hne⟩
  simp only [Conn.tlsRead, hp, if_false]
  refine ⟨rs, h, ?_, fun hlen _ => ?_⟩
  · simp [← append_assoc]
  · simp [hp, Nat.pos_iff_ne_zero.1 hlen]

/-- What calls return is the front of what is to come, and all of it after enough calls. -/
theorem reads_spec (h : InStep c rs) (lens : List Nat) :
    (c.reads lens).1 <+: c.plain ++ appOf rs ∧
    ((∀ n ∈ lens, 0 < n) → (c.plain ++ appOf rs).length ≤ lens.length →
      (c.reads lens).1 = c.plain ++ appOf rs) := by
  induction lens generalizing c rs with
  | nil =>
    refine ⟨ nil_prefix, fun _ hlen => ?_⟩
    exact (length_eq_zero_iff.1 (Nat.le_zero.1 hlen)).symm
  | cons len lens ih =>
    obtain ⟨rs', hin, heq, hsome⟩ := tlsRead_spec h len
    obtain ⟨hpre, hall⟩ := ih hin
    rw [Conn.reads, heq]
    refine ⟨(prefix_append_right_inj _).2 hpre, fun hpos hlen => ?_⟩
    rw [forall_mem_cons] at hpos
    rw [hall hpos.2]
    -- a call with room takes a byte off what is left
    by_cases hne : c.plain ++ appOf rs = []
    · have := append_eq_nil_iff.1 (heq ▸ hne)
      simp [this.2]
    · have := length_pos_iff.2 (hsome hpos.1 hne)
      simp only [length_append, length_cons] at hlen ⊢
      omega

/-- **The stream arrives.** If every handshake record that the peer sends looks like a key
    update iff it ends with one, calls of `tls_read` return the front of the application
    data, whatever their buffers, and all of it after as many calls as it has bytes. -/
theorem app_stream_delivered (rs : List Rec) (h : Recognised [] rs) (lens : List Nat) :
    (Conn.reads { wire := sealAll 0 0 [] rs } lens).1 <+: appOf rs ∧
    ((∀ n ∈ lens, 0 < n) → (appOf rs).length ≤ lens.length →
      (Conn.reads { wire := sealAll 0 0 [] rs } lens).1 = appOf rs) :=
  reads_spec ⟨[], rfl, h⟩ lens

/-- A ticket of one byte, without nonce and extensions. -/
def newSessionTicket : Bytes := [4, 0, 0, 14, 0, 0, 0, 9, 0, 0, 0, 0, 0, 0, 1, 7, 0, 0]

/-- A ticket and a key update in records of their own, with data around them. -/
def apart : List Rec := [.app [1, 2], .hs newSessionTicket, .hs [24, 0, 0, 1, 0], .app [3]]

theorem app_stream_delivered_apart :
    (Conn.reads { wire := sealAll 0 0 [] apart } [1, 1, 1]).1 = [1, 2, 3] :=
  (app_stream_delivered apart ⟨by decide, by decide, trivial⟩ [1, 1, 1]).2 (by decide) (by decide)

/-- A key update behind a ticket in one record is missed: what follows does not open. -/
theorem coalesced_update_missed :
    let rs := [.hs (newSessionTicket ++ [24, 0, 0, 1, 0]), .app [1]]
    legal [] rs = true ∧ (Conn.tlsRead { wire := sealAll 0 0 [] rs } 1).1 = none := by
  decide

end Cervus.Tls
