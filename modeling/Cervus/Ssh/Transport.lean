import Cervus.Framework.Word

/-! # Which packets `sshd` takes after key exchange

    `ssh_recv` numbers the packets it takes, also the ones before `NEWKEYS`, and
    `wait_msg` passes over `IGNORE` and `DEBUG`. Under `chacha20-poly1305` that number is
    the nonce, so who adds packets before `NEWKEYS` chooses which of the client's packets
    is the first one that verifies. AES-GCM counts in its own IV.

    The AEAD is ideal: what verifies is a packet that the client sealed with this nonce. -/

namespace Cervus.Ssh

open List Option

/-! ## Section 1: The server -/

def msgDisconnect : UInt8 := 1
def msgIgnore : UInt8 := 2
def msgDebug : UInt8 := 4
def msgKexinit : UInt8 := 20
def msgNewkeys : UInt8 := 21
def msgKexEcdhInit : UInt8 := 30

/-- `MAXPKT - 64` -/
def maxLength : Nat := 20000 - 64

inductive Cipher where
  | chacha20
  | aesgcm
  deriving DecidableEq

/-- What `ssh_t` has for receiving; `ivC2s` are the last eight bytes of the IV, which
    `gcm_iv_incr` counts up. -/
structure Server where
  recvSeq : Nat := 0
  encRecv : Bool := false
  cipher  : Cipher := .chacha20
  ivC2s   : Nat := 0
  pkt     : Nat → UInt8 := fun _ => 0
  pktLen  : Nat := 0

/-- A packet without its length: bytes that anyone can send, or what the client sealed. -/
inductive Packet where
  | clear (body : List UInt8)
  | sealed (nonce : Nat) (body : List UInt8)

def Server.nonce (s : Server) : Nat :=
  match s.cipher with
  | .chacha20 => s.recvSeq
  | .aesgcm => s.ivC2s

/-- The end of `ssh_recv`: the packet is counted and its payload moved to the front of the
    buffer. Behind the payload the buffer keeps what it had. -/
def Server.unpack (s : Server) (body : List UInt8) : Option Server :=
  let padlen := (body.headD 0).toNat
  let len := body.length - 1 - padlen
  if body.length < padlen + 1 then none
  else some { s with
    recvSeq := u32 (s.recvSeq + 1), pktLen := len,
    pkt := fun i =>
      if i < len then body.getD (i + 1) 0 else if i < body.length then body.getD i 0 else s.pkt i }

/-- `ssh_recv` on the next packet -/
def Server.sshRecv (s : Server) : Packet → Option Server
  | .clear body =>
    if s.encRecv ∨ body.length < 1 ∨ maxLength < body.length then none else s.unpack body
  | .sealed nonce body =>
    if ¬ s.encRecv ∨ body.length < 1 ∨ maxLength < body.length ∨ nonce ≠ s.nonce then none
    else match s.cipher with
      | .chacha20 => s.unpack body
      | .aesgcm => { s with ivC2s := u64 (s.ivC2s + 1) }.unpack body

/-- `wait_msg`; the result has the packets that are left. -/
def Server.waitMsg (want : UInt8) (s : Server) : List Packet → Option (Server × List Packet)
  | [] => none
  | p :: wire => match s.sshRecv p with
    | none => none
    | some s =>
      if s.pkt 0 = msgIgnore ∨ s.pkt 0 = msgDebug then Server.waitMsg want s wire
      else if s.pkt 0 = msgDisconnect then none
      else if s.pkt 0 ≠ want then none
      else some (s, wire)

def rdU32 (b : Nat → UInt8) (i : Nat) : Nat :=
  (b i).toNat * 2 ^ 24 + (b (i + 1)).toNat * 2 ^ 16 + (b (i + 2)).toNat * 2 ^ 8 + (b (i + 3)).toNat

/-- `kex_namelist`, on what is behind the cookie -/
def kexNamelist (b : List UInt8) (idx : Nat) : Option (List UInt8) :=
  let l := rdU32 (b.getD · 0) 0
  if b.length < 4 + l then none
  else match idx with
    | 0 => some ((b.drop 4).take l)
    | idx + 1 => kexNamelist (b.drop (4 + l)) idx

def ascii (s : String) : List UInt8 := s.toList.map (·.toNat.toUInt8)

def tokenCipher (tok : List UInt8) : Option Cipher :=
  if tok = ascii "chacha20-poly1305@openssh.com" then some .chacha20
  else if tok = ascii "aes256-gcm@openssh.com" then some .aesgcm
  else if tok = ascii "aes128-gcm@openssh.com" then some .aesgcm
  else none

/-- `negotiate_cipher`: the first name of the client's list that the server knows -/
def negotiateCipher (cli : List UInt8) : Option Cipher :=
  (kexNamelist (cli.drop 17) 2).bind fun el => (el.splitOn 0x2c).findSome? tokenCipher

/-- `handle_client` up to the client's `NEWKEYS`. Which cipher `negotiate` reads in the client's
    `KEXINIT`, and the IV that is derived, do not matter here. -/
def keyExchange (negotiate : List UInt8 → Option Cipher) (iv : Nat) (wire : List Packet) :
    Option (Server × List Packet) := do
  let (s, wire) ← Server.waitMsg msgKexinit {} wire
  guard (s.pktLen ≤ 2048)
  let cipher ← negotiate ((List.range s.pktLen).map s.pkt)
  let (s, wire) ← s.waitMsg msgKexEcdhInit wire
  guard (rdU32 s.pkt 1 = 32)
  let (s, wire) ← s.waitMsg msgNewkeys wire
  return ({ s with cipher, ivC2s := u64 iv, encRecv := true }, wire)

/-! ## Section 2: Counting -/

variable {s s' : Server} {p : Packet} {wire rest : List Packet} {body : List UInt8}

theorem Server.unpack_some (h : s.unpack body = some s') :
    s'.recvSeq = u32 (s.recvSeq + 1) ∧ s'.cipher = s.cipher ∧ s'.ivC2s = s.ivC2s ∧
      s'.encRecv = s.encRecv := by
  unfold Server.unpack at h
  simp only at h
  split at h
  · cases h
  · cases h
    exact ⟨rfl, rfl, rfl, rfl⟩

theorem Server.sshRecv_seq (h : s.sshRecv p = some s') : s'.recvSeq = u32 (s.recvSeq + 1) := by
  cases p with
  | clear body =>
    simp only [Server.sshRecv, ite_none_left_eq_some] at h
    exact (unpack_some h.2).1
  | sealed nonce body =>
    simp only [Server.sshRecv, ite_none_left_eq_some] at h
    obtain ⟨_, h⟩ := h
    split at h <;> exact (unpack_some h).1

/-- The packets that one `wait_msg` takes. -/
theorem Server.waitMsg_count {want : UInt8} (h : s.waitMsg want wire = some (s', rest)) :
    rest.length ≤ wire.length ∧ s'.recvSeq % 2 ^ 32 =
      (s.recvSeq + (wire.length - rest.length)) % 2 ^ 32 ∧ s'.recvSeq < 2 ^ 32 := by
  induction wire generalizing s with
  | nil => cases h
  | cons p wire ih =>
    unfold Server.waitMsg at h
    cases hrecv : s.sshRecv p with
    | none => simp [hrecv] at h
    | some s1 =>
      have hseq := sshRecv_seq hrecv
      simp only [hrecv] at h
      rw [length_cons]
      unfold u32 at hseq
      split at h
      · have := ih h
        omega
      split at h
      · cases h
      split at h
      · cases h
      · cases h
        omega

theorem keyExchange_some {negotiate : List UInt8 → Option Cipher} {iv : Nat}
    (h : keyExchange negotiate iv wire = some (s, rest)) :
    s.recvSeq = u32 (wire.length - rest.length) ∧ s.ivC2s = u64 iv ∧ s.encRecv = true := by
  simp only [keyExchange, bind_eq_bind, bind_eq_some_iff, Prod.exists,
    Option.pure_def, some.injEq, Prod.mk.injEq] at h
  obtain ⟨s1, wire1, h1, _, _, cipher, _, s2, wire2, h2, _, _, s3, wire3, h3, rfl, rfl⟩ := h
  have hc1 := Server.waitMsg_count h1
  have hc2 := Server.waitMsg_count h2
  have hc3 := Server.waitMsg_count h3
  refine ⟨?_, rfl, rfl⟩
  unfold u32
  simp only at hc1 ⊢
  omega

/-! ## Section 3: The client -/

/-- What an honest client seals: a padding length that fits, and a length that the server
    takes. -/
def Body : Type := { b : List UInt8 // (b.headD 0).toNat + 1 ≤ b.length ∧ b.length ≤ maxLength }

def Cipher.modulus : Cipher → Nat
  | chacha20 => 2 ^ 32
  | aesgcm => 2 ^ 64

/-- The nonce of packet `j` after `NEWKEYS`, of a client that sent `sent` packets before. -/
def Cipher.nonce (cipher : Cipher) (iv sent j : Nat) : Nat :=
  match cipher with
  | chacha20 => u32 (sent + j)
  | aesgcm => u64 (iv + j)

def clientPacket (cipher : Cipher) (iv sent : Nat) (body : Nat → Body) (j : Nat) : Packet :=
  .sealed (cipher.nonce iv sent j) (body j).1

/-- The packets that the server takes, of those that reach it. -/
def Server.accepts (s : Server) (client : Nat → Packet) : List Nat → List Nat
  | [] => []
  | j :: js => match s.sshRecv (client j) with
    | none => []
    | some s => j :: Server.accepts s client js

/-- The packet that verifies first: under `chacha20-poly1305` it depends on how many packets
    were received and sent before `NEWKEYS`. -/
def firstTaken (cipher : Cipher) (received sent : Nat) : Nat :=
  match cipher with
  | .chacha20 => sub32 received sent
  | .aesgcm => 0

/-- How many packets the client can send before another one than the first verifies. -/
def gap (cipher : Cipher) (received sent : Nat) : Nat :=
  if firstTaken cipher received sent = 0 then cipher.modulus else firstTaken cipher received sent

variable {iv sent i j N : Nat} {client : Nat → Body} {cipher : Cipher}

/-- The server expects packet `i`, up to the modulus of its counter. -/
structure Expects (s : Server) (cipher : Cipher) (iv sent i : Nat) : Prop where
  enc   : s.encRecv = true
  same  : s.cipher = cipher
  nonce : s.nonce = cipher.nonce iv sent i

theorem Cipher.nonce_eq (cipher : Cipher) : cipher.nonce iv sent j = cipher.nonce iv sent i ↔
    j % cipher.modulus = i % cipher.modulus := by
  cases cipher <;> simp only [Cipher.nonce, Cipher.modulus, u32, u64] <;> omega

/-- The expected packet is taken, and then the next one is expected. -/
theorem Expects.recv (h : Expects s cipher iv sent i) (client : Nat → Body)
    (hj : j % cipher.modulus = i % cipher.modulus) :
    ∃ s', s.sshRecv (clientPacket cipher iv sent client j) = some s' ∧
      Expects s' cipher iv sent (i + 1) := by
  obtain ⟨henc, rfl, hnonce⟩ := h
  rcases hbody : client j with ⟨body, hpad, hlen⟩
  have hsame := hnonce.trans (s.cipher.nonce_eq.mpr hj).symm
  have hok : ¬ (¬ s.encRecv ∨ body.length < 1 ∨ maxLength < body.length ∨
      s.cipher.nonce iv sent j ≠ s.nonce) := by
    simp only [henc, ← hsame, not_true, ne_eq, false_or, or_false]
    omega
  simp only [clientPacket, hbody, Server.sshRecv, if_neg hok, Server.unpack,
    if_neg (show ¬ body.length < (body.headD 0).toNat + 1 by omega)]
  cases hc : s.cipher with
  | chacha20 =>
    refine ⟨_, rfl, henc, rfl, ?_⟩
    simp only [hc, Server.nonce, Cipher.nonce, u32] at hnonce ⊢
    omega
  | aesgcm =>
    refine ⟨_, rfl, henc, rfl, ?_⟩
    simp only [hc, Server.nonce, Cipher.nonce, u64] at hnonce ⊢
    omega

/-- Any other one is not. -/
theorem Expects.refuse (h : Expects s cipher iv sent i) (client : Nat → Body)
    (hj : j % cipher.modulus ≠ i % cipher.modulus) :
    s.sshRecv (clientPacket cipher iv sent client j) = none := by
  obtain ⟨_, rfl, hnonce⟩ := h
  refine if_pos (.inr (.inr (.inr ?_)))
  rw [hnonce]
  exact mt s.cipher.nonce_eq.mp hj

/-- While the counter does not wrap, nothing is left out. -/
theorem Expects.accepts (client : Nat → Body) (hN : N ≤ cipher.modulus) :
    ∀ {js : List Nat} {s : Server} {i : Nat}, Expects s cipher iv sent i →
      js.Sublist (range' i (N - i)) →
      s.accepts (clientPacket cipher iv sent client) js <+: range' i (N - i) := by
  intro js
  induction js with
  | nil => exact fun _ _ => nil_prefix
  | cons j js ih =>
    intro s i h hsub
    obtain ⟨hlo, hhi⟩ := mem_range'_1.mp (hsub.subset (.head _))
    unfold Server.accepts
    by_cases hj : j = i
    · subst hj
      obtain ⟨s', hrecv, hnext⟩ := h.recv client rfl
      have hrange : range' j (N - j) = j :: range' (j + 1) (N - (j + 1)) := by
        rw [show N - j = (N - (j + 1)) + 1 by omega, range'_succ]
      rw [hrange] at hsub ⊢
      simp only [hrecv]
      exact cons_prefix_cons.mpr ⟨rfl, ih hnext (cons_sublist_cons.mp hsub)⟩
    have hne : j % cipher.modulus ≠ i % cipher.modulus := by
      rw [Nat.mod_eq_of_lt (by omega), Nat.mod_eq_of_lt (by omega)]
      exact hj
    simp only [h.refuse client hne]
    exact nil_prefix

theorem firstTaken_lt (cipher : Cipher) (received sent : Nat) :
    firstTaken cipher received sent < cipher.modulus := by
  cases cipher with
  | chacha20 => exact u32_lt _
  | aesgcm => exact Nat.two_pow_pos 64

/-- **After key exchange.** -/
theorem keyExchange_expects {negotiate : List UInt8 → Option Cipher}
    (h : keyExchange negotiate iv wire = some (s, rest)) (sent : Nat) :
    Expects s s.cipher iv sent (firstTaken s.cipher (wire.length - rest.length) sent) := by
  obtain ⟨hseq, hiv, henc⟩ := keyExchange_some h
  refine ⟨henc, rfl, ?_⟩
  unfold Server.nonce Cipher.nonce firstTaken
  cases s.cipher with
  | chacha20 =>
    simp only [hseq, sub32, u32]
    omega
  | aesgcm => simp only [hiv, Nat.add_zero]

/-- **Channel integrity.** After a key exchange that completed, with any packets before
    `NEWKEYS` and whatever of the client's packets after it is dropped: the server takes a
    beginning of what the client sent if and only if the client sends no more than `gap`. -/
theorem channel_integrity_iff {negotiate : List UInt8 → Option Cipher}
    (h : keyExchange negotiate iv wire = some (s, rest)) (sent N : Nat) (client : Nat → Body) :
    (∀ js, js.Sublist (List.range N) →
      s.accepts (clientPacket s.cipher iv sent client) js <+: List.range N) ↔
      N ≤ gap s.cipher (wire.length - rest.length) sent := by
  have hexp := keyExchange_expects h sent
  have hd_lt := firstTaken_lt s.cipher (wire.length - rest.length) sent
  unfold gap
  generalize firstTaken s.cipher (wire.length - rest.length) sent = d at hexp hd_lt ⊢
  constructor
  · -- the packet that verifies first, alone
    intro hall
    refine Nat.le_of_not_lt fun hlt => ?_
    have hone := hall [if d = 0 then s.cipher.modulus else d]
      (singleton_sublist.mpr (mem_range.mpr hlt))
    obtain ⟨s', hrecv, _⟩ := hexp.recv (j := if d = 0 then s.cipher.modulus else d) client (by
      split
      · next hz => rw [hz, Nat.mod_self, Nat.zero_mod]
      · rfl)
    have hN : N = (N - 1) + 1 := by omega
    simp only [Server.accepts, hrecv] at hone
    rw [hN, range_eq_range', range'_succ] at hone
    have hzero := (cons_prefix_cons.mp hone).1
    split at hzero <;> omega
  intro hle js hsub
  by_cases hd : d = 0
  · rw [if_pos hd] at hle
    rw [hd] at hexp
    rw [range_eq_range'] at hsub ⊢
    exact hexp.accepts client hle hsub
  rw [if_neg hd] at hle
  -- none of the packets is the expected one
  cases js with
  | nil => exact nil_prefix
  | cons j js =>
    have hj := mem_range.mp (hsub.subset (.head _))
    have hne : j % s.cipher.modulus ≠ d % s.cipher.modulus := by
      rw [Nat.mod_eq_of_lt (by omega), Nat.mod_eq_of_lt hd_lt]
      omega
    simp only [Server.accepts, hexp.refuse client hne]
    exact nil_prefix

/-! ### Runs -/

/-- A packet that is padded to a multiple of eight bytes. -/
def packet (payload : List UInt8) : Packet :=
  let pad := 11 - payload.length % 8
  .clear (pad.toUInt8 :: (payload ++ replicate pad 0))

/-- The client offers a cipher that the server does not have, and `chacha20-poly1305`. -/
def kexinit : List UInt8 :=
  let cipher := "aes192-ctr,chacha20-poly1305@openssh.com"
  msgKexinit :: replicate 16 0 ++
    ["curve25519-sha256", "ssh-ed25519", cipher, cipher, "hmac-sha2-256", "hmac-sha2-256", "none",
      "none", "", ""].flatMap (fun l => [0, 0, 0, l.length.toUInt8] ++ ascii l) ++ replicate 5 0

/-- Key exchange with `chacha20-poly1305`, after `KEXINIT` and `extra`. -/
def exchange (extra : List Packet) : Option (Server × List Packet) :=
  keyExchange negotiateCipher 0 (packet kexinit :: extra ++
    [packet (msgKexEcdhInit :: 0 :: 0 :: 0 :: 32 :: List.replicate 32 0), packet [msgNewkeys]])

/-- The nine packets of a client whose packets before `NEWKEYS` all came alone. -/
theorem channel_integrity_nine :
    ∃ s rest, exchange [] = some (s, rest) ∧ ∀ js, js.Sublist (List.range 9) →
      s.accepts (clientPacket s.cipher 0 3 fun _ => ⟨[0], by decide⟩) js <+: List.range 9 := by
  obtain ⟨⟨s, rest⟩, hs⟩ := isSome_iff_exists.mp (show (exchange []).isSome by decide +kernel)
  have hgap : ∀ r ∈ exchange [], 9 ≤ gap r.1.cipher (3 - r.2.length) 3 := by
    decide +kernel
  exact ⟨s, rest, hs, (channel_integrity_iff hs 3 9 _).mpr (hgap _ hs)⟩

/-- One `IGNORE` is added before `NEWKEYS`, and the client's first packet after it dropped:
    the server takes the second one. -/
theorem first_packet_dropped :
    (exchange [packet [msgIgnore]]).isSome ∧ (∀ r ∈ exchange [packet [msgIgnore]],
      r.1.accepts (clientPacket r.1.cipher 0 3 fun _ => ⟨[0], by decide⟩) [1] = [1]) ∧
      [1].Sublist (List.range 2) ∧ ¬ [1] <+: List.range 2 := by
  decide +kernel

end Cervus.Ssh
