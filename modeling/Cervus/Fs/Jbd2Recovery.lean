import Cervus.Fs.Jbd2Log
import Mathlib.Data.Nat.Bitwise
import Mathlib.Order.Interval.Finset.Nat
import Mathlib.Tactic.IntervalCases

/-! # Recovery replays the log

    The three passes of `jbd2_recover` over a well-formed journal:

    * every pass walks over the same records, in the same places (`passLoop_committed`);
    * the first finds the number of committed transactions, the second builds a table
      that answers `Log.revoked` (`RevRep.test`), the third writes `Log.live`.

    The main result is `recover_replays_and_restarts`. -/

namespace Cervus.Jbd2

open Cervus.Writes List

/-! ## Section 1: Sequence numbers and flags -/

variable {q i b p j : Nat} {rs : List (Nat × Nat)} {t : List RevokeEnt} {c : JCtx}
  {ts : List Transaction}

/-- Sequence numbers are compared like the numbers of their transactions. -/
theorem tidGeq_serial (hi : i < 2 ^ 31) (hj : j < 2 ^ 31) :
    tidGeq (serial q i) (serial q j) = decide (j ≤ i) := by
  unfold tidGeq
  rw [i32_sub_serial (by omega) (by omega)]
  by_cases hji : j ≤ i
  · simp [hji]
  · simp [hji]

theorem and_two_pow_ne_zero (n k : Nat) : n &&& 2 ^ k ≠ 0 ↔ n.testBit k = true := by
  rw [Nat.and_two_pow]
  cases n.testBit k <;> simp

/-- Undoing the escape gives the block back. -/
theorem Stored.restore {escape : Bool} {copy data : Bytes} (h : Stored escape copy data) :
    (if escape = true then putBe32 copy 0 jbd2MagicNumber else copy) = data := by
  cases escape with
  | false => exact h
  | true =>
    obtain ⟨hmagic, hrest⟩ := h
    funext i
    simp only [if_true, putBe32]
    by_cases hi : i < 4
    · -- the first four bytes are those of the magic number
      have h1 := (data 1).toNat_lt
      have h2 := (data 2).toNat_lt
      have h3 := (data 3).toNat_lt
      unfold be32 be16 jbd2MagicNumber at hmagic
      simp only [Nat.zero_add, Nat.reduceAdd] at hmagic
      rw [if_pos ⟨Nat.zero_le _, by omega⟩]
      apply UInt8.toNat_inj.mp
      rw [UInt8.toNat_ofNat']
      unfold jbd2MagicNumber
      interval_cases i <;> omega
    · rw [if_neg (by omega)]
      exact hrest i (by omega)

/-! ## Section 2: The revoke table -/

/-- The sequence number that the table has for a block. -/
def revFind (t : List RevokeEnt) (b : Nat) : Option Nat :=
  (t.find? fun e => e.block = b).map RevokeEnt.seq

theorem revTest_eq (t : List RevokeEnt) (b seq : Nat) : revTest t b seq = match revFind t b with
      | some s => tidGeq s seq
      | none => false := by
  unfold revTest revFind
  cases t.find? fun e => e.block = b <;> rfl

theorem revFind_revSet (t : List RevokeEnt) (b seq b' : Nat) : revFind (revSet t b seq) b' =
      if b' = b then
        match revFind t b with
        | some s => some (if tidGeq seq s then seq else s)
        | none => some seq
      else revFind t b' := by
  induction t with
  | nil =>
    by_cases hb : b' = b
    · simp [revSet, revFind, hb]
    · simp [revSet, revFind, hb, Ne.symm hb]
  | cons e t ih =>
    unfold revSet
    by_cases he : e.block = b
    · -- the entry of the block is updated in place
      rw [if_pos he]
      by_cases hb : b' = b
      · subst hb
        cases hge : tidGeq seq e.seq <;> simp [revFind, he, hge]
      · have hne : e.block ≠ b' := fun h => hb (h.symm.trans he)
        cases hge : tidGeq seq e.seq <;> simp [revFind, hb, hne, Ne.symm hb]
    rw [if_neg he]
    have hskip : ∀ l, revFind (e :: l) b' = if e.block = b' then some e.seq else revFind l b' := by
      intro l
      by_cases h : e.block = b' <;> simp [revFind, h]
    rw [hskip, hskip]
    by_cases heb : e.block = b'
    · have hb : b' ≠ b := fun h => he (heb.trans h)
      rw [if_pos heb, if_pos heb, if_neg hb]
    · rw [if_neg heb, if_neg heb, ih]
      have hskip' : revFind (e :: t) b = revFind t b := by simp [revFind, he]
      rw [hskip']

/-- The table has, for each block that some record of `rs` revokes, the number of the
    last transaction that does. -/
def RevRep (q : Nat) (rs : List (Nat × Nat)) (t : List RevokeEnt) : Prop :=
  ∀ b, (revFind t b = none ∧ ∀ j, (j, b) ∉ rs) ∨
    ∃ j : Nat, revFind t b = some (serial q j) ∧ (j, b) ∈ rs ∧ ∀ j', (j', b) ∈ rs → j' ≤ j

theorem RevRep.nil (q : Nat) : RevRep q [] [] := by
  intro b
  left
  exact ⟨rfl, fun j => not_mem_nil⟩

/-- **`rev_set`** -/
theorem RevRep.set (h : RevRep q rs t) (hi : i < 2 ^ 31) (hrs : ∀ r ∈ rs, r.1 < 2 ^ 31) :
    RevRep q (rs ++ [(i, b)]) (revSet t b (serial q i)) := by
  intro b'
  rw [revFind_revSet]
  by_cases hb : b' = b
  · subst hb
    right
    rw [if_pos rfl]
    -- what bounds the older transactions and this one bounds them all
    have hmax' : ∀ k, (∀ j, (j, b') ∈ rs → j ≤ k) → i ≤ k →
        ∀ j, (j, b') ∈ rs ++ [(i, b')] → j ≤ k := by
      intro k hk hik j hj
      rcases mem_append.mp hj with hj | hj
      · exact hk j hj
      · simp only [mem_singleton, Prod.mk.injEq] at hj
        omega
    rcases h b' with ⟨hnone, hno⟩ | ⟨j, hsome, hmem, hmax⟩
    · exact ⟨i, by rw [hnone], by simp, hmax' i (fun j hj => absurd hj (hno j)) (le_refl i)⟩
    -- the newer of the two transactions stays in the table
    rw [hsome]
    have hge := tidGeq_serial (q := q) hi (hrs _ hmem)
    by_cases hji : j ≤ i
    · exact ⟨i, by simp [hge, hji], by simp,
        hmax' i (fun j' hj' => (hmax j' hj').trans hji) (le_refl i)⟩
    · exact ⟨j, by simp [hge, hji], mem_append_left _ hmem, hmax' j hmax (by omega)⟩
  rw [if_neg hb]
  have hmem : ∀ j, (j, b') ∈ rs ++ [(i, b)] ↔ (j, b') ∈ rs := by
    intro j
    simp [hb]
  rcases h b' with ⟨hnone, hno⟩ | ⟨j, hsome, hj, hmax⟩
  · left
    exact ⟨hnone, fun j hj => hno j ((hmem j).mp hj)⟩
  · right
    exact ⟨j, hsome, (hmem j).mpr hj, fun j' hj' => hmax j' ((hmem j').mp hj')⟩

theorem RevRep.foldl {vs : List (Nat × Nat)} (h : RevRep q rs t)
    (hrs : ∀ r ∈ rs ++ vs, r.1 < 2 ^ 31) :
    RevRep q (rs ++ vs) (vs.foldl (fun t r => revSet t r.2 (serial q r.1)) t) := by
  induction vs generalizing rs t with
  | nil => simpa using h
  | cons v vs ih =>
    rw [append_cons]
    apply ih
    · exact h.set (hrs v (by simp)) fun r hr => hrs r (mem_append_left _ hr)
    · rwa [← append_cons]

/-- **`rev_test`** tells whether a write is revoked. -/
theorem RevRep.test {log : Log} (h : RevRep q (revokesFrom 0 log.committed) t) (hi : i < 2 ^ 31)
    (hrs : ∀ r ∈ revokesFrom 0 log.committed, r.1 < 2 ^ 31) :
    revTest t b (serial q i) = log.revoked i b := by
  rw [revTest_eq, Bool.eq_iff_iff, Log.revoked, any_eq_true]
  rcases h b with ⟨hnone, hno⟩ | ⟨j, hsome, hmem, hmax⟩
  · rw [hnone]
    constructor
    · intro hf
      cases hf
    · rintro ⟨r, hr, hrb⟩
      simp only [Bool.and_eq_true, beq_iff_eq] at hrb
      exact absurd (hrb.1 ▸ hr) (hno r.1)
  rw [hsome]
  simp only [tidGeq_serial (hrs _ hmem) hi, decide_eq_true_eq]
  constructor
  · intro hij
    exact ⟨(j, b), hmem, by simp [hij]⟩
  rintro ⟨r, hr, hrb⟩
  simp only [Bool.and_eq_true, beq_iff_eq, decide_eq_true_eq] at hrb
  have := hmax r.1 (hrb.1 ▸ hr)
  omega

/-! ## Section 3: Walking over the log -/

/-- What the passes rely on: the blocks of the log read the same on every disk that
    replay can leave, complete or not. -/
structure Env (bmap : Disk → Nat → Int) (c : JCtx) (rd : Nat → Bytes) (d : Disk)
    (live : List (Nat × Bytes)) : Prop where
  read     : ∀ d', Torn d live d' → ∀ p, p < c.maxlen → jbd2ReadLog bmap d' p = some (rd p)
  maxlen   : c.maxlen < 2 ^ 32
  bs_pos   : 0 < c.blockSize
  tagBytes : c.tagBytes = tagSize c.csum3 c.is64

/-- A position in the circular area. -/
def JCtx.In (c : JCtx) (p : Nat) : Prop := c.first ≤ p ∧ p < c.maxlen

theorem JCtx.In.succ (h : c.In p) : c.In (c.succ p) := by
  unfold JCtx.In JCtx.succ at *
  split <;> omega

theorem wrapb_succ (h : c.In p) (hm : c.maxlen < 2 ^ 32) :
    wrapb (u32 (p + 1)) c.first c.maxlen = c.succ p := by
  obtain ⟨hlo, hhi⟩ := h
  unfold wrapb JCtx.succ
  rw [u32_of_lt (by omega)]
  by_cases hp : p + 1 = c.maxlen
  · rw [if_pos (by omega), if_pos hp]
    unfold sub32 u32
    omega
  · rw [if_neg (by omega), if_neg hp]

/-- The state after some writes, at another position. -/
def PassState.advance (s : PassState) (p : Nat) (ws : List (Nat × Bytes)) : PassState :=
  { s with nextLog := p, disk := apply s.disk ws, writes := s.writes ++ ws }

theorem PassState.advance_advance (s : PassState) (p p' : Nat) (ws vs : List (Nat × Bytes)) :
    (s.advance p ws).advance p' vs = s.advance p' (ws ++ vs) := by
  simp [PassState.advance, apply_append, append_assoc]

/-- The writes that a pass makes of those that a record describes. -/
def applied (pass : Pass) (rev : List RevokeEnt) (seq : Nat) (ws : List (Nat × Bytes)) :
    List (Nat × Bytes) :=
  if pass = .replay then ws.filter fun w => !revTest rev w.1 seq else []

theorem applied_append (pass : Pass) (rev : List RevokeEnt) (seq : Nat)
    (ws vs : List (Nat × Bytes)) :
    applied pass rev seq (ws ++ vs) = applied pass rev seq ws ++ applied pass rev seq vs := by
  unfold applied
  split
  · exact filter_append ws vs
  · rfl

/-- The pass stands at `p`, on a disk that replay can leave. -/
structure PassState.At (s : PassState) (c : JCtx) (d : Disk) (live : List (Nat × Bytes)) (p : Nat) :
    Prop where
  area : c.In p
  log  : s.nextLog = p
  torn : Torn d live s.disk

section Walk

variable {bmap : Disk → Nat → Int} {c : JCtx} {rd : Nat → Bytes} {d : Disk}
  {live : List (Nat × Bytes)} {pass : Pass} {endSeq : Nat}

variable {s : PassState} {p b off p' seq : Nat} {data blk : Bytes} {escape : Bool}

theorem replayTag_spec (env : Env bmap c rd d live) {tf : Nat} (hst : Stored escape (rd p) data)
    (htf : tf.testBit 0 = escape) (h : s.At c d live p) (hb : b * c.blockSize < 2 ^ 64) :
    replayTag bmap c s tf b = s.advance p (applied .replay s.rev s.nextSeq [(b, data)]) := by
  have hlog := h.log
  unfold replayTag
  rw [hlog, env.read _ h.torn p h.area.2]
  simp only
  by_cases hrev : revTest s.rev b s.nextSeq = true
  · simp [applied, hrev, PassState.advance, ← hlog]
  have hesc : tf &&& flagEscape ≠ 0 ↔ escape = true := by
    rw [← htf]
    exact and_two_pow_ne_zero tf 0
  have hdata : (if tf &&& flagEscape ≠ 0 then putBe32 (rd p) 0 jbd2MagicNumber else rd p) =
      data := by
    simp only [hesc]
    exact hst.restore
  have hblock : u64 (b * c.blockSize) / c.blockSize = b := by
    rw [u64_of_lt hb, Nat.mul_div_cancel _ env.bs_pos]
  rw [hdata, hblock]
  simp [applied, hrev, PassState.advance, apply_cons, ← hlog]

/-- One tag: the pass does what it does for it and goes on to the next one. -/
theorem tagLoop_tag (env : Env bmap c rd d live) {fuel : Nat} {sameUuid lastTag : Bool}
    (htag : TagAt c blk off b escape sameUuid lastTag) (hst : Stored escape (rd p) data)
    (h : s.At c d live p) (hb : pass = .replay → b * c.blockSize < 2 ^ 64) :
    tagLoop bmap c pass blk (fuel + 1) off s =
      if lastTag then s.advance (c.succ p) (applied pass s.rev s.nextSeq [(b, data)])
      else tagLoop bmap c pass blk fuel (off + tagSize c.csum3 c.is64 + if sameUuid then 0 else 16)
        (s.advance (c.succ p) (applied pass s.rev s.nextSeq [(b, data)])) := by
  have hfits := htag.fits
  have hblock : tagBlock blk off c.is64 = b := by
    unfold tagBlock
    have hhigh := htag.high
    have hlow := htag.block
    cases h64 : c.is64 with
    | true =>
      simp only [h64, if_true] at hhigh ⊢
      omega
    | false =>
      simp only [h64, if_false, Bool.false_eq_true] at hhigh ⊢
      omega
  have hsame : tagFlags blk off c.csum3 &&& flagSameUuid = 0 ↔ sameUuid = false := by
    have := and_two_pow_ne_zero (tagFlags blk off c.csum3) 1
    rw [htag.sameUuid] at this
    rw [← Bool.not_eq_true, ← this]
    exact not_not.symm
  have hlast : tagFlags blk off c.csum3 &&& flagLastTag ≠ 0 ↔ lastTag = true := by
    rw [← htag.lastTag]
    exact and_two_pow_ne_zero _ 3
  -- what the pass does for the tag, before it moves on
  have hbody : (if pass = .replay then
      replayTag bmap c s (tagFlags blk off c.csum3) b else s) =
      s.advance p (applied pass s.rev s.nextSeq [(b, data)]) := by
    by_cases hpass : pass = .replay
    · rw [if_pos hpass, hpass]
      exact replayTag_spec env hst htag.escape h (hb hpass)
    · simp [applied, hpass, PassState.advance, ← h.log]
  have hnext : { s.advance p (applied pass s.rev s.nextSeq [(b, data)]) with
      nextLog := wrapb (u32 ((s.advance p (applied pass s.rev s.nextSeq [(b, data)])).nextLog + 1))
        c.first c.maxlen } =
      s.advance (c.succ p) (applied pass s.rev s.nextSeq [(b, data)]) := by
    have hw := wrapb_succ h.area env.maxlen
    simp only [PassState.advance]
    rw [hw]
  simp only [tagLoop, env.tagBytes, if_pos hfits, hblock, hbody, hnext, hsame, hlast]
  cases sameUuid <;> cases lastTag <;> simp

/-- **The loop over the tags of a descriptor block.** -/
theorem tagLoop_spec (pass : Pass) (env : Env bmap c rd d live) {ws : List (Nat × Bytes)}
    (h : TagsAt c rd blk off p ws p') :
    ∀ (s : PassState) (fuel : Nat), s.At c d live p →
      (pass = .replay → ∀ w ∈ ws, w.1 * c.blockSize < 2 ^ 64) →
      (∀ w ∈ applied pass s.rev s.nextSeq ws, w ∈ live) → c.blockSize ≤ fuel + off →
      tagLoop bmap c pass blk fuel off s = s.advance p' (applied pass s.rev s.nextSeq ws) ∧
        c.In p' := by
  have hsize : 8 ≤ tagSize c.csum3 c.is64 := by
    unfold tagSize
    split
    · omega
    · split <;> omega
  induction h with
  | @last off p b data escape sameUuid htag hst =>
    intro s fuel hat hb _ hfuel
    have hfits := htag.fits
    obtain ⟨fuel, rfl⟩ : ∃ n, fuel = n + 1 := ⟨fuel - 1, by omega⟩
    rw [tagLoop_tag env htag hst hat fun hr => hb hr _ (.head _)]
    exact ⟨rfl, hat.area.succ⟩
  | @cons off p p' b data escape sameUuid ws htag hst _ ih =>
    intro s fuel hat hb happ hfuel
    have hfits := htag.fits
    obtain ⟨fuel, rfl⟩ : ∃ n, fuel = n + 1 := ⟨fuel - 1, by omega⟩
    rw [tagLoop_tag env htag hst hat fun hr => hb hr _ (.head _), if_neg Bool.false_ne_true]
    have hsplit : applied pass s.rev s.nextSeq ((b, data) :: ws) =
        applied pass s.rev s.nextSeq [(b, data)] ++ applied pass s.rev s.nextSeq ws :=
      applied_append pass s.rev s.nextSeq [(b, data)] ws
    rw [hsplit] at happ ⊢
    have htorn' : Torn d live (apply s.disk (applied pass s.rev s.nextSeq [(b, data)])) :=
      hat.torn.trans (torn_apply s.disk fun w hw => happ w (mem_append_left _ hw))
    obtain ⟨hrest, hin⟩ := ih (s.advance (c.succ p) (applied pass s.rev s.nextSeq [(b, data)]))
      fuel ⟨hat.area.succ, rfl, htorn'⟩ (fun hr w hw => hb hr w (.tail _ hw))
      (fun w hw => happ w (mem_append_right _ hw)) (by omega)
    exact ⟨by rw [hrest, PassState.advance_advance]; rfl, hin⟩

theorem revokeSize_pos (is64 : Bool) : 0 < revokeSize is64 := by
  unfold revokeSize
  split <;> omega

/-- The loop over the entries of a revoke block. -/
theorem scanRevokeLoop_spec {is64 : Bool} (blocks : List Nat) :
    ∀ (off fuel : Nat) (rev : List RevokeEnt),
      (∀ i b, blocks[i]? = some b → (if is64 then be64 blk (off + revokeSize is64 * i)
        else be32 blk (off + revokeSize is64 * i)) = b) → blocks.length < fuel →
      scanRevokeLoop blk (off + revokeSize is64 * blocks.length) seq is64 fuel off rev =
        blocks.foldl (fun t b => revSet t b seq) rev := by
  have hpos := revokeSize_pos is64
  induction blocks with
  | nil =>
    intro off fuel rev _ hfuel
    obtain ⟨fuel, rfl⟩ : ∃ n, fuel = n + 1 := ⟨fuel - 1, by omega⟩
    unfold scanRevokeLoop
    rw [if_neg]
    · rfl
    · change ¬ off + revokeSize is64 ≤ off + revokeSize is64 * 0
      omega
  | cons b blocks ih =>
    intro off fuel rev hentries hfuel
    obtain ⟨fuel, rfl⟩ : ∃ n, fuel = n + 1 := ⟨fuel - 1, by omega⟩
    have hlen : off + revokeSize is64 * (b :: blocks).length =
        off + revokeSize is64 + revokeSize is64 * blocks.length := by
      rw [length_cons, Nat.mul_add]
      omega
    have hfirst : (if is64 then be64 blk off else be32 blk off) = b := by
      have h0 := hentries 0 b rfl
      simpa using h0
    rw [hlen]
    unfold scanRevokeLoop
    simp only [hfirst]
    rw [if_pos]
    · apply ih
      · intro i b' hb'
        have hi := hentries (i + 1) b' hb'
        rw [Nat.mul_add, Nat.mul_one, Nat.add_comm (revokeSize is64 * i), ← Nat.add_assoc] at hi
        exact hi
      · rw [length_cons] at hfuel
        omega
    · change off + revokeSize is64 ≤ off + revokeSize is64 + revokeSize is64 * blocks.length
      omega

theorem scanRevoke_spec {blocks : List Nat} (h : RevokesAt c blk blocks) (seq : Nat)
    (rev : List RevokeEnt) :
    scanRevoke blk c.blockSize seq c.is64 rev = blocks.foldl (fun t b => revSet t b seq) rev := by
  have hfits := h.fits
  have hle : blocks.length ≤ revokeSize c.is64 * blocks.length :=
    Nat.le_mul_of_pos_left _ (revokeSize_pos _)
  unfold scanRevoke
  simp only [h.count]
  rw [if_neg (by omega)]
  apply scanRevokeLoop_spec blocks
  · exact h.entries
  · omega

/-- The state after records of one transaction. -/
def PassState.records (s : PassState) (pass : Pass) (p : Nat) (rs : List Record) : PassState :=
  { s.advance p (applied pass s.rev s.nextSeq (rs.flatMap Record.writes)) with
    rev := if pass = .revoke then
        (rs.flatMap Record.revokes).foldl (fun t b => revSet t b s.nextSeq) s.rev
      else s.rev }

theorem PassState.records_cons (s : PassState) (p p' : Nat) (r : Record) (rs : List Record) :
    (s.records pass p [r]).records pass p' rs = s.records pass p' (r :: rs) := by
  have happlied : ∀ rev, applied pass (if pass = .revoke then rev else s.rev) s.nextSeq =
      applied pass s.rev s.nextSeq := by
    intro rev
    funext ws
    cases pass <;> simp [applied]
  simp only [PassState.records, PassState.advance, happlied, flatMap_cons, flatMap_nil,
    append_nil, applied_append, apply_append, append_assoc, foldl_append]
  cases pass <;> simp

theorem passStep_of_header (env : Env bmap c rd d live) {btype : Nat}
    (hdr : Header (rd p) btype s.nextSeq) (hat : s.At c d live p)
    (hgo : pass ≠ .scan → tidGeq s.nextSeq endSeq = false) :
    passStep bmap c pass endSeq s = (let s' := { s with nextLog := c.succ p }
      if btype = descriptorBlock then
        some (tagLoop bmap c pass (rd p) c.blockSize headerSize s')
      else if btype = commitBlock then some { s' with nextSeq := u32 (s'.nextSeq + 1) }
      else if btype = revokeBlock then
        if pass = .revoke then
          some { s' with rev := scanRevoke (rd p) c.blockSize s'.nextSeq c.is64 s'.rev }
        else some s'
      else none) := by
  have hno : ¬ (pass ≠ .scan ∧ tidGeq s.nextSeq endSeq = true) := by
    intro h
    rw [hgo h.1] at h
    exact Bool.false_ne_true h.2
  unfold passStep
  rw [if_neg hno, hat.log, env.read _ hat.torn p hat.area.2]
  simp only [hdr.magic, hdr.seq, hdr.btype, ne_eq, not_true_eq_false, if_false,
    wrapb_succ hat.area env.maxlen]

/-- The writes that a pass makes of those of transactions. -/
def txnWrites (pass : Pass) (rev : List RevokeEnt) (q i : Nat) (ts : List Transaction) :
    List (Nat × Bytes) :=
  if pass = .replay then
    ((writesFrom i ts).filter fun w => !revTest rev w.2.1 (serial q w.1)).map Prod.snd
  else []

theorem txnWrites_cons (pass : Pass) (rev : List RevokeEnt) (q i : Nat) (t : Transaction)
    (ts : List Transaction) : txnWrites pass rev q i (t :: ts) =
      applied pass rev (serial q i) (t.flatMap Record.writes) ++
        txnWrites pass rev q (i + 1) ts := by
  unfold txnWrites applied
  by_cases hpass : pass = .replay
  · simp only [if_pos hpass, writesFrom, numbered, filter_append, map_append, filter_map,
      map_map]
    congr 1
    exact map_id _
  · simp only [if_neg hpass, append_nil]

/-- The state after committed transactions, numbered from `i` on. -/
def PassState.txns (s : PassState) (pass : Pass) (q i p : Nat) (ts : List Transaction) :
    PassState :=
  { s.advance p (txnWrites pass s.rev q i ts) with
    nextSeq := serial q ((i + ts.length : Nat) : Int)
    rev := if pass = .revoke then
        (revokesFrom i ts).foldl (fun t r => revSet t r.2 (serial q r.1)) s.rev
      else s.rev }

/-- The number of rounds that a pass takes for transactions. -/
def rounds (ts : List Transaction) : Nat := (ts.map fun t => t.length + 1).sum

/-- The state after a commit block. -/
def PassState.commit (s : PassState) (p : Nat) : PassState :=
  { s with nextLog := p, nextSeq := u32 (s.nextSeq + 1) }

section

variable (pass endSeq) (env : Env bmap c rd d live)
include env

/-- **One record.** -/
theorem passStep_record {r : Record} (h : RecordAt c rd s.nextSeq p r p') (hat : s.At c d live p)
    (hgo : pass ≠ .scan → tidGeq s.nextSeq endSeq = false)
    (hb : pass = .replay → ∀ w ∈ r.writes, w.1 * c.blockSize < 2 ^ 64)
    (happ : ∀ w ∈ applied pass s.rev s.nextSeq r.writes, w ∈ live) :
    passStep bmap c pass endSeq s = some (s.records pass p' [r]) ∧ c.In p' := by
  cases h with
  | @descriptor _ ws hdr htags =>
    rw [passStep_of_header env hdr hat hgo]
    obtain ⟨htag, hin⟩ := tagLoop_spec pass env htags { s with nextLog := c.succ p }
      c.blockSize ⟨hat.area.succ, rfl, hat.torn⟩ hb happ (by omega)
    simp only [if_true, htag]
    refine ⟨?_, hin⟩
    cases pass <;> simp [PassState.records, PassState.advance, Record.writes, Record.revokes]
  | @revoke blocks hdr hrev =>
    rw [passStep_of_header env hdr hat hgo]
    have h1 : revokeBlock ≠ descriptorBlock := by decide
    have h2 : revokeBlock ≠ commitBlock := by decide
    simp only [if_neg h1, if_neg h2, if_true, scanRevoke_spec hrev]
    refine ⟨?_, hat.area.succ⟩
    cases pass <;>
      simp [PassState.records, PassState.advance, Record.writes, Record.revokes, applied]

/-- **The records of a transaction.** -/
theorem passLoop_records {rs : List Record} (h : RecordsAt c rd seq p rs p') :
    ∀ s : PassState, s.nextSeq = seq → s.At c d live p →
      (pass ≠ .scan → tidGeq seq endSeq = false) →
      (pass = .replay → ∀ w ∈ rs.flatMap Record.writes, w.1 * c.blockSize < 2 ^ 64) →
      (∀ w ∈ applied pass s.rev seq (rs.flatMap Record.writes), w ∈ live) →
      (∀ fuel, passLoop bmap c pass endSeq (rs.length + fuel) s =
        passLoop bmap c pass endSeq fuel (s.records pass p' rs)) ∧ c.In p' := by
  induction h with
  | nil =>
    intro s _ hat _ _ _
    have hsame : s.records pass s.nextLog [] = s := by
      cases pass <;> simp [PassState.records, PassState.advance, applied]
    rw [← hat.log, hsame, hat.log]
    exact ⟨fun fuel => by rw [length_nil, Nat.zero_add], hat.area⟩
  | @cons p p1 p2 r rs hr _ ih =>
    intro s hseq hat hgo hb happ
    subst hseq
    simp only [flatMap_cons, applied_append] at hb happ
    obtain ⟨hstep, hin⟩ := passStep_record pass endSeq env hr hat hgo
      (fun hr w hw => hb hr w (mem_append_left _ hw))
      (fun w hw => happ w (mem_append_left _ hw))
    -- the rest sees the same sequence number, and for replay the same table
    have hrev : applied pass (s.records pass p1 [r]).rev s.nextSeq =
        applied pass s.rev s.nextSeq := by
      funext ws
      cases pass <;> simp [applied, PassState.records, PassState.advance]
    have htorn' : Torn d live (s.records pass p1 [r]).disk := by
      refine hat.torn.trans (torn_apply s.disk fun w hw => happ w (mem_append_left _ ?_))
      simpa using hw
    obtain ⟨hrest, hin'⟩ := ih (s.records pass p1 [r]) rfl ⟨hin, rfl, htorn'⟩ hgo
      (fun hr w hw => hb hr w (mem_append_right _ hw))
      (fun w hw => happ w (mem_append_right _ (by rw [hrev] at hw; exact hw)))
    refine ⟨?_, hin'⟩
    intro fuel
    have hlen : (r :: rs).length + fuel = (rs.length + fuel) + 1 := by
      rw [length_cons]
      omega
    rw [hlen, passLoop, hstep]
    simp only
    rw [hrest, PassState.records_cons]

theorem passStep_commit (hdr : Header (rd p) commitBlock s.nextSeq) (hat : s.At c d live p)
    (hgo : pass ≠ .scan → tidGeq s.nextSeq endSeq = false) :
    passStep bmap c pass endSeq s = some (s.commit (c.succ p)) := by
  rw [passStep_of_header env hdr hat hgo]
  rfl

/-- **Committed transactions.** -/
theorem passLoop_committed {q i : Nat} {ts : List Transaction} (h : CommittedAt c rd q i p ts p') :
    ∀ s : PassState, s.nextSeq = serial q i → s.At c d live p →
      (pass ≠ .scan → ∀ j, i ≤ j → j < i + ts.length → tidGeq (serial q j) endSeq = false) →
      (pass = .replay → ∀ w ∈ writesFrom i ts, w.2.1 * c.blockSize < 2 ^ 64) →
      (∀ w ∈ txnWrites pass s.rev q i ts, w ∈ live) →
      (∀ fuel, passLoop bmap c pass endSeq (rounds ts + fuel) s =
        passLoop bmap c pass endSeq fuel (s.txns pass q i p' ts)) ∧ c.In p' := by
  induction h with
  | @nil i p =>
    intro s hseq hat _ _ _
    have hsame : s.txns pass q i p [] = s := by
      have hw : txnWrites pass s.rev q i [] = [] := by
        unfold txnWrites
        split <;> rfl
      simp only [PassState.txns, hw, length_nil, Nat.add_zero, ← hseq, ← hat.log]
      cases pass <;> simp [PassState.advance, revokesFrom, numbered]
    rw [hsame]
    exact ⟨fun fuel => by rw [rounds, map_nil, sum_nil, Nat.zero_add], hat.area⟩
  | @cons i p p1 p2 t ts hrecs hdr _ ih =>
    intro s hseq hat hgo hb happ
    rw [txnWrites_cons] at happ
    -- the records of the first transaction, then its commit block
    have hgo1 : pass ≠ .scan → tidGeq (serial q i) endSeq = false :=
      fun hpass => hgo hpass i (le_refl i) (by rw [length_cons]; omega)
    have hb1 : pass = .replay → ∀ w ∈ t.flatMap Record.writes, w.1 * c.blockSize < 2 ^ 64 := by
      intro hr w hw
      exact hb hr (i, w) (mem_append_left _ (mem_map.mpr ⟨w, hw, rfl⟩))
    obtain ⟨hloop, hin⟩ := passLoop_records pass endSeq env hrecs s hseq hat hgo1 hb1
      (fun w hw => happ w (mem_append_left _ hw))
    have htorn1 : Torn d live (s.records pass p1 t).disk := by
      refine hat.torn.trans (torn_apply s.disk fun w hw => happ w (mem_append_left _ ?_))
      rw [← hseq]
      exact hw
    have hcommit := passStep_commit pass endSeq env
      (by change Header _ _ s.nextSeq; rw [hseq]; exact hdr)
      ⟨hin, rfl, htorn1⟩
      (by change pass ≠ .scan → tidGeq s.nextSeq endSeq = false; rw [hseq]; exact hgo1)
    generalize hs1 : (s.records pass p1 t).commit (c.succ p1) = s1 at hcommit
    have hseq1 : s1.nextSeq = serial q ((i + 1 : Nat) : Int) := by
      rw [← hs1]
      change u32 (s.nextSeq + 1) = _
      rw [hseq]
      exact u32_serial_add q 1 i
    have hw1 : txnWrites pass s1.rev q (i + 1) ts = txnWrites pass s.rev q (i + 1) ts := by
      rw [← hs1]
      cases pass <;> simp [txnWrites, PassState.commit, PassState.records, PassState.advance]
    obtain ⟨hrest, hin'⟩ := ih s1 hseq1 (by rw [← hs1]; exact ⟨hin.succ, rfl, htorn1⟩)
      (fun hpass j hj hj' => hgo hpass j (by omega) (by rw [length_cons]; omega))
      (fun hr w hw => hb hr w (mem_append_right _ hw))
      (fun w hw => happ w (mem_append_right _ (by rw [hw1] at hw; exact hw)))
    refine ⟨?_, hin'⟩
    intro fuel
    have hrounds : rounds (t :: ts) + fuel = t.length + ((rounds ts + fuel) + 1) := by
      unfold rounds
      rw [map_cons, sum_cons]
      omega
    rw [hrounds, hloop, passLoop, hcommit]
    simp only
    rw [hrest]
    congr 1
    -- the two stretches of the log are one
    have hlen : i + 1 + ts.length = i + (t :: ts).length := by
      rw [length_cons]
      omega
    simp only [PassState.txns, hw1, txnWrites_cons, hlen, ← hseq]
    rw [← hs1]
    cases pass <;>
      simp [PassState.commit, PassState.records, PassState.advance, apply_append, revokesFrom,
        numbered, foldl_append, foldl_map, hseq]

end

/-- The block after the log ends a pass. -/
theorem passStep_end (env : Env bmap c rd d live) (hend : LogEnd (rd p) s.nextSeq)
    (hat : s.At c d live p) : passStep bmap c pass endSeq s = none := by
  unfold passStep
  split
  · rfl
  rw [hat.log, env.read _ hat.torn p hat.area.2]
  by_cases hmagic : be32 (rd p) 0 = jbd2MagicNumber
  · by_cases hseq : be32 (rd p) 8 = s.nextSeq
    · have hhdr : ∀ btype, be32 (rd p) 4 = btype → Header (rd p) btype s.nextSeq :=
        fun btype h => ⟨hmagic, h, hseq⟩
      -- a header like this one would have to be of another kind
      have h1 : be32 (rd p) 4 ≠ descriptorBlock := fun h => hend ⟨_, hhdr _ h, .inl rfl⟩
      have h2 : be32 (rd p) 4 ≠ commitBlock := fun h => hend ⟨_, hhdr _ h, .inr (.inl rfl)⟩
      have h3 : be32 (rd p) 4 ≠ revokeBlock := fun h => hend ⟨_, hhdr _ h, .inr (.inr rfl)⟩
      simp [hmagic, hseq, h1, h2, h3]
    · simp [hmagic, hseq]
  · simp [hmagic]

end Walk

/-! ## Section 4: The three passes -/

theorem numbered_index {α : Type} {f : Record → List α} {x : Nat × α} (h : x ∈ numbered f i ts) :
    x.1 < i + ts.length := by
  induction ts generalizing i with
  | nil => cases h
  | cons t ts ih =>
    rw [length_cons]
    rcases mem_append.mp h with h | h
    · obtain ⟨v, _, rfl⟩ := mem_map.mp h
      omega
    · have := ih h
      omega

section Passes

variable {bmap : Disk → Nat → Int} {c : JCtx} {rd : Nat → Bytes} {d d' : Disk}
  {live : List (Nat × Bytes)} {log : Log} {q start p p' fuel : Nat} (env : Env bmap c rd d live)
  (htorn : Torn d live d') (hq : q < 2 ^ 32) (hstart : c.In start)
  (hcommitted : CommittedAt c rd q 0 start log.committed p)
include env htorn hq hstart hcommitted

/-- **The first pass** finds the number of committed transactions. -/
theorem scan_pass
    (htail : RecordsAt c rd (serial q log.committed.length) p log.tail p')
    (hend : LogEnd (rd p') (serial q log.committed.length))
    (hfuel : rounds log.committed + log.tail.length + 1 ≤ fuel) :
    ∃ s, jbd2Pass bmap fuel c .scan start q 0 [] d' = some s ∧
      s.nextSeq = serial q log.committed.length ∧ s.disk = d' := by
  obtain ⟨n, rfl⟩ : ∃ n, fuel = rounds log.committed + (log.tail.length + (n + 1)) :=
    ⟨fuel - (rounds log.committed + log.tail.length + 1), by omega⟩
  have hq0 : q = serial q ((0 : Nat) : Int) := by
    unfold serial
    omega
  obtain ⟨hloop, hin⟩ := passLoop_committed .scan 0 env hcommitted ⟨start, q, [], d', []⟩ hq0
    ⟨hstart, rfl, htorn⟩ (fun hne => absurd rfl hne) nofun (by simp [txnWrites])
  generalize hs : PassState.txns ⟨start, q, [], d', []⟩ .scan q 0 p log.committed = s at hloop
  have hseq : s.nextSeq = serial q log.committed.length := by
    rw [← hs, PassState.txns, Nat.zero_add]
  have hdisk : s.disk = d' := by
    rw [← hs]
    simp [PassState.txns, PassState.advance, txnWrites]
  have hlog : s.nextLog = p := by
    rw [← hs]
    rfl
  -- then the transaction that was not committed, and the end of the log
  obtain ⟨hloop', hin'⟩ := passLoop_records .scan 0 env htail s hseq
    ⟨hin, hlog, by rw [hdisk]; exact htorn⟩ (fun hne => absurd rfl hne) nofun (by simp [applied])
  have hstop : passStep bmap c .scan 0 (s.records .scan p' log.tail) = none := by
    apply passStep_end env
    · change LogEnd (rd p') s.nextSeq
      rw [hseq]
      exact hend
    · exact ⟨hin', rfl, by simpa [PassState.records, PassState.advance, applied, hdisk] using htorn⟩
  refine ⟨s.records .scan p' log.tail, ?_, hseq, ?_⟩
  · unfold jbd2Pass
    rw [hloop, hloop', passLoop, hstop]
  · simp [PassState.records, PassState.advance, applied, hdisk]

variable {rev : List RevokeEnt}

/-- The passes after the first stop where the committed transactions end. -/
theorem later_pass (pass : Pass) (hpass : pass ≠ .scan) (hcount : log.committed.length < 2 ^ 31)
    (hb : pass = .replay → ∀ w ∈ writesFrom 0 log.committed, w.2.1 * c.blockSize < 2 ^ 64)
    (happ : ∀ w ∈ txnWrites pass rev q 0 log.committed, w ∈ live)
    (hfuel : rounds log.committed + 1 ≤ fuel) :
    jbd2Pass bmap fuel c pass start q (serial q log.committed.length) rev d' =
      some (PassState.txns ⟨start, q, rev, d', []⟩ pass q 0 p log.committed) := by
  obtain ⟨n, rfl⟩ : ∃ n, fuel = rounds log.committed + (n + 1) :=
    ⟨fuel - (rounds log.committed + 1), by omega⟩
  have hq0 : q = serial q ((0 : Nat) : Int) := by
    unfold serial
    omega
  have hgo : ∀ j, 0 ≤ j → j < 0 + log.committed.length →
      tidGeq (serial q j) (serial q log.committed.length) = false := by
    intro j _ hj
    rw [tidGeq_serial (by omega) hcount]
    exact decide_eq_false (by omega)
  obtain ⟨hloop, _⟩ := passLoop_committed pass (serial q log.committed.length) env hcommitted
    ⟨start, q, rev, d', []⟩ hq0 ⟨hstart, rfl, htorn⟩ (fun _ => hgo) hb happ
  have hstop : passStep bmap c pass (serial q log.committed.length)
      (PassState.txns ⟨start, q, rev, d', []⟩ pass q 0 p log.committed) = none := by
    unfold passStep
    rw [if_pos]
    refine ⟨hpass, ?_⟩
    simp only [PassState.txns, Nat.zero_add]
    rw [tidGeq_serial hcount hcount]
    exact decide_eq_true (le_refl _)
  unfold jbd2Pass
  rw [hloop, passLoop, hstop]

/-- **The second pass** builds the table of revoked blocks. -/
theorem revoke_pass (hcount : log.committed.length < 2 ^ 31)
    (hfuel : rounds log.committed + 1 ≤ fuel) :
    ∃ s, jbd2Pass bmap fuel c .revoke start q (serial q log.committed.length) [] d' = some s ∧
      s.disk = d' ∧ RevRep q (revokesFrom 0 log.committed) s.rev := by
  refine ⟨_, later_pass env htorn hq hstart hcommitted .revoke nofun hcount nofun
    (by simp [txnWrites]) hfuel, by simp [PassState.txns, PassState.advance, txnWrites], ?_⟩
  have hindex : ∀ r ∈ [] ++ revokesFrom 0 log.committed, r.1 < 2 ^ 31 := by
    intro r hr
    have := numbered_index hr
    omega
  exact (RevRep.nil q).foldl hindex

/-- **The third pass** makes the writes that count. -/
theorem replay_pass (happ : ∀ w ∈ log.live, w ∈ live) (hcount : log.committed.length < 2 ^ 31)
    (hb : ∀ w ∈ writesFrom 0 log.committed, w.2.1 * c.blockSize < 2 ^ 64)
    (hrev : RevRep q (revokesFrom 0 log.committed) rev) (hfuel : rounds log.committed + 1 ≤ fuel) :
    ∃ s, jbd2Pass bmap fuel c .replay start q (serial q log.committed.length) rev d' = some s ∧
      s.disk = apply d' log.live ∧ s.writes = log.live := by
  -- the table answers what the log says
  have hlive : txnWrites .replay rev q 0 log.committed = log.live := by
    unfold txnWrites Log.live
    rw [if_pos rfl]
    congr 1
    apply filter_congr
    intro w hw
    have hw' := numbered_index hw
    rw [hrev.test (by omega) fun r hr => by have := numbered_index hr; omega]
  refine ⟨_, later_pass env htorn hq hstart hcommitted .replay nofun hcount (fun _ => hb)
    (by rw [hlive]; exact happ) hfuel, ?_, ?_⟩
  · simp only [PassState.txns, PassState.advance, hlive]
  · simp only [PassState.txns, PassState.advance, hlive, nil_append]

end Passes

/-! ## Section 5: Recovery -/

section Recovery

variable {bmap : Disk → Nat → Int} {bs : Nat} {d : Disk} {log : Log}

theorem Log.mem_live {w : Nat × Bytes} (h : w ∈ log.live) :
    ∃ i, (i, w) ∈ writesFrom 0 log.committed := by
  obtain ⟨⟨i, v⟩, hv, rfl⟩ := mem_map.mp h
  exact ⟨i, (mem_filter.mp hv).1⟩

/-- The journal reads the same on every disk that replay can leave. -/
theorem WellFormed.read (h : WellFormed bmap bs d log) {d' : Disk} (htorn : Torn d log.live d')
    (hj : InJournal bmap d j) :
    bmap d' j = bmap d j ∧ jbd2ReadLog bmap d' j = some (logBlock bmap d j) := by
  have hmap := h.stable d' htorn j hj
  have hpos := (h.mapped j hj).1
  have hsame : d' (bmap d j).toNat = d (bmap d j).toNat := by
    apply htorn.of_not_mem
    intro w hw heq
    obtain ⟨i, hi⟩ := Log.mem_live hw
    apply (h.home _ hi).2 j hj
    change (w.1 : Int) = bmap d j
    omega
  refine ⟨hmap, ?_⟩
  unfold jbd2ReadLog logBlock
  simp only [hmap, hsame]
  rw [if_neg (by omega)]

theorem WellFormed.env (h : WellFormed bmap bs d log) :
    Env bmap (jctxOf bs (logBlock bmap d 0)) (logBlock bmap d) d log.live where
  read d' htorn p hp := (h.read htorn (.inr hp)).2
  maxlen := be32_lt _ _
  bs_pos := by
    have := h.blockSize
    have hpos : 0 < superOffset := by decide
    exact Nat.lt_of_lt_of_le hpos this
  tagBytes := by simp [jctxOf, tagSize]

/-- There are fewer transactions than half the sequence numbers: each has a block of
    its own, and block numbers are positive 32-bit integers. -/
theorem WellFormed.count_lt (h : WellFormed bmap bs d log)
    (hp : Placed (jctxOf bs (logBlock bmap d 0)) (logBlock bmap d) (sSequence (logBlock bmap d 0))
      (sStart (logBlock bmap d 0)) log) : log.committed.length < 2 ^ 31 := by
  have hcard : sMaxlen (logBlock bmap d 0) ≤ 2 ^ 31 - 1 := by
    have hle := Finset.card_le_card_of_injOn (fun j => (bmap d j).toNat)
      (s := Finset.range (sMaxlen (logBlock bmap d 0))) (t := Finset.Ico 1 (2 ^ 31)) ?_ ?_
    · simpa using hle
    · intro j hj
      have hj' := h.mapped j (.inr (Finset.mem_range.mp hj))
      simp only [Finset.coe_Ico, Set.mem_Ico]
      omega
    · intro i hi j hj heq
      have hi' : InJournal bmap d i := .inr (Finset.mem_range.mp hi)
      have hj' : InJournal bmap d j := .inr (Finset.mem_range.mp hj)
      have hpj := (h.mapped j hj').1
      apply h.distinct i j hi' hj'
      simp only at heq
      omega
  have hlen : log.committed.length ≤
      (log.committed.map fun t => (t.map Record.size).sum + 1).sum := by
    induction log.committed with
    | nil => exact Nat.zero_le _
    | cons t ts ih =>
      rw [length_cons, map_cons, sum_cons]
      omega
  have hfits := hp.fits
  have hmax : (jctxOf bs (logBlock bmap d 0)).maxlen = sMaxlen (logBlock bmap d 0) := rfl
  unfold Log.length at hfits
  omega

/-- The call returns `r`, given enough fuel. -/
def Returns (bmap : Disk → Nat → Int) (bs : Nat) (fs : Ext2) (r : Recovered) : Prop :=
  ∃ n, ∀ fuel, n ≤ fuel → jbd2Recover bmap fuel bs fs = some r

theorem Returns.unique {fs : Ext2} {r r' : Recovered} (h : Returns bmap bs fs r)
    (h' : Returns bmap bs fs r') : r = r' := by
  obtain ⟨n, hn⟩ := h
  obtain ⟨n', hn'⟩ := h'
  have heq := (hn (max n n') (Nat.le_max_left _ _)).symm.trans (hn' _ (Nat.le_max_right _ _))
  cases heq
  rfl

/-- The disk that recovery should leave, with this superblock in memory. -/
def recoveredDisk (bmap : Disk → Nat → Int) (bs : Nat) (d : Disk) (log : Log) (sb : Bytes) :
    Disk :=
  let jsb := logBlock bmap d 0
  if sStart jsb = 0 then
    if featureIncompat sb &&& incompatRecover ≠ 0 then writeSuper bs d (clearRecover sb) else d
  else
    let jsb' := putBe32 (putBe32 jsb 28 0) 24 (serial (sSequence jsb) log.committed.length)
    writeSuper bs (Function.update (apply d log.live) (bmap d 0).toNat jsb') (clearRecover sb)

variable {fs : Ext2} {jsb : Bytes}

/-- `jbd2_recover` on an empty log. -/
theorem jbd2Recover_empty (bs : Nat) (hread : jbd2ReadLog bmap fs.disk 0 = some jsb)
    (hmagic : be32 jsb 0 = jbd2MagicNumber) (hzero : sStart jsb = 0) :
    ∃ fs', (∀ fuel, jbd2Recover bmap fuel bs fs = some ⟨0, fs', []⟩) ∧
      fs'.disk = if featureIncompat fs.sb &&& incompatRecover ≠ 0 then
        writeSuper bs fs.disk (clearRecover fs.sb) else fs.disk := by
  unfold jbd2Recover
  simp only [hread, hmagic, hzero, ne_eq, not_true_eq_false, if_false, if_true]
  by_cases hflag : featureIncompat fs.sb &&& incompatRecover = 0
  · simp only [hflag, not_true_eq_false, if_false]
    exact ⟨_, fun _ => rfl, rfl⟩
  · simp only [hflag, not_false_eq_true, if_true]
    exact ⟨_, fun _ => rfl, rfl⟩

/-- `jbd2_recover` on a log, when its passes return. -/
theorem jbd2Recover_log {fuel : Nat} {s1 s2 s3 : PassState}
    (hread : jbd2ReadLog bmap fs.disk 0 = some jsb) (hmagic : be32 jsb 0 = jbd2MagicNumber)
    (hstart : sStart jsb ≠ 0)
    (h1 : jbd2Pass bmap fuel (jctxOf bs jsb) .scan (sStart jsb) (sSequence jsb) 0 []
      fs.disk = some s1)
    (h2 : jbd2Pass bmap fuel (jctxOf bs jsb) .revoke (sStart jsb) (sSequence jsb) s1.nextSeq []
      s1.disk = some s2)
    (h3 : jbd2Pass bmap fuel (jctxOf bs jsb) .replay (sStart jsb) (sSequence jsb) s1.nextSeq s2.rev
      s2.disk = some s3) :
    jbd2Recover bmap fuel bs fs = some (finish bmap bs { fs with
      journalWritable := sFeatureIncompat jsb &&& (2 ^ 32 - 1 - incompatRevoke) = 0 } jsb
        s1.nextSeq s3) := by
  unfold jbd2Recover
  simp only [hread, hmagic, ne_eq, not_true_eq_false, if_false, if_neg hstart, h1, h2, h3]

/-- **`jbd2_recover`**, also on a disk where an earlier recovery was interrupted: it
    returns, it has made the writes that count, and the disk is what it would have been
    without the interruption. -/
theorem WellFormed.recover (h : WellFormed bmap bs d log) (fs : Ext2)
    (htorn : Torn d log.live fs.disk) : ∃ r, Returns bmap bs fs r ∧ r.writes = log.live ∧
      r.fs.disk = recoveredDisk bmap bs d log fs.sb := by
  obtain ⟨_, hread⟩ := h.read htorn (.inl rfl)
  rcases h.placed with ⟨hzero, hlog⟩ | ⟨hstart, hp⟩
  · -- the log is empty, and there is nothing that could have been interrupted
    have hlive : log.live = [] := by
      rw [hlog]
      rfl
    have hdisk : fs.disk = d := by
      funext b
      exact htorn.of_not_mem (by rw [hlive]; exact fun w hw => nomatch hw)
    obtain ⟨fs', hcall, hdisk'⟩ := jbd2Recover_empty bs hread h.magic hzero
    refine ⟨_, ⟨0, fun fuel _ => hcall fuel⟩, hlive.symm, ?_⟩
    simp only [recoveredDisk, hzero, if_true, hdisk', hdisk]
  obtain ⟨p, p', hcommitted, htail, hend⟩ := hp.blocks
  have hin : (jctxOf bs (logBlock bmap d 0)).In (sStart (logBlock bmap d 0)) :=
    ⟨hp.first_le, hp.start_lt⟩
  have hcount := h.count_lt hp
  have hq : sSequence (logBlock bmap d 0) < 2 ^ 32 := be32_lt _ _
  have hb : ∀ w ∈ writesFrom 0 log.committed, w.2.1 * bs < 2 ^ 64 := fun w hw => (h.home w hw).1
  -- replaying over what an interrupted replay left gives what replay gives
  have hsame : apply fs.disk log.live = apply d log.live :=
    apply_restart fun b hb' => htorn.of_not_mem hb'
  have htorn' : Torn d log.live (apply d log.live) := torn_apply d fun w hw => hw
  refine ⟨⟨1, ⟨recoveredDisk bmap bs d log fs.sb, clearRecover fs.sb,
    sFeatureIncompat (logBlock bmap d 0) &&& (2 ^ 32 - 1 - incompatRevoke) = 0⟩, log.live⟩,
    ⟨rounds log.committed + log.tail.length + 1, fun fuel hfuel => ?_⟩, rfl, rfl⟩
  obtain ⟨s1, h1, hseq, hd1⟩ := scan_pass h.env htorn hq hin hcommitted htail hend hfuel
  obtain ⟨s2, h2, hd2, hrev⟩ := revoke_pass h.env htorn hq hin hcommitted hcount
    (by omega : rounds log.committed + 1 ≤ fuel)
  obtain ⟨s3, h3, hd3, hw3⟩ := replay_pass h.env htorn hq hin hcommitted (fun w hw => hw)
    hcount hb hrev
    (by omega : rounds log.committed + 1 ≤ fuel)
  rw [jbd2Recover_log hread h.magic hstart h1 (by rw [hseq, hd1]; exact h2)
    (by rw [hseq, hd2]; exact h3)]
  have hphys : bmap (apply d log.live) 0 = bmap d 0 := h.stable _ htorn' 0 (.inl rfl)
  have hpos := (h.mapped 0 (.inl rfl)).1
  unfold finish recoveredDisk jbd2WriteLog
  simp only [hd3, hsame, hphys, hseq, hw3, if_neg hstart]
  rw [if_neg (by omega)]

/-- The bytes of the superblock. -/
def InSuper (bs b i : Nat) : Prop :=
  i < bs ∧ superOffset ≤ b * bs + i ∧ b * bs + i < 2 * superOffset

theorem recoveredDisk_outside {sb : Bytes} {b i : Nat} (hi : ¬ InSuper bs b i) :
    recoveredDisk bmap bs d log sb b i = if sStart (logBlock bmap d 0) = 0 then d b i
      else Function.update (apply d log.live) (bmap d 0).toNat
        (putBe32 (putBe32 (logBlock bmap d 0) 28 0) 24
          (serial (sSequence (logBlock bmap d 0)) log.committed.length)) b i := by
  have hsuper : ∀ (e : Disk) (sb : Bytes), writeSuper bs e sb b i = e b i := fun e sb => if_neg hi
  unfold recoveredDisk
  by_cases hzero : sStart (logBlock bmap d 0) = 0
  · simp only [if_pos hzero]
    split
    · exact hsuper d _
    · rfl
  · simp only [if_neg hzero]
    exact hsuper _ _

/-- **Recovery replays the log, and can be restarted.** Outside the superblock every
    block other than that of the journal's own superblock holds its last committed write
    that is not revoked, or what it held before. When recovery is interrupted before it
    rewrites the journal superblock, leaving some of the bytes that it writes old and
    some new, and is run again, then the disk ends up the same outside the superblock,
    and all the same if the superblock in memory is the same. -/
theorem recover_replays_and_restarts {fs : Ext2} (h : WellFormed bmap bs fs.disk log) :
    ∃ r, Returns bmap bs fs r ∧
      (∀ b : Nat, (b : Int) ≠ bmap fs.disk 0 → ∀ i, ¬ InSuper bs b i →
        r.fs.disk b i = ((log.lastWrite b).getD (fs.disk b)) i) ∧
      ∀ fs' : Ext2, Torn fs.disk r.writes fs'.disk → ∃ r', Returns bmap bs fs' r' ∧
        (∀ b i, ¬ InSuper bs b i → r'.fs.disk b i = r.fs.disk b i) ∧
        (fs'.sb = fs.sb → r'.fs.disk = r.fs.disk) := by
  obtain ⟨r, hret, hwrites, hdisk⟩ := h.recover fs (Torn.refl _ _)
  refine ⟨r, hret, ?_, ?_⟩
  · intro b hb i hi
    rw [hdisk, recoveredDisk_outside hi]
    by_cases hzero : sStart (logBlock bmap fs.disk 0) = 0
    · -- nothing is logged
      rcases h.placed with ⟨_, hlog⟩ | ⟨hne, _⟩
      · rw [if_pos hzero, hlog]
        rfl
      · exact absurd hzero hne
    · have hpos := (h.mapped 0 (.inl rfl)).1
      rw [if_neg hzero, Function.update_of_ne (by omega), apply_eq]
      rfl
  intro fs' htorn
  rw [hwrites] at htorn
  obtain ⟨r', hret', _, hdisk'⟩ := h.recover fs' htorn
  refine ⟨r', hret', ?_, ?_⟩
  · intro b i hi
    rw [hdisk, hdisk', recoveredDisk_outside hi, recoveredDisk_outside hi]
  · intro hsb
    rw [hdisk, hdisk', hsb]

end Recovery

/-! ### A log that writes the superblock -/

/-- A superblock with a journal that needs recovery, and this count of free blocks. -/
def superBytes (free : UInt8) : Bytes := fun i =>
  match i with
  | 12 => free
  | 56 => 0x53
  | 57 => 0xef
  | 92 => 4
  | 96 => 4
  | 224 => 8
  | _ => 0

/-- A block that begins with these words, in big-endian order. -/
def wordBlock (ws : List Nat) : Bytes :=
  (ws.zipIdx).foldl (fun b w => putBe32 b (4 * w.2) w.1) fun _ => 0

/-- A disk with blocks of 1024 bytes. The journal file is in blocks 100 to 107; its log
    starts at the last one, with the last sequence number there is, and wraps. A first
    transaction has a descriptor block with tags for the blocks 1, 5 and 6, and a second one
    revokes block 6. -/
def superDisk : Disk := fun b =>
  match b with
  | 1 => superBytes 9
  | 5 => wordBlock [21]
  | 6 => wordBlock [22]
  | 100 => wordBlock [jbd2MagicNumber, 4, 0, 1024, 8, 1, 2 ^ 32 - 1, 7, 0, 0, 1]
  | 101 => superBytes 7
  | 102 => wordBlock [11]
  | 103 => wordBlock [12]
  | 104 => wordBlock [jbd2MagicNumber, commitBlock, 2 ^ 32 - 1]
  | 105 => wordBlock [jbd2MagicNumber, revokeBlock, 0, 20, 6]
  | 106 => wordBlock [jbd2MagicNumber, commitBlock, 0]
  | 107 => wordBlock [jbd2MagicNumber, descriptorBlock, 2 ^ 32 - 1, 1, 0, 0, 0, 0, 0,
      5, flagSameUuid, 6, flagSameUuid + flagLastTag]
  | _ => fun _ => 0

def superMap : Disk → Nat → Int := fun _ j => 100 + j

def superLog : Log :=
  ⟨[[.descriptor [(1, superBytes 7), (5, wordBlock [11]), (6, wordBlock [12])]], [.revoke [6]]], []⟩

theorem superDisk_ctx :
    jctxOf 1024 (logBlock superMap superDisk 0) = ⟨1024, 1, 8, 8, false, false⟩ := by
  have hfirst : sFirst (logBlock superMap superDisk 0) = 1 := by decide +kernel
  have hmax : sMaxlen (logBlock superMap superDisk 0) = 8 := by decide +kernel
  have hincompat : sFeatureIncompat (logBlock superMap superDisk 0) = 1 := by decide +kernel
  unfold jctxOf
  rw [hfirst, hmax, hincompat]
  rfl

theorem superDisk_tags :
    TagsAt ⟨1024, 1, 8, 8, false, false⟩ (logBlock superMap superDisk)
      (logBlock superMap superDisk 7) headerSize 1
      [(1, superBytes 7), (5, wordBlock [11]), (6, wordBlock [12])] 4 := by
  have h1 : TagAt ⟨1024, 1, 8, 8, false, false⟩ (logBlock superMap superDisk 7) headerSize 1
      false false false :=
    ⟨by decide, by decide +kernel, by decide, by decide +kernel, by decide +kernel,
      by decide +kernel⟩
  have h2 : TagAt ⟨1024, 1, 8, 8, false, false⟩ (logBlock superMap superDisk 7) 36 5
      false true false :=
    ⟨by decide, by decide +kernel, by decide, by decide +kernel, by decide +kernel,
      by decide +kernel⟩
  have h3 : TagAt ⟨1024, 1, 8, 8, false, false⟩ (logBlock superMap superDisk 7) 44 6
      false true true :=
    ⟨by decide, by decide +kernel, by decide, by decide +kernel, by decide +kernel,
      by decide +kernel⟩
  exact .cons h1 rfl (.cons h2 rfl (.last h3 rfl))

theorem superDisk_placed :
    Placed ⟨1024, 1, 8, 8, false, false⟩ (logBlock superMap superDisk) (2 ^ 32 - 1) 7 superLog where
  first_le := by decide
  start_lt := by decide
  fits := by decide
  blocks := by
    have hdesc : Header (logBlock superMap superDisk 7) descriptorBlock (serial (2 ^ 32 - 1) 0) :=
      ⟨by decide +kernel, by decide +kernel, by decide +kernel⟩
    have hcommit : Header (logBlock superMap superDisk 4) commitBlock (serial (2 ^ 32 - 1) 0) :=
      ⟨by decide +kernel, by decide +kernel, by decide +kernel⟩
    have hrevoke : Header (logBlock superMap superDisk 5) revokeBlock (serial (2 ^ 32 - 1) 1) :=
      ⟨by decide +kernel, by decide +kernel, by decide +kernel⟩
    have hrevokes :
        RevokesAt ⟨1024, 1, 8, 8, false, false⟩ (logBlock superMap superDisk 5) [6] := by
      refine ⟨by decide +kernel, by decide, fun i b hb => ?_⟩
      cases i with
      | zero =>
        cases hb
        decide +kernel
      | succ i => cases hb
    have hcommit' : Header (logBlock superMap superDisk 6) commitBlock (serial (2 ^ 32 - 1) 1) :=
      ⟨by decide +kernel, by decide +kernel, by decide +kernel⟩
    have hend : be32 (logBlock superMap superDisk 7) 8 ≠ serial (2 ^ 32 - 1) 2 := by
      decide +kernel
    -- the log wraps after its first block, and so do the sequence numbers after its first
    -- transaction; it fills the journal, so that it ends where it began
    refine ⟨7, 7, .cons (.cons (.descriptor hdesc superDisk_tags) .nil) hcommit
      (.cons (.cons (.revoke hrevoke hrevokes) .nil) hcommit' .nil), .nil, ?_⟩
    exact fun h => h.elim fun _ hdr => hend hdr.1.seq

theorem superLog_wellFormed : WellFormed superMap 1024 superDisk superLog where
  blockSize := by decide
  mapped j hj := by
    have hmax : sMaxlen (logBlock superMap superDisk 0) = 8 := by decide +kernel
    unfold InJournal at hj
    unfold superMap
    omega
  distinct i j _ _ heq := by
    unfold superMap at heq
    omega
  stable _ _ _ _ := rfl
  magic := by decide +kernel
  noCsumV2 := by decide +kernel
  home w hw := by
    have hlow : w.2.1 < 100 := by
      have hall : ∀ b ∈ (writesFrom 0 superLog.committed).map fun w => w.2.1, b < 100 := by decide
      exact hall _ (List.mem_map_of_mem hw)
    refine ⟨by omega, ?_⟩
    intro j _
    unfold superMap
    omega
  placed := by
    have hseq : sSequence (logBlock superMap superDisk 0) = 2 ^ 32 - 1 := by decide +kernel
    have hstart : sStart (logBlock superMap superDisk 0) = 7 := by decide +kernel
    rw [superDisk_ctx, hseq, hstart]
    exact .inr ⟨by decide, superDisk_placed⟩

/-- The disk of a crash after recovery has written the logged superblock. -/
def crashedDisk : Disk := apply superDisk superLog.live

/-- Block 5 is replayed and block 6, which is revoked, is not; a crash and a second run change
    nothing. -/
theorem recover_replays_and_restarts_superLog :
    WellFormed superMap 1024 superDisk superLog ∧
    ∃ r r', Returns superMap 1024 ⟨superDisk, superBytes 9, false⟩ r ∧
      r.fs.disk 5 3 = 11 ∧ r.fs.disk 6 3 = 22 ∧
      Torn superDisk r.writes crashedDisk ∧
      Returns superMap 1024 ⟨crashedDisk, superBytes 9, false⟩ r' ∧ r'.fs.disk = r.fs.disk := by
  have h : WellFormed superMap 1024 (Ext2.mk superDisk (superBytes 9) false).disk superLog :=
    superLog_wellFormed
  obtain ⟨r, hret, hreplay, hrestart⟩ := recover_replays_and_restarts h
  have hwrites : r.writes = superLog.live := by
    obtain ⟨r₁, hret₁, hwrites, _⟩ := h.recover ⟨superDisk, superBytes 9, false⟩ (Torn.refl _ _)
    rw [hret.unique hret₁, hwrites]
  have htorn : Torn superDisk r.writes crashedDisk := by
    rw [hwrites]
    exact torn_apply _ fun _ hw => hw
  obtain ⟨r', hret', _, hsame⟩ := hrestart ⟨crashedDisk, superBytes 9, false⟩ htorn
  refine ⟨h, r, r', hret, ?_, ?_, htorn, hret', hsame rfl⟩
  · rw [hreplay 5 (by decide) 3 (by unfold InSuper; decide)]
    decide +kernel
  · rw [hreplay 6 (by decide) 3 (by unfold InSuper; decide)]
    decide +kernel

/-- Recovery writes the superblock that was read at mount over the one it has replayed.
    After a crash between the two the next mount reads the replayed one, and the disk
    ends up with another superblock than without the crash. -/
theorem recover_restart_changes_super :
    WellFormed superMap 1024 superDisk superLog ∧
    superDisk 1 = superBytes 9 ∧ crashedDisk 1 = superBytes 7 ∧
    ∃ r r', Returns superMap 1024 ⟨superDisk, superBytes 9, false⟩ r ∧
      Torn superDisk r.writes crashedDisk ∧
      Returns superMap 1024 ⟨crashedDisk, superBytes 7, false⟩ r' ∧
      r.fs.disk 1 12 = 9 ∧ r'.fs.disk 1 12 = 7 := by
  have htorn : Torn superDisk superLog.live crashedDisk := torn_apply _ fun _ hw => hw
  obtain ⟨r, hret, hwrites, hdisk⟩ :=
    superLog_wellFormed.recover ⟨superDisk, superBytes 9, false⟩ (Torn.refl _ _)
  obtain ⟨r', hret', _, hdisk'⟩ :=
    superLog_wellFormed.recover ⟨crashedDisk, superBytes 7, false⟩ htorn
  refine ⟨superLog_wellFormed, rfl, rfl, r, r', hret, ?_, hret', ?_, ?_⟩
  · rw [hwrites]
    exact htorn
  · rw [hdisk]
    decide +kernel
  · rw [hdisk']
    decide +kernel

end Cervus.Jbd2
