import Cervus.Fs.Jbd2Recovery
import Cervus.Framework.Iterate

/-! # Whether journal recovery ends

    The loop of `jbd2_pass` goes around the log until a block is not a header of the expected
    transaction. Only commit blocks change what is expected, so a log without a commit block on
    its way around is read for ever: one revoke block in a log of one block is enough
    (`revoke_block_spins`).

    Each header leads to the position of the next one and the sequence number expected there
    (`logNext`). The first pass ends exactly when no chain of headers from the start closes
    (`NoRing`): there are at most 2^32 log blocks, and a header belongs to one transaction only.
    The second pass reads the same blocks and stops earlier. The third one writes; it reads the
    same blocks too unless a tag that it replays names a block that the log is read from
    (`TagsApart`). -/

namespace Cervus.Jbd2

open Writes Iterate Option

/-! ## Section 1: One round -/

section

variable {bmap : Disk → Nat → Int} {c : JCtx} {endSeq fuel : Nat} {blk : Bytes} {r : Nat × Nat}
  {pass : Pass}

theorem wrapb_lt {b : Nat} (hb : b < 2 ^ 32) (first maxlen : Nat) :
    wrapb b first maxlen < 2 ^ 32 := by
  unfold wrapb
  split
  · exact u32_lt _
  · exact hb

/-- Where the tags of a descriptor block leave the position in the log. -/
def tagNext (c : JCtx) (blk : Bytes) : Nat → Nat → Nat → Nat
  | 0, _, p => p
  | fuel + 1, tagp, p =>
    if tagp + c.tagBytes ≤ c.blockSize then
      let tf := tagFlags blk tagp c.csum3
      let p := wrapb (u32 (p + 1)) c.first c.maxlen
      let tagp := tagp + c.tagBytes
      let tagp := if tf &&& flagSameUuid = 0 then tagp + 16 else tagp
      if tf &&& flagLastTag ≠ 0 then p else tagNext c blk fuel tagp p
    else p

/-- The block numbers in the tags. -/
def tagBlocks (c : JCtx) (blk : Bytes) : Nat → Nat → List Nat
  | 0, _ => []
  | fuel + 1, tagp =>
    if tagp + c.tagBytes ≤ c.blockSize then
      let tf := tagFlags blk tagp c.csum3
      let next := tagp + c.tagBytes
      let next := if tf &&& flagSameUuid = 0 then next + 16 else next
      tagBlock blk tagp c.is64 ::
        if tf &&& flagLastTag ≠ 0 then [] else tagBlocks c blk fuel next
    else []

/-- The block that is written for a tag. -/
def homeBlock (c : JCtx) (b : Nat) : Nat := u64 (b * c.blockSize) / c.blockSize

theorem tagNext_lt :
    ∀ {tagp p : Nat}, p < 2 ^ 32 → tagNext c blk fuel tagp p < 2 ^ 32 := by
  induction fuel with
  | zero => exact fun hp => hp
  | succ fuel ih =>
    intro tagp p hp
    have hwrap := wrapb_lt (u32_lt (p + 1)) c.first c.maxlen
    rw [tagNext]
    split
    · simp only
      split
      · exact hwrap
      · exact ih hwrap
    · exact hp

/-- What a round keeps on the side: the disk is what the writes have made of it. -/
structure Recorded (d : Disk) (s : PassState) : Prop where
  disk : s.disk = apply d s.writes

/-- What a tag, or a block of tags, does: it keeps the sequence number and the revoked blocks,
    and writes only home blocks that are not revoked. -/
structure TagStep (c : JCtx) (bs : List Nat) (s s' : PassState) : Prop where
  nextSeq  : s'.nextSeq = s.nextSeq
  rev      : s'.rev = s.rev
  recorded : ∀ d, Recorded d s → Recorded d s'
  writes   : ∀ w ∈ s'.writes, w ∈ s.writes ∨
    ∃ b ∈ bs, revTest s.rev b s.nextSeq = false ∧ w.1 = homeBlock c b

theorem TagStep.refl (bs : List Nat) (s : PassState) : TagStep c bs s s :=
  ⟨rfl, rfl, fun _ h => h, fun _ hw => .inl hw⟩

theorem TagStep.cons {b : Nat} {bs : List Nat} {s s1 s2 : PassState} (h1 : TagStep c [b] s s1)
    (h2 : TagStep c bs s1 s2) : TagStep c (b :: bs) s s2 where
  nextSeq := h2.nextSeq.trans h1.nextSeq
  rev := h2.rev.trans h1.rev
  recorded d hd := h2.recorded d (h1.recorded d hd)
  writes w hw := by
    rcases h2.writes w hw with hw | ⟨b', hb', hfree, heq⟩
    · rcases h1.writes w hw with hw | ⟨b', hb', hfree, heq⟩
      · exact .inl hw
      · rw [List.mem_singleton.mp hb'] at hfree heq
        exact .inr ⟨b, .head _, hfree, heq⟩
    · rw [h1.rev, h1.nextSeq] at hfree
      exact .inr ⟨b', .tail _ hb', hfree, heq⟩

theorem replayTag_step (bmap : Disk → Nat → Int) (c : JCtx) (s : PassState) (tf blocknr : Nat) :
    (replayTag bmap c s tf blocknr).nextLog = s.nextLog ∧
    TagStep c [blocknr] s (replayTag bmap c s tf blocknr) := by
  unfold replayTag
  split
  · exact ⟨rfl, .refl _ _⟩
  split
  · exact ⟨rfl, .refl _ _⟩
  next hfree =>
    refine ⟨rfl, rfl, rfl, fun d h => ⟨?_⟩, fun w hw => ?_⟩
    · simp only [apply_append, ← h.disk]
      rfl
    · rcases List.mem_append.mp hw with hw | hw
      · exact .inl hw
      · rw [List.mem_singleton.mp hw]
        exact .inr ⟨blocknr, .head _, Bool.not_eq_true _ ▸ hfree, rfl⟩

/-- The tags move the position; in the last pass they also write. -/
theorem tagLoop_frame (bmap : Disk → Nat → Int) (c : JCtx) (pass : Pass) (blk : Bytes)
    (fuel : Nat) :
    ∀ (tagp : Nat) (s : PassState),
      (tagLoop bmap c pass blk fuel tagp s).nextLog = tagNext c blk fuel tagp s.nextLog ∧
      TagStep c (tagBlocks c blk fuel tagp) s (tagLoop bmap c pass blk fuel tagp s) ∧
      (pass ≠ .replay → (tagLoop bmap c pass blk fuel tagp s).disk = s.disk ∧
        (tagLoop bmap c pass blk fuel tagp s).writes = s.writes) := by
  induction fuel with
  | zero => exact fun _ s => ⟨rfl, .refl _ s, fun _ => ⟨rfl, rfl⟩⟩
  | succ fuel ih =>
    intro tagp s
    rw [tagLoop, tagNext, tagBlocks]
    split
    · -- the tag itself, and then the rest of the block
      have htag : ∃ s', (if pass = .replay then replayTag bmap c s (tagFlags blk tagp c.csum3)
            (tagBlock blk tagp c.is64) else s) = s' ∧ s'.nextLog = s.nextLog ∧
          TagStep c [tagBlock blk tagp c.is64] s s' ∧
          (pass ≠ .replay → s'.disk = s.disk ∧ s'.writes = s.writes) := by
        by_cases hpass : pass = .replay
        · obtain ⟨hlog, htag⟩ := replayTag_step bmap c s (tagFlags blk tagp c.csum3)
            (tagBlock blk tagp c.is64)
          exact ⟨_, if_pos hpass, hlog, htag, fun h => absurd hpass h⟩
        · exact ⟨s, if_neg hpass, rfl, .refl _ s, fun _ => ⟨rfl, rfl⟩⟩
      obtain ⟨s', hs', hlog, htag, hkeep⟩ := htag
      simp only [hs', hlog]
      split
      · exact ⟨rfl, ⟨htag.nextSeq, htag.rev, fun d h => ⟨(htag.recorded d h).disk⟩, htag.writes⟩,
          hkeep⟩
      obtain ⟨hlog', htag', hkeep'⟩ := ih _
        { s' with nextLog := wrapb (u32 (s.nextLog + 1)) c.first c.maxlen }
      refine ⟨hlog', TagStep.cons ?_ htag', fun h => ?_⟩
      · exact ⟨htag.nextSeq, htag.rev, fun d h => ⟨(htag.recorded d h).disk⟩, htag.writes⟩
      · exact ⟨(hkeep' h).1.trans (hkeep h).1, (hkeep' h).2.trans (hkeep h).2⟩
    · exact ⟨rfl, .refl _ s, fun _ => ⟨rfl, rfl⟩⟩

/-- Where a header of a transaction leads: the next position and sequence number. -/
def headerNext (c : JCtx) (blk : Bytes) (p seq : Nat) : Option (Nat × Nat) :=
  if be32 blk 0 ≠ jbd2MagicNumber then none
  else if be32 blk 8 ≠ seq then none
  else
    let p := wrapb (u32 (p + 1)) c.first c.maxlen
    if be32 blk 4 = descriptorBlock then some (tagNext c blk c.blockSize headerSize p, seq)
    else if be32 blk 4 = commitBlock then some (p, u32 (seq + 1))
    else if be32 blk 4 = revokeBlock then some (p, seq)
    else none

/-- Where the log of a disk leads from a position and the sequence number expected there. -/
def logNext (bmap : Disk → Nat → Int) (c : JCtx) (d : Disk) (x : Nat × Nat) : Option (Nat × Nat) :=
  (jbd2ReadLog bmap d x.1).bind fun blk => headerNext c blk x.1 x.2

/-- The position of a pass in the log. -/
def PassState.at (s : PassState) : Nat × Nat := (s.nextLog, s.nextSeq)

/-- **What a round does.** It goes on from a header of the expected transaction, to where that
    leads. Only the second pass adds to the revoked blocks. Only the last one writes, to the home
    blocks of tags that are not revoked. -/
structure Round (bmap : Disk → Nat → Int) (c : JCtx) (pass : Pass) (endSeq : Nat)
    (s s' : PassState) : Prop where
  before   : pass ≠ .scan → tidGeq s.nextSeq endSeq = false
  next     : logNext bmap c s.disk s.at = some s'.at
  recorded : ∀ d, Recorded d s → Recorded d s'
  kept     : pass ≠ .replay → s'.disk = s.disk ∧ s'.writes = s.writes
  rev      : pass ≠ .revoke → s'.rev = s.rev
  writes   : ∀ w ∈ s'.writes, w ∈ s.writes ∨ ∃ blk, jbd2ReadLog bmap s.disk s.nextLog = some blk ∧
    Header blk descriptorBlock s.nextSeq ∧ ∃ b ∈ tagBlocks c blk c.blockSize headerSize,
      revTest s.rev b s.nextSeq = false ∧ w.1 = homeBlock c b

theorem passStep_some {s s' : PassState}
    (h : passStep bmap c pass endSeq s = some s') : Round bmap c pass endSeq s s' := by
  unfold passStep at h
  split at h
  · cases h
  next hstop =>
  split at h
  · cases h
  next blk hread =>
  split at h
  · cases h
  next hmagic =>
  split at h
  · cases h
  next hseq =>
  have hbefore : pass ≠ .scan → tidGeq s.nextSeq endSeq = false := fun hpass =>
    Bool.not_eq_true _ ▸ fun hgeq => hstop ⟨hpass, hgeq⟩
  have hnext : logNext bmap c s.disk s.at = headerNext c blk s.nextLog s.nextSeq := by
    simp only [logNext, PassState.at, hread, bind_some]
  simp only at h
  split at h
  · next hdesc =>
    obtain rfl := some.inj h
    obtain ⟨hlog, htag, hkeep⟩ := tagLoop_frame bmap c pass blk c.blockSize headerSize
      { s with nextLog := wrapb (u32 (s.nextLog + 1)) c.first c.maxlen }
    refine ⟨hbefore, ?_, fun d hd => htag.recorded d ⟨hd.disk⟩, hkeep, fun _ => htag.rev,
      fun w hw => ?_⟩
    · rw [hnext]
      simp only [headerNext, if_neg hmagic, if_neg hseq, if_pos hdesc, PassState.at, hlog,
        htag.nextSeq]
    · rcases htag.writes w hw with hw | hw
      · exact .inl hw
      · exact .inr ⟨blk, hread, ⟨not_not.mp hmagic, hdesc, not_not.mp hseq⟩, hw⟩
  next hdesc =>
  split at h
  · next hcommit =>
    obtain rfl := some.inj h
    refine ⟨hbefore, ?_, fun d hd => ⟨hd.disk⟩, fun _ => ⟨rfl, rfl⟩, fun _ => rfl,
      fun w hw => .inl hw⟩
    rw [hnext]
    simp only [headerNext, if_neg hmagic, if_neg hseq, if_neg hdesc, if_pos hcommit, PassState.at]
  next hcommit =>
  split at h
  · next hrevoke =>
    have hnext' : logNext bmap c s.disk s.at =
        some (wrapb (u32 (s.nextLog + 1)) c.first c.maxlen, s.nextSeq) := by
      simp only [hnext, headerNext, if_neg hmagic, if_neg hseq, if_neg hdesc, if_neg hcommit,
        if_pos hrevoke]
    split at h
    · next hpass =>
      obtain rfl := some.inj h
      exact ⟨hbefore, hnext', fun d hd => ⟨hd.disk⟩, fun _ => ⟨rfl, rfl⟩,
        fun hne => absurd hpass hne, fun w hw => .inl hw⟩
    · obtain rfl := some.inj h
      exact ⟨hbefore, hnext', fun d hd => ⟨hd.disk⟩, fun _ => ⟨rfl, rfl⟩, fun _ => rfl,
        fun w hw => .inl hw⟩
  · cases h

/-- The first pass goes on from every header. -/
theorem passStep_scan {s : PassState} (hnext : logNext bmap c s.disk s.at = some r) :
    ∃ s', passStep bmap c .scan endSeq s = some s' ∧ s'.at = r := by
  obtain ⟨blk, hread, hheader⟩ := bind_eq_some_iff.mp hnext
  have hgo : (passStep bmap c .scan endSeq s).isSome := by
    unfold headerNext at hheader
    simp only [PassState.at] at hread hheader
    unfold passStep
    grind
  obtain ⟨s', hs'⟩ := isSome_iff_exists.mp hgo
  have hnext' := (passStep_some hs').next
  rw [hnext] at hnext'
  exact ⟨s', hs', (some.inj hnext').symm⟩

theorem headerNext_seq {p seq : Nat}
    (h : headerNext c blk p seq = some r) : seq = be32 blk 8 := by
  unfold headerNext at h
  split at h
  · cases h
  · split at h
    · cases h
    · next hseq => exact (not_not.mp hseq).symm

theorem headerNext_lt {p seq : Nat}
    (h : headerNext c blk p seq = some r) : r.1 < 2 ^ 32 := by
  have hwrap := wrapb_lt (u32_lt (p + 1)) c.first c.maxlen
  unfold headerNext at h
  split at h
  · cases h
  split at h
  · cases h
  split at h
  · obtain rfl := some.inj h
    exact tagNext_lt hwrap
  split at h
  · obtain rfl := some.inj h
    exact hwrap
  split at h
  · obtain rfl := some.inj h
    exact hwrap
  · cases h

/-! ## Section 2: The passes -/

/-- The state a pass starts in. -/
def passStart (jsb : Bytes) (rev : List RevokeEnt) (d : Disk) : PassState :=
  ⟨sStart jsb, sSequence jsb, rev, d, []⟩

theorem passLoop_eq_loop :
    ∀ s, passLoop bmap c pass endSeq fuel s = loop (passStep bmap c pass endSeq) fuel s := by
  induction fuel with
  | zero => exact fun _ => rfl
  | succ fuel ih =>
    intro s
    rw [passLoop, loop]
    cases passStep bmap c pass endSeq s with
    | none => rfl
    | some s' => exact ih s'

end

section

variable (bmap : Disk → Nat → Int) (bs : Nat) (jsb : Bytes)

/-- A pass of `jbd2_recover`, for the journal superblock `jsb`, ends. -/
def PassEnds (pass : Pass) (endSeq : Nat) (rev : List RevokeEnt) (d : Disk) : Prop :=
  ∃ fuel s, jbd2Pass bmap fuel (jctxOf bs jsb) pass (sStart jsb) (sSequence jsb) endSeq rev d =
    some s

/-- No chain of headers of the log closes, from the start on. -/
def NoRing (d : Disk) : Prop :=
  ¬ ∃ x, Relation.ReflTransGen (fun x y => logNext bmap (jctxOf bs jsb) d x = some y)
      (sStart jsb, sSequence jsb) x ∧
    Relation.TransGen (fun x y => logNext bmap (jctxOf bs jsb) d x = some y) x x

/-- The log of a disk is read from the blocks `B`: the log blocks, and the blocks that say where
    they are. -/
def LogIn (d : Disk) (B : Set Nat) : Prop :=
  ∀ d', (∀ b ∈ B, d' b = d b) → ∀ p, jbd2ReadLog bmap d' p = jbd2ReadLog bmap d p

/-- The positions of the headers before `end_seq`. -/
def Before (endSeq : Nat) (d : Disk) : Nat × Nat → Prop :=
  Relation.ReflTransGen (fun x y => tidGeq x.2 endSeq = false ∧
    logNext bmap (jctxOf bs jsb) d x = some y) (sStart jsb, sSequence jsb)

/-- No tag before `end_seq` names a block that the log is read from, unless it is revoked. -/
def TagsApart (endSeq : Nat) (rev : List RevokeEnt) (d : Disk) : Prop :=
  ∃ B, LogIn bmap d B ∧ ∀ x blk, Before bmap bs jsb endSeq d x → tidGeq x.2 endSeq = false →
    jbd2ReadLog bmap d x.1 = some blk → Header blk descriptorBlock x.2 →
    ∀ b ∈ tagBlocks (jctxOf bs jsb) blk bs headerSize, revTest rev b x.2 = false →
      homeBlock (jctxOf bs jsb) b ∉ B

variable {bmap bs jsb} {rev : List RevokeEnt} {d : Disk} {k : Nat}

theorem passEnds_iff {pass : Pass} {endSeq : Nat} :
    PassEnds bmap bs jsb pass endSeq rev d ↔
      Ends (passStep bmap (jctxOf bs jsb) pass endSeq) (passStart jsb rev d) := by
  unfold PassEnds jbd2Pass Ends
  simp only [passLoop_eq_loop]
  exact Iff.rfl

/-! ### The first pass -/

/-- What every state of the first pass has. -/
structure Scanning (d : Disk) (s : PassState) : Prop where
  bound  : s.nextLog < 2 ^ 32
  disk   : s.disk = d
  writes : s.writes = []
  rev    : s.rev = []

theorem Scanning.step {a b : PassState} (ha : Scanning d a)
    (hstep : passStep bmap (jctxOf bs jsb) .scan 0 a = some b) :
    Scanning d b ∧ logNext bmap (jctxOf bs jsb) d a.at = some b.at := by
  have hround := passStep_some hstep
  have hnext := hround.next
  obtain ⟨hdisk, hwrites⟩ := hround.kept (by simp)
  obtain ⟨blk, -, hheader⟩ := bind_eq_some_iff.mp hnext
  refine ⟨⟨headerNext_lt hheader, hdisk.trans ha.disk, hwrites.trans ha.writes,
    (hround.rev (by simp)).trans ha.rev⟩, ?_⟩
  rw [← ha.disk]
  exact hnext

theorem scanning_after :
    ∀ s, after (passStep bmap (jctxOf bs jsb) .scan 0) (passStart jsb [] d) k = some s →
      Scanning d s := by
  induction k with
  | zero =>
    intro s h
    obtain rfl := some.inj h
    exact ⟨be32_lt _ _, rfl, rfl, rfl⟩
  | succ k ih =>
    intro s h
    obtain ⟨s', hs', hstep⟩ := bind_eq_some_iff.mp h
    exact ((ih s' hs').step hstep).1

/-- States of the first pass are given by their position. -/
theorem Scanning.ext {a b : PassState} (ha : Scanning d a) (hb : Scanning d b)
    (heq : a.at = b.at) : a = b := by
  obtain ⟨la, sa, ra, da, wa⟩ := a
  obtain ⟨lb, sb, rb, db, wb⟩ := b
  obtain ⟨rfl, rfl⟩ := Prod.mk.inj heq
  obtain rfl : da = db := ha.disk.trans hb.disk.symm
  obtain rfl : wa = wb := ha.writes.trans hb.writes.symm
  obtain rfl : ra = rb := ha.rev.trans hb.rev.symm
  rfl

/-- A log block that is passed again is passed in the same state. -/
theorem scan_state_of_position {a b : PassState} (ha : Scanning d a)
    (hb : Scanning d b) (hfa : (passStep bmap (jctxOf bs jsb) .scan 0 a).isSome)
    (hfb : (passStep bmap (jctxOf bs jsb) .scan 0 b).isSome) (heq : a.nextLog = b.nextLog) :
    a = b := by
  obtain ⟨a', ha'⟩ := isSome_iff_exists.mp hfa
  obtain ⟨b', hb'⟩ := isSome_iff_exists.mp hfb
  obtain ⟨blk, hread, hnext⟩ := bind_eq_some_iff.mp (ha.step ha').2
  obtain ⟨blk', hread', hnext'⟩ := bind_eq_some_iff.mp (hb.step hb').2
  have hblk : blk = blk' := by
    simp only [PassState.at, heq] at hread hread'
    exact some.inj (hread.symm.trans hread')
  -- the header names one transaction
  have hseq : a.nextSeq = b.nextSeq := by
    rw [hblk] at hnext
    exact (headerNext_seq hnext).trans (headerNext_seq hnext').symm
  exact ha.ext hb (Prod.ext heq hseq)

/-- The first pass follows the headers, from one of its states to a later one. -/
theorem scan_chain {a b : PassState} {i n : Nat}
    (ha : after (passStep bmap (jctxOf bs jsb) .scan 0) (passStart jsb [] d) i = some a)
    (hb : after (passStep bmap (jctxOf bs jsb) .scan 0) (passStart jsb [] d) (i + n) = some b) :
    Relation.ReflTransGen (fun x y => logNext bmap (jctxOf bs jsb) d x = some y) a.at b.at := by
  induction n generalizing b with
  | zero =>
    cases ha.symm.trans hb
    exact .refl
  | succ n ih =>
    obtain ⟨b', hb', hstep⟩ := bind_eq_some_iff.mp hb
    exact (ih hb').tail ((scanning_after b' hb').step hstep).2

/-- It follows them as far as they go. -/
theorem scan_follows {a : PassState} {i : Nat} {x y : Nat × Nat}
    (ha : after (passStep bmap (jctxOf bs jsb) .scan 0) (passStart jsb [] d) i = some a)
    (hx : a.at = x)
    (h : Relation.ReflTransGen (fun x y => logNext bmap (jctxOf bs jsb) d x = some y) x y) :
    ∃ n b, after (passStep bmap (jctxOf bs jsb) .scan 0) (passStart jsb [] d) (i + n) = some b ∧
      b.at = y := by
  induction h with
  | refl => exact ⟨0, a, ha, hx⟩
  | tail _ hnext ih =>
    obtain ⟨n, b, hb, rfl⟩ := ih
    rw [← (scanning_after b hb).disk] at hnext
    obtain ⟨c, hc, rfl⟩ := passStep_scan hnext
    exact ⟨n + 1, c, by rw [← Nat.add_assoc, after, hb]; exact hc, rfl⟩

/-- The first pass ends exactly when no chain of headers closes. -/
theorem scan_ends_iff : PassEnds bmap bs jsb .scan 0 [] d ↔ NoRing bmap bs jsb d := by
  rw [passEnds_iff]
  constructor
  · rintro hends ⟨x, hreach, hring⟩
    obtain ⟨i, a, ha, hax⟩ := scan_follows (i := 0) rfl rfl hreach
    obtain ⟨y, hxy, hyx⟩ := Relation.TransGen.head'_iff.mp hring
    -- once around the ring, in at least one round
    rw [← hax, ← (scanning_after a ha).disk] at hxy
    obtain ⟨c, hc, hcy⟩ := passStep_scan hxy
    obtain ⟨n, b, hb, hbx⟩ := scan_follows (i := 0 + i + 1) (by rw [after, ha]; exact hc) hcy hyx
    obtain rfl := (scanning_after a ha).ext (scanning_after b hb) (hax.trans hbx.symm)
    exact not_ends_of_repeat (by omega) ha hb hends
  · intro hring
    refine ends_of_no_repeat (2 ^ 32) (fun k a ha => (scanning_after a ha).bound)
      fun i j a b hij ha hb hfa hfb heq => ?_
    obtain rfl := scan_state_of_position (scanning_after a ha) (scanning_after b hb) hfa hfb heq
    obtain ⟨n, rfl⟩ := Nat.exists_eq_add_of_lt hij
    obtain ⟨b, hb', hstep⟩ := bind_eq_some_iff.mp hb
    refine hring ⟨a.at, scan_chain (i := 0) rfl (by rw [Nat.zero_add]; exact ha), ?_⟩
    exact .tail' (scan_chain ha hb') ((scanning_after b hb').step hstep).2

/-! ### The later passes -/

/-- A later pass goes on only from headers the first one goes on from. -/
theorem later_pass_ends {pass : Pass} {endSeq : Nat} (hring : NoRing bmap bs jsb d)
    (hread : ∀ k s, after (passStep bmap (jctxOf bs jsb) pass endSeq) (passStart jsb rev d) k =
      some s → ∀ p, jbd2ReadLog bmap s.disk p = jbd2ReadLog bmap d p) :
    PassEnds bmap bs jsb pass endSeq rev d := by
  have hscan := scan_ends_iff.mpr hring
  rw [passEnds_iff] at hscan ⊢
  refine ends_of_simulation (fun a b => a.at = b.at ∧ a.disk = d ∧
    ∃ k, after (passStep bmap (jctxOf bs jsb) pass endSeq) (passStart jsb rev d) k = some b)
    ?_ ⟨rfl, rfl, 0, rfl⟩ hscan
  rintro a b b' ⟨hat, hdisk, k, hk⟩ hstep
  have hnext := (passStep_some hstep).next
  have hsame : logNext bmap (jctxOf bs jsb) a.disk a.at = some b'.at := by
    rw [← hnext, hat, hdisk]
    simp only [logNext, hread k b hk]
  obtain ⟨a', ha', hat'⟩ := passStep_scan hsame
  refine ⟨a', ha', hat', ?_, k + 1, by rw [after, hk]; exact hstep⟩
  exact ((passStep_some ha').kept (by simp)).1.trans hdisk

theorem disk_after_revoke {endSeq : Nat} :
    ∀ s, after (passStep bmap (jctxOf bs jsb) .revoke endSeq) (passStart jsb rev d) k = some s →
      s.disk = d := by
  induction k with
  | zero =>
    intro s h
    obtain rfl := some.inj h
    rfl
  | succ k ih =>
    intro s h
    obtain ⟨s', hs', hstep⟩ := bind_eq_some_iff.mp h
    exact ((passStep_some hstep).kept (by simp)).1.trans (ih s' hs')

/-- What every state of the last pass has, when it writes to none of the blocks `B`. -/
structure Replaying (bmap : Disk → Nat → Int) (bs : Nat) (jsb : Bytes) (endSeq : Nat)
    (rev : List RevokeEnt) (d : Disk) (B : Set Nat) (s : PassState) : Prop where
  before   : Before bmap bs jsb endSeq d s.at
  rev      : s.rev = rev
  recorded : Recorded d s
  apart    : ∀ w ∈ s.writes, w.1 ∉ B

theorem Replaying.read {endSeq : Nat} {B : Set Nat} {s : PassState} (hB : LogIn bmap d B)
    (h : Replaying bmap bs jsb endSeq rev d B s) (p : Nat) :
    jbd2ReadLog bmap s.disk p = jbd2ReadLog bmap d p := by
  refine hB _ (fun b hb => ?_) p
  rw [h.recorded.disk]
  exact apply_of_not_mem fun w hw heq => h.apart w hw (heq ▸ hb)

theorem replaying_after {endSeq : Nat} {B : Set Nat} (hB : LogIn bmap d B)
    (hapart : ∀ x blk, Before bmap bs jsb endSeq d x → tidGeq x.2 endSeq = false →
      jbd2ReadLog bmap d x.1 = some blk → Header blk descriptorBlock x.2 →
      ∀ b ∈ tagBlocks (jctxOf bs jsb) blk bs headerSize, revTest rev b x.2 = false →
        homeBlock (jctxOf bs jsb) b ∉ B) :
    ∀ s, after (passStep bmap (jctxOf bs jsb) .replay endSeq) (passStart jsb rev d) k = some s →
      Replaying bmap bs jsb endSeq rev d B s := by
  induction k with
  | zero =>
    intro s h
    obtain rfl := some.inj h
    exact ⟨.refl, rfl, ⟨rfl⟩, nofun⟩
  | succ k ih =>
    intro s h
    obtain ⟨s', hs', hstep⟩ := bind_eq_some_iff.mp h
    have hs := ih s' hs'
    have hround := passStep_some hstep
    have hbefore := hround.before (by simp)
    have hnext : logNext bmap (jctxOf bs jsb) d s'.at = some s.at := by
      rw [← hround.next]
      simp only [logNext, hs.read hB]
    refine ⟨hs.before.tail ⟨hbefore, hnext⟩, (hround.rev (by simp)).trans hs.rev,
      hround.recorded d hs.recorded, fun w hw => ?_⟩
    rcases hround.writes w hw with hw | ⟨blk, hread, hdr, b, hb, hfree, heq⟩
    · exact hs.apart w hw
    · rw [hs.read hB] at hread
      rw [hs.rev] at hfree
      rw [heq]
      exact hapart s'.at blk hs.before hbefore hread hdr b hb hfree

/-- **Whether recovery ends.** The first pass ends exactly when no chain of headers of the log
    closes. Then the second one ends too, and so does the third if no tag that it replays names a
    block that the log is read from. -/
theorem recovery_passes_end (bmap : Disk → Nat → Int) (bs : Nat) (jsb : Bytes) (d : Disk) :
    (PassEnds bmap bs jsb .scan 0 [] d ↔ NoRing bmap bs jsb d) ∧
    (NoRing bmap bs jsb d → ∀ endSeq rev, PassEnds bmap bs jsb .revoke endSeq rev d) ∧
    (NoRing bmap bs jsb d → ∀ endSeq rev, TagsApart bmap bs jsb endSeq rev d →
      PassEnds bmap bs jsb .replay endSeq rev d) := by
  refine ⟨scan_ends_iff, fun hring endSeq rev => ?_, ?_⟩
  · refine later_pass_ends hring fun k s hs p => ?_
    rw [disk_after_revoke s hs]
  · rintro hring endSeq rev ⟨B, hB, hapart⟩
    exact later_pass_ends hring fun k s hs p => (replaying_after hB hapart s hs).read hB p

end

/-- The positions of the headers of `superDisk`, and where they end. -/
def superChain : List (Nat × Nat) := [(7, 2 ^ 32 - 1), (4, 2 ^ 32 - 1), (5, 0), (6, 0), (7, 1)]

theorem before_superDisk {x : Nat × Nat} (h : Before superMap 1024 (superDisk 100) 1 superDisk x) :
    x ∈ superChain := by
  have hnext : ∀ x ∈ superChain,
      ∀ y ∈ logNext superMap (jctxOf 1024 (superDisk 100)) superDisk x, y ∈ superChain := by
    decide +kernel
  unfold Before at h
  induction h with
  | refl => decide +kernel
  | tail _ hxy ih => exact hnext _ ih _ hxy.2

/-- The home blocks of `superDisk` lie below the journal. -/
theorem superDisk_tagsApart :
    TagsApart superMap 1024 (superDisk 100) 1 [⟨6, 0⟩] superDisk := by
  refine ⟨{b | 100 ≤ b}, fun d' hd' p => ?_, fun x blk hx _ hread _ b hb _ => ?_⟩
  · unfold jbd2ReadLog superMap
    simp only
    rw [hd' (100 + p : Int).toNat (show 100 ≤ (100 + p : Int).toNat by omega)]
  · have htags : ∀ x ∈ superChain, ∀ blk ∈ jbd2ReadLog superMap superDisk x.1,
        ∀ b ∈ tagBlocks (jctxOf 1024 (superDisk 100)) blk 1024 headerSize,
          homeBlock (jctxOf 1024 (superDisk 100)) b < 100 := by
      decide +kernel
    exact Nat.not_le.mpr (htags x (before_superDisk hx) blk hread b hb)

/-- The passes over `superDisk`, whose log wraps and revokes a block, end. -/
theorem superDisk_passes_end :
    NoRing superMap 1024 (superDisk 100) superDisk ∧
    PassEnds superMap 1024 (superDisk 100) .revoke 1 [] superDisk ∧
    PassEnds superMap 1024 (superDisk 100) .replay 1 [⟨6, 0⟩] superDisk := by
  obtain ⟨hscan, hrevoke, hreplay⟩ := recovery_passes_end superMap 1024 (superDisk 100) superDisk
  have hends : (jbd2Pass superMap 5 (jctxOf 1024 (superDisk 100)) .scan (sStart (superDisk 100))
      (sSequence (superDisk 100)) 0 [] superDisk).isSome = true := by decide +kernel
  obtain ⟨s, hs⟩ := isSome_iff_exists.mp hends
  have hring := hscan.mp ⟨5, s, hs⟩
  exact ⟨hring, hrevoke hring 1 [], hreplay hring 1 [⟨6, 0⟩] superDisk_tagsApart⟩

/-! ## Section 3: Logs that are read for ever -/

/-- A journal of two blocks, the superblock and one log block: a revoke block of the first
    transaction. -/
def spinDisk : Disk := fun b =>
  match b with
  | 100 => wordBlock [jbd2MagicNumber, 4, 0, 1024, 2, 1, 1, 1, 0, 0, 1]
  | 101 => wordBlock [jbd2MagicNumber, revokeBlock, 1, 16]
  | _ => fun _ => 0

/-- A journal with a log of three blocks: a descriptor block with one tag, for the third of
    them, the copy, which begins like a revoke block, and a commit block. -/
def selfDisk : Disk := fun b =>
  match b with
  | 100 => wordBlock [jbd2MagicNumber, 4, 0, 1024, 4, 1, 1, 1, 0, 0, 1]
  | 101 => wordBlock [jbd2MagicNumber, descriptorBlock, 1, 103, flagLastTag]
  | 102 => wordBlock [jbd2MagicNumber, revokeBlock, 1, 16]
  | 103 => wordBlock [jbd2MagicNumber, commitBlock, 1]
  | _ => fun _ => 0

theorem spinDisk_scan : ¬ PassEnds superMap 1024 (spinDisk 100) .scan 0 [] spinDisk := by
  have hfirst : sFirst (spinDisk 100) = 1 := by decide +kernel
  have hmax : sMaxlen (spinDisk 100) = 2 := by decide +kernel
  have hstart : sStart (spinDisk 100) = 1 := by decide +kernel
  have hseq : sSequence (spinDisk 100) = 1 := by decide +kernel
  rw [passEnds_iff]
  refine not_ends_of_invariant (· = passStart (spinDisk 100) [] spinDisk) rfl ?_
  rintro _ rfl
  refine ⟨_, ?_, rfl⟩
  have hread : jbd2ReadLog superMap spinDisk 1 = some (spinDisk 101) := rfl
  have hmagic : be32 (spinDisk 101) 0 = jbd2MagicNumber := by decide +kernel
  have htype : be32 (spinDisk 101) 4 = revokeBlock := by decide +kernel
  have hhdr : be32 (spinDisk 101) 8 = 1 := by decide +kernel
  have hwrap : wrapb (u32 (1 + 1)) 1 2 = 1 := by decide +kernel
  simp only [passStep, passStart, hstart, hseq, hread, hmagic, htype, hhdr, jctxOf, hfirst, hmax,
    hwrap]
  simp [descriptorBlock, commitBlock, revokeBlock]

/-- The states of the last pass over `selfDisk`: before the descriptor block, or before the third
    block, which then holds the copy. -/
structure SelfReplay (s : PassState) : Prop where
  seq   : s.nextSeq = 1
  rev   : s.rev = []
  desc  : s.disk 101 = selfDisk 101
  copy  : s.disk 102 = selfDisk 102
  place : s.nextLog = 1 ∨ s.nextLog = 3 ∧ s.disk 103 = selfDisk 102

theorem selfDisk_ctx : jctxOf 1024 (selfDisk 100) = ⟨1024, 1, 4, 8, false, false⟩ := by
  have hfirst : sFirst (selfDisk 100) = 1 := by decide +kernel
  have hmax : sMaxlen (selfDisk 100) = 4 := by decide +kernel
  have hincompat : sFeatureIncompat (selfDisk 100) = 1 := by decide +kernel
  unfold jctxOf
  rw [hfirst, hmax, hincompat]
  rfl

theorem superMap_read (d : Disk) (p : Nat) : jbd2ReadLog superMap d p = some (d (100 + p)) := by
  have hpos : ¬ (100 + p : Int) ≤ 0 := by omega
  have hnat : (100 + p : Int).toNat = 100 + p := by omega
  unfold jbd2ReadLog superMap
  simp only [hpos, if_false, hnat]

theorem SelfReplay.step {s : PassState} (h : SelfReplay s) :
    ∃ s', passStep superMap (jctxOf 1024 (selfDisk 100)) .replay 2 s = some s' ∧ SelfReplay s' := by
  rw [selfDisk_ctx]
  obtain ⟨log, seq, rev, disk, writes⟩ := s
  obtain ⟨rfl, rfl, hdesc, hcopy, hplace⟩ := h
  have hgeq : tidGeq 1 2 = false := by decide
  simp only at hdesc hcopy hplace
  rcases hplace with rfl | ⟨rfl, hthird⟩
  · -- the copy goes over the commit block
    have hmagic : be32 (selfDisk 101) 0 = jbd2MagicNumber := by decide +kernel
    have htype : be32 (selfDisk 101) 4 = descriptorBlock := by decide +kernel
    have hhdr : be32 (selfDisk 101) 8 = 1 := by decide +kernel
    have hflags : tagFlags (selfDisk 101) headerSize false = 8 := by decide +kernel
    have hblock : tagBlock (selfDisk 101) headerSize false = 103 := by decide +kernel
    have hwrap : wrapb (u32 (1 + 1)) 1 4 = 2 ∧ wrapb (u32 (2 + 1)) 1 4 = 3 := by decide +kernel
    have htag : tagLoop superMap ⟨1024, 1, 4, 8, false, false⟩ .replay (selfDisk 101) (1023 + 1)
        headerSize ⟨2, 1, [], disk, writes⟩ =
        ⟨3, 1, [], Function.update disk 103 (selfDisk 102), writes ++ [(103, selfDisk 102)]⟩ := by
      rw [tagLoop]
      simp only [hflags, hblock, replayTag, superMap_read, hcopy]
      simpa [headerSize, revTest, flagEscape, flagLastTag, u64] using hwrap.2
    refine ⟨⟨3, 1, [], Function.update disk 103 (selfDisk 102), writes ++ [(103, selfDisk 102)]⟩,
      ?_, rfl, rfl, ?_, ?_, .inr ⟨rfl, Function.update_self 103 (selfDisk 102) disk⟩⟩
    · rw [← htag]
      simp [passStep, hgeq, superMap_read, hdesc, hmagic, htype, hhdr, hwrap.1]
    · exact (Function.update_of_ne (show 101 ≠ 103 by decide) (selfDisk 102) disk).trans hdesc
    · exact (Function.update_of_ne (show 102 ≠ 103 by decide) (selfDisk 102) disk).trans hcopy
  · -- and the log goes on from there as from a revoke block, back to its start
    have hmagic : be32 (selfDisk 102) 0 = jbd2MagicNumber := by decide +kernel
    have htype : be32 (selfDisk 102) 4 = revokeBlock := by decide +kernel
    have hhdr : be32 (selfDisk 102) 8 = 1 := by decide +kernel
    have hwrap : wrapb (u32 (3 + 1)) 1 4 = 1 := by decide +kernel
    refine ⟨⟨1, 1, [], disk, writes⟩, ?_, rfl, rfl, hdesc, hcopy, .inl rfl⟩
    simp only [passStep, hgeq, superMap_read, hthird, hmagic, htype, hhdr, hwrap]
    simp [descriptorBlock, commitBlock, revokeBlock]

/-- **Two logs that are read for ever.** The only block of the first is passed again and again.
    The second one is read to its end by the first pass, but the third pass replays a tag that
    names a block of the log. -/
theorem revoke_block_spins :
    (jbd2ReadLog superMap spinDisk 0 = some (spinDisk 100) ∧
      be32 (spinDisk 100) 0 = jbd2MagicNumber ∧ sStart (spinDisk 100) ≠ 0 ∧
      ¬ PassEnds superMap 1024 (spinDisk 100) .scan 0 [] spinDisk) ∧
    (jbd2Pass superMap 3 (jctxOf 1024 (selfDisk 100)) .scan (sStart (selfDisk 100))
        (sSequence (selfDisk 100)) 0 [] selfDisk).map PassState.nextSeq = some 2 ∧
    ¬ PassEnds superMap 1024 (selfDisk 100) .replay 2 [] selfDisk := by
  refine ⟨⟨rfl, by decide +kernel, by decide +kernel, spinDisk_scan⟩, by decide +kernel, ?_⟩
  rw [passEnds_iff]
  have hstart : sStart (selfDisk 100) = 1 := by decide +kernel
  have hseq : sSequence (selfDisk 100) = 1 := by decide +kernel
  exact not_ends_of_invariant SelfReplay ⟨hseq, rfl, rfl, rfl, .inl hstart⟩ fun _ => SelfReplay.step

end Cervus.Jbd2
