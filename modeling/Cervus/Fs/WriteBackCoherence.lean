import Cervus.Framework.System
import Cervus.Fs.WriteBack
import Mathlib.Algebra.BigOperators.Group.Finset.Piecewise
import Mathlib.Data.Fintype.Card
import Mathlib.Data.List.Sort

/-! # The block cache is transparent

    The logical block map of a device with a cache has, for every block, the buffer of
    its slot or else what is on the device. The cache is coherent when no block has two
    slots, clean slots agree with the device and the counter of dirty slots is right.

    Every slot operation is one of two kinds: `Coherent.put` gives a slot to a block, and
    flushing (`Flushes`) only cleans slots, so that all of `wb_flush_all`, with its sort
    and its runs, is a fold of `wb_flush_slot` (`flushRuns_eq`). -/

namespace Cervus.Ext2

open Function List Finset

variable {β : Type}

/-! ## Section 1: Slots -/

/-- The number of dirty slots. -/
def dirtyCount (wb : Wb β) : Nat := (Finset.univ.filter fun i => (wb.slots i).dirty = true).card

section

variable (wb : Wb β) (i : Fin wbSlots)

@[simp] theorem setSlot_slots (s : WbSlot β) :
    (wb.setSlot i s).slots = update wb.slots i s := rfl

theorem wbMarkClean_slots : (wbMarkClean wb i).slots =
      update wb.slots i { wb.slots i with dirty := false } := by
  unfold wbMarkClean
  by_cases hd : (wb.slots i).dirty
  · rw [if_pos hd]
    rfl
  have hsame : ({ wb.slots i with dirty := false } : WbSlot β) = wb.slots i := by
    have hfalse : (wb.slots i).dirty = false := by simpa using hd
    rw [← hfalse]
  rw [if_neg hd, hsame, update_eq_self]

theorem wbMarkDirty_slots :
    (wbMarkDirty wb i).slots = update wb.slots i { wb.slots i with dirty := true } := by
  unfold wbMarkDirty
  by_cases hd : (wb.slots i).dirty
  · have hsame : ({ wb.slots i with dirty := true } : WbSlot β) = wb.slots i := by
      rw [← hd]
    rw [if_pos hd, hsame, update_eq_self]
  · rw [if_neg hd]
    rfl

@[simp] theorem wbMarkClean_persistent : (wbMarkClean wb i).persistent = wb.persistent := by
  unfold wbMarkClean
  split <;> rfl

@[simp] theorem wbMarkDirty_persistent : (wbMarkDirty wb i).persistent = wb.persistent := by
  unfold wbMarkDirty
  split <;> rfl

end

/-! ### The counter -/

/-- Replacing a summand. -/
theorem sum_update {ι : Type} [DecidableEq ι] {s : Finset ι} {i : ι} (f : ι → Nat) (hi : i ∈ s)
    (n : Nat) : ∑ k ∈ s, update f i n k + f i = ∑ k ∈ s, f k + n := by
  rw [sum_update_of_mem hi, ← add_sum_erase s f hi, sdiff_singleton_eq_erase]
  omega

theorem dirtyCount_le (wb : Wb β) : dirtyCount wb ≤ wbSlots := by
  calc (univ.filter fun i => (wb.slots i).dirty = true).card
      ≤ (univ : Finset (Fin wbSlots)).card := card_filter_le _ _
    _ = wbSlots := by simp

/-- The counter agrees with the slots. -/
def Counted (wb : Wb β) : Prop := wb.ndirty = dirtyCount wb

variable {wb wb' : Wb β} {b : Nat} {c : Cache β} {i : Fin wbSlots}

/-- Replacing a slot changes the number by that slot. -/
theorem dirtyCount_update {s : WbSlot β} (hslots : wb'.slots = update wb.slots i s) :
    dirtyCount wb' + (if (wb.slots i).dirty = true then 1 else 0) =
      dirtyCount wb + if s.dirty = true then 1 else 0 := by
  have hcell := apply_update
    (fun (_ : Fin wbSlots) (t : WbSlot β) => if t.dirty = true then 1 else 0) wb.slots i s
  unfold dirtyCount
  rw [card_filter, card_filter, hslots, sum_congr rfl fun j _ => hcell j]
  exact sum_update _ (mem_univ i) _

theorem Counted.markClean (h : Counted wb) (i : Fin wbSlots) : Counted (wbMarkClean wb i) := by
  have hcount := dirtyCount_update (wbMarkClean_slots wb i)
  have hle := dirtyCount_le wb
  have hslots : wbSlots = 256 := rfl
  unfold Counted at h ⊢
  by_cases hd : (wb.slots i).dirty
  · have hn : (wbMarkClean wb i).ndirty = sub32 wb.ndirty 1 := by
      unfold wbMarkClean
      rw [if_pos hd]
    rw [if_pos hd] at hcount
    rw [hn, h]
    unfold sub32 u32
    simp only [Bool.false_eq_true, if_false] at hcount
    omega
  have hsame : wbMarkClean wb i = wb := by
    unfold wbMarkClean
    rw [if_neg hd]
  rw [hsame]
  exact h

theorem Counted.markDirty (h : Counted wb) (i : Fin wbSlots) : Counted (wbMarkDirty wb i) := by
  have hcount := dirtyCount_update (wbMarkDirty_slots wb i)
  have hle := dirtyCount_le (wbMarkDirty wb i)
  have hslots : wbSlots = 256 := rfl
  unfold Counted at h ⊢
  by_cases hd : (wb.slots i).dirty
  · have hsame : wbMarkDirty wb i = wb := by
      unfold wbMarkDirty
      rw [if_pos hd]
    rw [hsame]
    exact h
  have hn : (wbMarkDirty wb i).ndirty = u32 (wb.ndirty + 1) := by
    unfold wbMarkDirty
    rw [if_neg hd]
  rw [if_neg hd, if_pos rfl] at hcount
  rw [hn, h]
  unfold u32
  omega

/-! ## Section 2: Coherence -/

/-- No block has two slots, clean slots agree with the device, and the counter is right.
    Without a journal the cache is persistent. -/
structure Coherent (c : Cache β) : Prop where
  persistent : c.wb.persistent = true
  uniq       : ∀ i j, (c.wb.slots i).valid = true → (c.wb.slots j).valid = true →
    (c.wb.slots i).blk = (c.wb.slots j).blk → i = j
  count      : Counted c.wb
  clean      : ∀ i, (c.wb.slots i).valid = true → (c.wb.slots i).dirty = false →
    (c.wb.slots i).buf = c.dev (c.wb.slots i).blk
  valid      : ∀ i, (c.wb.slots i).dirty = true → (c.wb.slots i).valid = true

/-- The logical block map. -/
def view (c : Cache β) (b : Nat) : β :=
  match wbFind c.wb b with
  | some i => (c.wb.slots i).buf
  | none => c.dev b

theorem wbFind_some (h : wbFind wb b = some i) :
    (wb.slots i).valid = true ∧ (wb.slots i).blk = b := by
  have hp := find?_some h
  simpa using hp

theorem wbFind_none :
    wbFind wb b = none ↔ ∀ i, (wb.slots i).valid = true → (wb.slots i).blk ≠ b := by
  unfold wbFind
  rw [find?_eq_none]
  constructor
  · intro h i hv heq
    have := h i (mem_finRange i)
    simp [hv, heq] at this
  · intro h i _ hi
    simp only [Bool.and_eq_true, beq_iff_eq] at hi
    exact h i hi.1 hi.2

section View

variable {c : Cache β} {b : Nat} {i : Fin wbSlots}

theorem view_absent (h : ∀ i, (c.wb.slots i).valid = true → (c.wb.slots i).blk ≠ b) :
    view c b = c.dev b := by
  unfold view
  rw [wbFind_none.mpr h]

theorem Coherent.view_slot (h : Coherent c) (hv : (c.wb.slots i).valid = true)
    (hb : (c.wb.slots i).blk = b) : view c b = (c.wb.slots i).buf := by
  unfold view
  cases hf : wbFind c.wb b with
  | none => exact absurd hb (wbFind_none.mp hf i hv)
  | some j =>
    obtain ⟨hvj, hbj⟩ := wbFind_some hf
    rw [h.uniq j i hvj hv (by rw [hbj, hb])]

/-- A block without a dirty slot is as on the device. -/
theorem Coherent.view_clean (h : Coherent c)
    (hclean : ∀ i, (c.wb.slots i).dirty = true → (c.wb.slots i).blk ≠ b) : view c b = c.dev b := by
  by_cases hex : ∃ i, (c.wb.slots i).valid = true ∧ (c.wb.slots i).blk = b
  · obtain ⟨i, hv, hb⟩ := hex
    have hd : (c.wb.slots i).dirty = false := by
      rw [← Bool.not_eq_true]
      intro hd
      exact hclean i hd hb
    rw [h.view_slot hv hb, h.clean i hv hd, hb]
  · exact view_absent fun i hv hb => hex ⟨i, hv, hb⟩

/-- **A slot for a block.** The slot gets a buffer for block `b`; what the device had of
    `b` may change too. The slot was clean, or already that of `b`. -/
theorem Coherent.put (h : Coherent c) {dev : Nat → β} {wb : Wb β} {s : WbSlot β}
    (hold : (c.wb.slots i).dirty = true → (c.wb.slots i).blk = b)
    (habsent : ∀ j, j ≠ i → (c.wb.slots j).valid = true → (c.wb.slots j).blk ≠ b)
    (hdev : ∀ b', b' ≠ b → dev b' = c.dev b') (hvalid : s.valid = true) (hblk : s.blk = b)
    (hbuf : s.dirty = false → s.buf = dev b) (hslots : wb.slots = update c.wb.slots i s)
    (hpersistent : wb.persistent = true) (hcount : Counted wb) :
    Coherent ⟨dev, wb⟩ ∧ view ⟨dev, wb⟩ = update (view c) b s.buf := by
  have hself : wb.slots i = s := by rw [hslots, update_self]
  have hother : ∀ j, j ≠ i → wb.slots j = c.wb.slots j := by
    intro j hj
    rw [hslots, update_of_ne hj]
  have hcoh : Coherent ⟨dev, wb⟩ := by
    refine ⟨hpersistent, ?_, hcount, ?_, ?_⟩
    · intro j k hj hk heq
      by_cases hji : j = i
      · by_cases hki : k = i
        · rw [hji, hki]
        · rw [hji, hself, hblk, hother k hki] at heq
          rw [hother k hki] at hk
          exact absurd heq.symm (habsent k hki hk)
      by_cases hki : k = i
      · rw [hki, hself, hblk, hother j hji] at heq
        rw [hother j hji] at hj
        exact absurd heq (habsent j hji hj)
      · rw [hother j hji] at hj heq
        rw [hother k hki] at hk heq
        exact h.uniq j k hj hk heq
    · intro j hj hd
      simp only at hj hd ⊢
      by_cases hji : j = i
      · rw [hji, hself] at hd ⊢
        rw [hblk]
        exact hbuf hd
      · rw [hother j hji] at hj hd ⊢
        rw [hdev _ (habsent j hji hj)]
        exact h.clean j hj hd
    intro j hd
    by_cases hji : j = i
    · rw [hji, hself]
      exact hvalid
    · rw [hother j hji] at hd ⊢
      exact h.valid j hd
  refine ⟨hcoh, ?_⟩
  funext b'
  by_cases hb' : b' = b
  · rw [hb', update_self, hcoh.view_slot (by rw [← hvalid, ← hself])
      (by rw [← hblk, ← hself])]
    simp only [hself]
  rw [update_of_ne hb']
  by_cases hex : ∃ j, j ≠ i ∧ (c.wb.slots j).valid = true ∧ (c.wb.slots j).blk = b'
  · -- another slot has the block, before and after
    obtain ⟨j, hji, hv, hbj⟩ := hex
    rw [h.view_slot hv hbj, hcoh.view_slot (by rw [← hv, ← hother j hji])
      (by rw [← hbj, ← hother j hji])]
    simp only [hother j hji]
  -- no slot has it now, and the one that may have had it was clean
  have hafter : view ⟨dev, wb⟩ b' = dev b' := by
    apply view_absent
    intro j hv heq
    by_cases hji : j = i
    · rw [hji, hself, hblk] at heq
      exact hb' heq.symm
    · rw [hother j hji] at hv heq
      exact hex ⟨j, hji, hv, heq⟩
  have hbefore : view c b' = c.dev b' := by
    apply h.view_clean
    intro j hd heq
    by_cases hji : j = i
    · rw [hji] at hd heq
      exact hb' (heq.symm.trans (hold hd))
    · exact hex ⟨j, hji, h.valid j hd, heq⟩
  rw [hafter, hbefore, hdev b' hb']

end View

/-! ## Section 3: Flushing -/

theorem blkdevWrite_single (dev : Nat → β) (b : Nat) (v : β) :
    blkdevWrite dev b [v] = update dev b v := by
  funext b'
  unfold blkdevWrite
  by_cases hb : b' = b
  · simp [hb]
  rw [update_of_ne hb]
  split
  · next hle =>
    have hpos : b' - b ≠ 0 := by omega
    simp [hpos]
  · rfl

theorem blkdevWrite_cons (dev : Nat → β) (b : Nat) (v : β) (vs : List β) :
    blkdevWrite dev b (v :: vs) = blkdevWrite (update dev b v) (b + 1) vs := by
  funext b'
  unfold blkdevWrite
  by_cases hb : b' = b
  · simp [hb]
  by_cases hle : b ≤ b'
  · have hsub : b' - b = b' - (b + 1) + 1 := by omega
    rw [if_pos hle, if_pos (by omega), hsub, List.getElem?_cons_succ, update_of_ne hb]
  · rw [if_neg hle, if_neg (by omega), update_of_ne hb]

/-- What flushing does: slots become clean, and nothing else changes but the device. -/
structure Flushes (c c' : Cache β) : Prop where
  coherent : Coherent c'
  slots    : ∀ j, c'.wb.slots j = { c.wb.slots j with dirty := (c'.wb.slots j).dirty }
  dirty    : ∀ j, (c'.wb.slots j).dirty = true → (c.wb.slots j).dirty = true
  view     : view c' = view c
  dev      : ∀ b, c'.dev b = c.dev b ∨ c'.dev b = Ext2.view c b

theorem Flushes.refl (h : Coherent c) : Flushes c c :=
  ⟨h, fun _ => rfl, fun _ => id, rfl, fun _ => .inl rfl⟩

theorem Flushes.trans {c' c'' : Cache β} (h : Flushes c c') (h' : Flushes c' c'') :
    Flushes c c'' where
  coherent := h'.coherent
  slots j := by rw [h'.slots j, h.slots j]
  dirty j hd := h.dirty j (h'.dirty j hd)
  view := h'.view.trans h.view
  dev b := by
    rcases h'.dev b with hdev | hdev
    · rw [hdev]
      exact h.dev b
    · rw [hdev, h.view]
      exact .inr rfl

section Flush

variable {c : Cache β} {i : Fin wbSlots}

/-- **One slot.** -/
theorem wbFlushSlot_flushes (h : Coherent c) (i : Fin wbSlots) :
    Flushes c (wbFlushSlot c i) ∧ ((wbFlushSlot c i).wb.slots i).dirty = false ∧
      ∀ j, j ≠ i → (wbFlushSlot c i).wb.slots j = c.wb.slots j := by
  unfold wbFlushSlot
  by_cases hd : (c.wb.slots i).dirty = true
  · have hv := h.valid i hd
    rw [if_neg (by simp [hd, hv]), blkdevWrite_single]
    have hslots := wbMarkClean_slots c.wb i
    obtain ⟨hcoh, hview⟩ := h.put
      (s := { c.wb.slots i with dirty := false })
      (fun _ => rfl) (fun j hj hvj heq => hj (h.uniq j i hvj hv heq))
      (fun b' hb' => update_of_ne hb' (c.wb.slots i).buf c.dev) hv rfl
      (fun _ => (update_self (c.wb.slots i).blk (c.wb.slots i).buf c.dev).symm) hslots
      (by rw [wbMarkClean_persistent]; exact h.persistent) (h.count.markClean i)
    refine ⟨⟨hcoh, ?_, ?_, ?_, ?_⟩, ?_, ?_⟩
    · intro j
      rw [hslots]
      by_cases hj : j = i
      · rw [hj, update_self]
      · rw [update_of_ne hj]
    · intro j hdj
      rw [hslots] at hdj
      by_cases hj : j = i
      · rw [hj]
        exact hd
      · rwa [update_of_ne hj] at hdj
    · rw [hview]
      rw [← h.view_slot hv rfl, update_eq_self]
    · intro b
      simp only
      by_cases hb : b = (c.wb.slots i).blk
      · rw [hb, update_self, h.view_slot hv rfl]
        exact .inr rfl
      · rw [update_of_ne hb]
        exact .inl rfl
    · rw [hslots, update_self]
    · intro j hj
      rw [hslots, update_of_ne hj]
  · have hfalse : (c.wb.slots i).dirty = false := by simpa using hd
    rw [if_pos (by simp [hfalse])]
    exact ⟨Flushes.refl h, hfalse, fun _ _ => rfl⟩

theorem foldl_wbFlushSlot (h : Coherent c) (l : List (Fin wbSlots)) :
    Flushes c (l.foldl wbFlushSlot c) ∧
      (∀ i ∈ l, ((l.foldl wbFlushSlot c).wb.slots i).dirty = false) ∧
      ∀ j, j ∉ l → (l.foldl wbFlushSlot c).wb.slots j = c.wb.slots j := by
  induction l generalizing c with
  | nil => exact ⟨Flushes.refl h, fun i hi => absurd hi not_mem_nil, fun _ _ => rfl⟩
  | cons i l ih =>
    obtain ⟨hone, hclean, hother⟩ := wbFlushSlot_flushes h i
    obtain ⟨hrest, hcleaned, hothers⟩ := ih hone.coherent
    refine ⟨hone.trans hrest, ?_, ?_⟩
    · intro k hk
      rw [foldl_cons]
      by_cases hkl : k ∈ l
      · exact hcleaned k hkl
      -- flushed first, and not touched again
      rcases List.mem_cons.mp hk with rfl | hk
      · rw [hothers k hkl]
        exact hclean
      · exact absurd hk hkl
    · intro j hj
      rw [List.mem_cons, not_or] at hj
      rw [foldl_cons, hothers j hj.2, hother j hj.1]

/-! ### Runs -/

/-- The slots of a list are dirty and hold consecutive blocks. -/
structure IsRun (wb : Wb β) (start : Nat) (run : List (Fin wbSlots)) : Prop where
  nodup : run.Nodup
  dirty : ∀ i ∈ run, (wb.slots i).dirty = true
  blk   : ∀ k (hk : k < run.length), (wb.slots (run.get ⟨k, hk⟩)).blk = start + k

variable {wb : Wb β} {start : Nat} {run l : List (Fin wbSlots)}

theorem IsRun.tail (h : IsRun wb start (i :: run)) :
    IsRun (wbMarkClean wb i) (start + 1) run := by
  obtain ⟨hnot, hnodup⟩ := nodup_cons.mp h.nodup
  have hslots : ∀ k ∈ run, (wbMarkClean wb i).slots k = wb.slots k := by
    intro k hk
    rw [wbMarkClean_slots, update_of_ne]
    rintro rfl
    exact hnot hk
  refine ⟨hnodup, ?_, ?_⟩
  · intro k hk
    rw [hslots k hk]
    exact h.dirty k (.tail _ hk)
  intro k hk
  rw [hslots _ (get_mem _ _)]
  have hb := h.blk (k + 1) (by simpa using hk)
  rw [Nat.add_right_comm, Nat.add_assoc]
  exact hb

/-- Writing a run at once is flushing its slots. -/
theorem flushRun_eq (h : Coherent c) (hrun : IsRun c.wb start run) : run.foldl wbFlushSlot c =
      ⟨blkdevWrite c.dev start (run.map fun k => (c.wb.slots k).buf),
        run.foldl wbMarkClean c.wb⟩ := by
  induction run generalizing c start with
  | nil =>
    have hnone : blkdevWrite c.dev start [] = c.dev := by
      funext b
      simp [blkdevWrite]
    rw [map_nil, hnone]
    rfl
  | cons i run ih =>
    have hd := hrun.dirty i (.head _)
    have hv := h.valid i hd
    have hblk : (c.wb.slots i).blk = start := hrun.blk 0 (by simp)
    have hone : wbFlushSlot c i = ⟨update c.dev start (c.wb.slots i).buf, wbMarkClean c.wb i⟩ := by
      unfold wbFlushSlot
      rw [if_neg (by simp [hd, hv]), blkdevWrite_single, hblk]
    have hcoh := (wbFlushSlot_flushes h i).1.coherent
    rw [hone] at hcoh
    rw [foldl_cons, hone, ih hcoh hrun.tail, List.map_cons, blkdevWrite_cons]
    have hnot := (nodup_cons.mp hrun.nodup).1
    have hbufs : (run.map fun k => ((wbMarkClean c.wb i).slots k).buf) =
        run.map fun k => (c.wb.slots k).buf := by
      apply map_congr_left
      intro k hk
      rw [wbMarkClean_slots, update_of_ne]
      rintro rfl
      exact hnot hk
    rw [hbufs]
    rfl

/-! ### The order of flushing -/

theorem insertDown_perm (wb : Wb β) (x : Fin wbSlots) (l : List (Fin wbSlots)) :
    (insertDown wb x l).Perm (x :: l) := by
  induction l with
  | nil => exact List.Perm.refl _
  | cons y ys ih =>
    unfold insertDown
    split
    · exact (ih.cons y).trans (List.Perm.swap x y ys)
    · exact List.Perm.refl _

theorem insertDown_sorted {x : Fin wbSlots}
    (h : l.Pairwise fun a b => (wb.slots b).blk ≤ (wb.slots a).blk) :
    (insertDown wb x l).Pairwise fun a b => (wb.slots b).blk ≤ (wb.slots a).blk := by
  induction l with
  | nil => exact pairwise_singleton _ _
  | cons y ys ih =>
    obtain ⟨hy, hys⟩ := List.pairwise_cons.mp h
    unfold insertDown
    split
    · next hlt =>
      refine List.pairwise_cons.mpr ⟨?_, ih hys⟩
      intro z hz
      rcases List.mem_cons.mp ((insertDown_perm wb x ys).mem_iff.mp hz) with rfl | hz
      · omega
      · exact hy z hz
    next hge =>
    refine List.pairwise_cons.mpr ⟨?_, h⟩
    intro z hz
    rcases List.mem_cons.mp hz with rfl | hz
    · omega
    · have := hy z hz
      omega

theorem flushOrder_spec (wb : Wb β) : (flushOrder wb).Nodup ∧
      (∀ i, i ∈ flushOrder wb ↔ (wb.slots i).valid = true ∧ (wb.slots i).dirty = true) ∧
      (flushOrder wb).Pairwise fun a b => (wb.slots a).blk ≤ (wb.slots b).blk := by
  have hfold : ∀ (order sorted : List (Fin wbSlots)),
      (sorted.Pairwise fun a b => (wb.slots b).blk ≤ (wb.slots a).blk) →
      (order.foldl (fun sorted x => insertDown wb x sorted) sorted).Perm (order ++ sorted) ∧
      (order.foldl (fun sorted x => insertDown wb x sorted) sorted).Pairwise
        fun a b => (wb.slots b).blk ≤ (wb.slots a).blk := by
    intro order
    induction order with
    | nil =>
      intro sorted hs
      exact ⟨List.Perm.refl _, hs⟩
    | cons x order ih =>
      intro sorted hs
      obtain ⟨hperm, hsorted⟩ := ih _ (insertDown_sorted hs)
      refine ⟨?_, hsorted⟩
      have hstep := (insertDown_perm wb x sorted).append_left order
      exact (hperm.trans hstep).trans perm_middle
  unfold flushOrder
  obtain ⟨hperm, hsorted⟩ := hfold _ [] List.Pairwise.nil
  rw [append_nil] at hperm
  refine ⟨?_, ?_, ?_⟩
  · rw [nodup_reverse, hperm.nodup_iff]
    exact (nodup_finRange wbSlots).filter _
  · intro i
    rw [mem_reverse, hperm.mem_iff, List.mem_filter]
    simp
  · rw [pairwise_reverse]
    exact hsorted

/-- How far a run goes. -/
theorem runLen_spec (wb : Wb β) (start : Nat) (rest : List (Fin wbSlots)) (len : Nat) :
    len ≤ runLen wb start len rest ∧ runLen wb start len rest ≤ len + rest.length ∧
      ∀ k (hk : k < rest.length), len + k < runLen wb start len rest →
        (wb.slots (rest.get ⟨k, hk⟩)).blk = u32 (start + (len + k)) := by
  induction rest generalizing len with
  | nil =>
    refine ⟨le_rfl, le_rfl, ?_⟩
    intro k hk
    exact absurd hk (Nat.not_lt_zero k)
  | cons i rest ih =>
    unfold runLen
    split
    · next hcond =>
      obtain ⟨hlo, hhi, hblk⟩ := ih (len + 1)
      refine ⟨by omega, by simp only [length_cons]; omega, ?_⟩
      intro k hk hlt
      cases k with
      | zero => exact hcond.2
      | succ k =>
        have hnext := hblk k (by simpa using hk) (by omega)
        rw [show len + 1 + k = len + (k + 1) by omega] at hnext
        exact hnext
    · refine ⟨le_rfl, by omega, ?_⟩
      intro k hk hlt
      omega

/-- **The loop of `wb_flush_all`** flushes the slots one by one. -/
theorem flushRuns_eq {fuel : Nat} (h : Coherent c) (hfuel : l.length ≤ fuel) (hnodup : l.Nodup)
    (hdirty : ∀ i ∈ l, (c.wb.slots i).dirty = true)
    (hsorted : l.Pairwise fun a b => (c.wb.slots a).blk ≤ (c.wb.slots b).blk) :
    flushRuns fuel c l = l.foldl wbFlushSlot c := by
  induction fuel generalizing c l with
  | zero =>
    have hnil : l = [] := length_eq_zero_iff.mp (by omega)
    rw [hnil]
    rfl
  | succ fuel ih =>
    cases l with
    | nil => rfl
    | cons i rest =>
      simp only [flushRuns]
      obtain ⟨hlo, hhi, hblk⟩ := runLen_spec c.wb (c.wb.slots i).blk rest 1
      generalize hlen : runLen c.wb (c.wb.slots i).blk 1 rest = len at hlo hhi hblk ⊢
      have hmax : (i :: rest).length ≤ wbSlots := by
        have := hnodup.length_le_card
        rwa [Fintype.card_fin] at this
      have hslots : wbSlots = 256 := rfl
      -- the slots of the round hold consecutive blocks: in the sorted list the sum
      -- that is compared cannot have wrapped
      have hrun : IsRun c.wb (c.wb.slots i).blk ((i :: rest).take len) := by
        refine ⟨hnodup.sublist (take_sublist _ _), ?_, ?_⟩
        · intro k hk
          exact hdirty k (mem_of_mem_take hk)
        intro k hk
        have hk' : k < len ∧ k < (i :: rest).length := by
          rw [length_take] at hk
          omega
        rw [get_eq_getElem, getElem_take]
        cases k with
        | zero => rfl
        | succ k =>
          have hkr : k < rest.length := by simpa using hk'.2
          have heq := hblk k hkr (by omega)
          have hle := List.pairwise_cons.mp hsorted |>.1 _ (get_mem rest ⟨k, hkr⟩)
          rw [get_eq_getElem] at heq hle
          rw [getElem_cons_succ, heq]
          rw [heq] at hle
          unfold u32 at hle ⊢
          omega
      have hround : flushRun c ((i :: rest).take len) =
          ((i :: rest).take len).foldl wbFlushSlot c := by
        obtain ⟨len', rfl⟩ : ∃ len', len = len' + 1 := ⟨len - 1, by omega⟩
        rw [take_succ_cons] at hrun ⊢
        simp only [flushRun]
        split
        · exact (flushRun_eq h hrun).symm
        · rfl
      obtain ⟨hflush, _, hother⟩ := foldl_wbFlushSlot h ((i :: rest).take len)
      have hsplit : (i :: rest).take len ++ (i :: rest).drop len = i :: rest :=
        take_append_drop len (i :: rest)
      rw [hround]
      have hnot : ∀ k ∈ (i :: rest).drop len, k ∉ (i :: rest).take len := by
        intro k hk hk'
        rw [← hsplit, nodup_append] at hnodup
        exact hnodup.2.2 k hk' k hk rfl
      rw [ih hflush.coherent ?_ (hnodup.sublist (drop_sublist _ _)) ?_ ?_]
      · rw [← foldl_append, hsplit]
      · rw [length_drop]
        omega
      · intro k hk
        rw [hother k (hnot k hk)]
        exact hdirty k (mem_of_mem_drop hk)
      refine (hsorted.sublist (drop_sublist _ _)).imp_of_mem ?_
      intro a b ha hb hle
      rw [hother a (hnot a ha), hother b (hnot b hb)]
      exact hle

/-- **`wb_flush_all`**: no slot is dirty any more, and the device is the block map. -/
theorem wbFlushAll_spec (h : Coherent c) :
    Flushes c (wbFlushAll c) ∧ (∀ i, ((wbFlushAll c).wb.slots i).dirty = false) ∧
      (wbFlushAll c).dev = view c := by
  have hall : Flushes c (wbFlushAll c) ∧ ∀ i, ((wbFlushAll c).wb.slots i).dirty = false := by
    unfold wbFlushAll
    by_cases hz : c.wb.ndirty = 0
    · rw [if_pos hz]
      refine ⟨Flushes.refl h, ?_⟩
      intro i
      rw [← Bool.not_eq_true]
      intro hd
      have hcount : dirtyCount c.wb = 0 := by
        rw [← h.count]
        exact hz
      have hempty := card_eq_zero.mp hcount
      have hmem : i ∈ univ.filter fun i => (c.wb.slots i).dirty = true := by simp [hd]
      rw [hempty] at hmem
      exact absurd hmem (notMem_empty i)
    rw [if_neg hz]
    obtain ⟨hnodup, hmem, hsorted⟩ := flushOrder_spec c.wb
    rw [flushRuns_eq h (le_rfl) hnodup (fun i hi => ((hmem i).mp hi).2) hsorted]
    obtain ⟨hflush, hclean, hother⟩ := foldl_wbFlushSlot h (flushOrder c.wb)
    refine ⟨hflush, ?_⟩
    intro i
    by_cases hi : i ∈ flushOrder c.wb
    · exact hclean i hi
    · rw [hother i hi, ← Bool.not_eq_true]
      intro hd
      exact hi ((hmem i).mpr ⟨h.valid i hd, hd⟩)
  refine ⟨hall.1, hall.2, ?_⟩
  funext b
  rw [← hall.1.view]
  symm
  apply hall.1.coherent.view_clean
  intro i hd
  rw [hall.2 i] at hd
  exact absurd hd Bool.false_ne_true

end Flush

/-! ## Section 4: Blocks -/

theorem touchSlot_slots (wb : Wb β) (i : Fin wbSlots) : (touchSlot wb i).slots =
      update wb.slots i { wb.slots i with used := u32 (wb.tick + 1) } := rfl

/-- A slot is replaced by one that is dirty if it was. -/
theorem Counted.setSlot {t : WbSlot β} (h : Counted wb)
    (hn : wb'.ndirty = wb.ndirty) (hslots : wb'.slots = update wb.slots i t)
    (hd : t.dirty = (wb.slots i).dirty) : Counted wb' := by
  have hcount := dirtyCount_update hslots
  rw [hd] at hcount
  unfold Counted at h ⊢
  omega

section Blocks

variable {c : Cache β} {b : Nat}

/-- The slot to be replaced is clean afterwards. -/
theorem evict_spec (h : Coherent c) :
    Flushes c (evict c).2 ∧ ((evict c).2.wb.slots (evict c).1).dirty = false := by
  unfold evict
  simp only
  generalize victimLoop c.wb (finRange wbSlots) ⟨0, by decide⟩ = v
  by_cases hd : (c.wb.slots v).dirty = true
  · rw [if_pos (by simp [hd, h.valid v hd]), if_pos h.persistent]
    obtain ⟨hflush, hclean, _⟩ := wbFlushAll_spec h
    exact ⟨hflush, hclean v⟩
  · rw [if_neg (by simp [hd])]
    exact ⟨Flushes.refl h, by simpa using hd⟩

/-- **`wb_slot`**, up to the slot itself: a coherent cache with the same block map, in
    which the slot may be given to the block; all that `wb_slot` does then is to put a
    clean slot for the block there. -/
theorem wbSlot_spec (h : Coherent c) (b : Nat) (load : Bool) : ∃ c1 s, Flushes c c1 ∧
      ((c1.wb.slots (wbSlot c b load).1).dirty = true → (c1.wb.slots (wbSlot c b load).1).blk = b) ∧
      (∀ j, j ≠ (wbSlot c b load).1 → (c1.wb.slots j).valid = true → (c1.wb.slots j).blk ≠ b) ∧
      (wbSlot c b load).2.dev = c1.dev ∧
      (wbSlot c b load).2.wb.slots = update c1.wb.slots (wbSlot c b load).1 s ∧
      (wbSlot c b load).2.wb.persistent = true ∧ Counted (wbSlot c b load).2.wb ∧
      s.valid = true ∧ s.blk = b ∧ (s.dirty = false → load = true → s.buf = c1.dev b) ∧
      (load = true → s.buf = view c b) := by
  unfold wbSlot
  cases hf : wbFind c.wb b with
  | some i =>
    obtain ⟨hv, hb⟩ := wbFind_some hf
    refine ⟨c, { c.wb.slots i with used := u32 (c.wb.tick + 1) }, Flushes.refl h, fun _ => hb, ?_,
      rfl, touchSlot_slots _ _, h.persistent, h.count.setSlot rfl (touchSlot_slots _ _) rfl, hv, hb,
      ?_, ?_⟩
    · intro j hj hvj heq
      exact hj (h.uniq j i hvj hv (heq.trans hb.symm))
    · intro hd _
      rw [← hb]
      exact h.clean i hv hd
    · intro _
      rw [h.view_slot hv hb]
  | none =>
    obtain ⟨hflush, hclean⟩ := evict_spec h
    generalize evict c = r at hflush hclean ⊢
    obtain ⟨i, c1⟩ := r
    simp only at hflush hclean ⊢
    have habsent : ∀ j, (c1.wb.slots j).valid = true → (c1.wb.slots j).blk ≠ b := by
      intro j hv
      rw [hflush.slots j] at hv ⊢
      exact wbFind_none.mp hf j hv
    refine ⟨c1, { c1.wb.slots i with
        blk := b, valid := true, dirty := false, used := u32 (c1.wb.tick + 1),
        buf := if load = true then c1.dev b else (c1.wb.slots i).buf },
      hflush, ?_, fun j _ => habsent j, rfl, ?_, hflush.coherent.persistent, ?_, rfl, rfl, ?_, ?_⟩
    · intro hd
      rw [hclean] at hd
      exact absurd hd Bool.false_ne_true
    · rw [touchSlot_slots, setSlot_slots, update_idem, update_self]
      rfl
    · refine hflush.coherent.count.setSlot rfl ((touchSlot_slots _ _).trans (update_idem _ _ _)) ?_
      simp only [setSlot_slots, update_self, hclean]
    · intro _ hload
      exact if_pos hload
    · intro hload
      rw [← hflush.view, view_absent habsent]
      exact if_pos hload

end Blocks

/-! ### Forgetting -/

/-- The slot holds one of the blocks that are forgotten. -/
def Forgotten (start count : Nat) (s : WbSlot β) : Prop :=
  s.valid = true ∧ start ≤ s.blk ∧ s.blk < start + count

instance (start count : Nat) (s : WbSlot β) : Decidable (Forgotten start count s) :=
  inferInstanceAs (Decidable (_ ∧ _))

/-- A slot after `wb_forget`. -/
def forget (start count : Nat) (s : WbSlot β) : WbSlot β :=
  if Forgotten start count s then { s with valid := false, dirty := false } else s

theorem forgetSlot_spec (start count : Nat) (h : Counted wb) (i : Fin wbSlots) :
    (forgetSlot start count wb i).slots = update wb.slots i (forget start count (wb.slots i)) ∧
      Counted (forgetSlot start count wb i) ∧
      (forgetSlot start count wb i).persistent = wb.persistent := by
  unfold forgetSlot
  by_cases hf : Forgotten start count (wb.slots i)
  · have hforget : forget start count (wb.slots i) =
        { wb.slots i with valid := false, dirty := false } := if_pos hf
    obtain ⟨hv, hlo, hhi⟩ := hf
    rw [hforget, if_neg (by simp only [hv, Bool.not_true, Bool.false_or, Bool.or_eq_true,
      decide_eq_true_eq, not_or]; omega)]
    refine ⟨?_, ?_, wbMarkClean_persistent wb i⟩
    · rw [setSlot_slots, wbMarkClean_slots, update_idem, update_self]
    · exact (h.markClean i).setSlot rfl (setSlot_slots _ _ _)
        (by rw [wbMarkClean_slots, update_self])
  have hforget : forget start count (wb.slots i) = wb.slots i := if_neg hf
  rw [hforget, update_eq_self, if_pos]
  · exact ⟨rfl, h, rfl⟩
  unfold Forgotten at hf
  by_cases hv : (wb.slots i).valid = true
  · simp only [hv, true_and] at hf
    simp only [hv, Bool.not_true, Bool.false_or, Bool.or_eq_true, decide_eq_true_eq]
    omega
  · simp [hv]

theorem wbForget_spec (start count : Nat) (h : Counted wb) :
    (∀ j, (wbForget wb start count).slots j = forget start count (wb.slots j)) ∧
      Counted (wbForget wb start count) ∧
      (wbForget wb start count).persistent = wb.persistent := by
  -- every slot is met once
  have hfold : ∀ (l : List (Fin wbSlots)) (wb : Wb β), Counted wb → l.Nodup →
      (∀ j, (l.foldl (forgetSlot start count) wb).slots j =
        if j ∈ l then forget start count (wb.slots j) else wb.slots j) ∧
      Counted (l.foldl (forgetSlot start count) wb) ∧
      (l.foldl (forgetSlot start count) wb).persistent = wb.persistent := by
    intro l
    induction l with
    | nil =>
      intro wb h _
      exact ⟨fun j => by simp, h, rfl⟩
    | cons i l ih =>
      intro wb h hnodup
      obtain ⟨hnot, hnodup⟩ := nodup_cons.mp hnodup
      obtain ⟨hslots, hcount, hpers⟩ := forgetSlot_spec start count h i
      obtain ⟨hrest, hcount', hpers'⟩ := ih _ hcount hnodup
      refine ⟨?_, hcount', hpers'.trans hpers⟩
      intro j
      rw [foldl_cons, hrest j, hslots]
      by_cases hj : j = i
      · rw [hj, if_neg hnot, update_self, if_pos (.head _)]
      · simp [hj]
  unfold wbForget
  obtain ⟨hslots, hcount, hpers⟩ := hfold (finRange wbSlots) wb h (nodup_finRange wbSlots)
  refine ⟨?_, hcount, hpers⟩
  intro j
  rw [hslots j, if_pos (mem_finRange j)]

/-! ## Section 5: The store -/

/-- The logical block map of a device with or without a cache. -/
def Store.content (s : Store β) : Nat → β :=
  match s.wb with
  | none => s.dev
  | some wb => view ⟨s.dev, wb⟩

/-- The cache, if there is one, is coherent. -/
def Store.Ok (s : Store β) : Prop := ∀ wb, s.wb = some wb → Coherent ⟨s.dev, wb⟩

/-- The device has the block as it is. -/
def Store.Synced (s : Store β) (b : Nat) : Prop := s.dev b = s.content b

/-- What an operation on blocks does: it makes `m` the block map, and leaves current on
    the device what was, except where `P` holds. -/
structure Step (P : Nat → Prop) (s s' : Store β) (m : Nat → β) : Prop where
  ok      : s'.Ok
  content : s'.content = m
  synced  : ∀ b, ¬ P b → s.Synced b → s'.Synced b

section Operations

variable {s : Store β} {c : Cache β}

theorem Cache.store_ok (h : Coherent c) : c.store.Ok := by
  intro wb hwb
  obtain rfl := Option.some.inj hwb
  exact h

variable {P : Nat → Prop} {m dev : Nat → β} {wb : Wb β} {b start : Nat} {vs : List β}

/-- A step of the cache alone. -/
theorem Step.of_cache (h : Coherent c) (hm : view c = m)
    (hdev : ∀ b, ¬ P b → (c.dev b = s.dev b ∧ m b = s.content b) ∨ c.dev b = m b) :
    Step P s c.store m := by
  refine ⟨Cache.store_ok h, hm, ?_⟩
  intro b hb hsync
  show c.dev b = view c b
  rw [hm]
  rcases hdev b hb with ⟨hd, hmb⟩ | hd
  · rw [hd, hmb]
    exact hsync
  · exact hd

theorem content_of_wb (hs : s.wb = some wb) : s.content = view ⟨s.dev, wb⟩ := by
  unfold Store.content
  rw [hs]

theorem content_of_none (hs : s.wb = none) : s.content = s.dev := by
  unfold Store.content
  rw [hs]

/-- Without a cache every operation goes to the device. -/
theorem Step.of_plain {s' : Store β} (hs' : s'.wb = none) (hm : s'.dev = m) : Step P s s' m := by
  have hcontent : s'.content = s'.dev := content_of_none hs'
  refine ⟨?_, hcontent.trans hm, ?_⟩
  · intro wb hwb
    rw [hs'] at hwb
    cases hwb
  · intro b _ _
    unfold Store.Synced
    rw [hcontent]

theorem Coherent.usable (h : Coherent ⟨dev, wb⟩) : wbUsable wb = true := by
  unfold wbUsable
  rw [show wb.persistent = true from h.persistent, Bool.true_or]

/-- **Reading a block.** -/
theorem blockRead_spec (h : s.Ok) (b : Nat) :
    (blockRead s b).1 = s.content b ∧ Step (fun _ => False) s (blockRead s b).2 s.content := by
  unfold blockRead
  cases hs : s.wb with
  | none => exact ⟨by rw [content_of_none hs], Step.of_plain hs (content_of_none hs).symm⟩
  | some wb =>
    have hcoh := h wb hs
    simp only
    rw [if_pos hcoh.usable]
    obtain ⟨c1, t, hflush, hold, habsent, hdev, hslots, hpers, hcount, hv, hb, hbuf, hread⟩ :=
      wbSlot_spec hcoh b true
    generalize wbSlot ⟨s.dev, wb⟩ b true = r at hold habsent hdev hslots hpers hcount ⊢
    have hdev' : ∀ b', b' ≠ b → r.2.dev b' = c1.dev b' := fun b' _ => by rw [hdev]
    have hbuf' : t.dirty = false → t.buf = r.2.dev b := fun hd => by rw [hdev]; exact hbuf hd rfl
    obtain ⟨hcoh', hview⟩ := hflush.coherent.put hold habsent hdev' hv hb hbuf' hslots hpers hcount
    have hmap : view r.2 = s.content := by
      rw [content_of_wb hs, ← hflush.view]
      refine hview.trans ?_
      rw [hread rfl, ← hflush.view, update_eq_self]
    refine ⟨?_, ?_⟩
    · rw [hslots, update_self, hread rfl, content_of_wb hs]
    refine Step.of_cache hcoh' hmap ?_
    intro b' _
    rw [hdev]
    rcases hflush.dev b' with hd | hd
    · exact .inl ⟨hd, rfl⟩
    · exact .inr (by rw [hd, content_of_wb hs])

/-- A slot for the block gets a new buffer and is dirty. -/
theorem dirty_slot_spec {load : Bool} (hs : s.wb = some wb) (hcoh : Coherent ⟨s.dev, wb⟩) (v : β) :
    Step (fun b' => b' = b) s { (wbSlot ⟨s.dev, wb⟩ b load).2 with
        wb := wbMarkDirty (setBuf (wbSlot ⟨s.dev, wb⟩ b load).2.wb (wbSlot ⟨s.dev, wb⟩ b load).1 v)
          (wbSlot ⟨s.dev, wb⟩ b load).1 }.store
      (update s.content b v) := by
  obtain ⟨c1, t, hflush, hold, habsent, hdev, hslots, hpers, hcount, hv, hb, _, _⟩ :=
    wbSlot_spec hcoh b load
  generalize wbSlot ⟨s.dev, wb⟩ b load = r at hold habsent hdev hslots hpers hcount ⊢
  obtain ⟨i, c2⟩ := r
  have hset : (setBuf c2.wb i v).slots = update c1.wb.slots i { t with buf := v } := by
    unfold setBuf
    rw [setSlot_slots, hslots, update_idem, update_self]
  have hfinal : (wbMarkDirty (setBuf c2.wb i v) i).slots =
      update c1.wb.slots i { t with buf := v, dirty := true } := by
    rw [wbMarkDirty_slots, hset, update_idem, update_self]
  have hcount' : Counted (wbMarkDirty (setBuf c2.wb i v) i) := by
    apply Counted.markDirty
    exact hcount.setSlot rfl (setSlot_slots _ _ _) rfl
  have hdev' : ∀ b', b' ≠ b → c2.dev b' = c1.dev b' := fun b' _ => by rw [hdev]
  obtain ⟨hcoh', hview⟩ := hflush.coherent.put (s := { t with buf := v, dirty := true }) hold
    habsent hdev' hv hb (fun hd => absurd hd Bool.noConfusion) hfinal
    (by rw [wbMarkDirty_persistent]; exact hpers) hcount'
  refine Step.of_cache hcoh' ?_ ?_
  · refine hview.trans ?_
    rw [hflush.view, content_of_wb hs]
  intro b' hb'
  rw [hdev, update_of_ne hb']
  rcases hflush.dev b' with hd | hd
  · exact .inl ⟨hd, rfl⟩
  · exact .inr (by rw [hd, content_of_wb hs])

/-- **Writing metadata.** -/
theorem blockWrite_spec (h : s.Ok) (b : Nat) (v : β) :
    Step (fun b' => b' = b) s (blockWrite s b v) (update s.content b v) := by
  unfold blockWrite
  cases hs : s.wb with
  | none =>
    refine Step.of_plain rfl ?_
    rw [blkdevWrite_single, content_of_none hs]
  | some wb =>
    have hcoh := h wb hs
    simp only
    rw [if_pos hcoh.usable]
    exact dirty_slot_spec hs hcoh v

/-- **Writing an inode.** -/
theorem blockPatch_spec (h : s.Ok) (b : Nat) (f : β → β) :
    Step (fun b' => b' = b) s (blockPatch s b f) (update s.content b (f (s.content b))) := by
  unfold blockPatch
  cases hs : s.wb with
  | none =>
    refine Step.of_plain rfl ?_
    rw [blkdevWrite_single, content_of_none hs]
  | some wb =>
    have hcoh := h wb hs
    have hpers : wb.persistent = true := hcoh.persistent
    simp only
    rw [if_pos hpers]
    have hread : ((wbSlot ⟨s.dev, wb⟩ b true).2.wb.slots (wbSlot ⟨s.dev, wb⟩ b true).1).buf =
        s.content b := by
      obtain ⟨c1, t, _, _, _, _, hslots, _, _, _, _, _, hread⟩ := wbSlot_spec hcoh b true
      rw [hslots, update_self, hread rfl, content_of_wb hs]
    rw [hread]
    exact dirty_slot_spec hs hcoh _

theorem raDrop_coherent (h : Coherent ⟨dev, wb⟩) :
    Coherent ⟨dev, raDrop wb⟩ := ⟨h.persistent, h.uniq, h.count, h.clean, h.valid⟩

theorem view_raDrop (dev : Nat → β) (wb : Wb β) : view ⟨dev, raDrop wb⟩ = view ⟨dev, wb⟩ := rfl

/-- **Writing a block of data.** It is on the device then. -/
theorem blockWriteData_spec (h : s.Ok) (b : Nat) (v : β) :
    Step (fun _ => False) s (blockWriteData s b v) (update s.content b v) ∧
      (blockWriteData s b v).Synced b := by
  have hstep : Step (fun b' => b' = b) s (blockWriteData s b v) (update s.content b v) := by
    unfold blockWriteData
    cases hs : s.wb with
    | none =>
      refine Step.of_plain rfl ?_
      rw [blkdevWrite_single, content_of_none hs]
    | some wb =>
      have hcoh := raDrop_coherent (h wb hs)
      have hmap : s.content = view ⟨s.dev, raDrop wb⟩ := by
        rw [content_of_wb hs, view_raDrop]
      simp only [Option.map_some]
      rw [blkdevWrite_single, hmap]
      have hdev : ∀ b', b' ≠ b → update s.dev b v b' = s.dev b' :=
        fun b' hb' => update_of_ne hb' _ _
      cases hf : wbFind (raDrop wb) b with
      | none =>
        -- the block has no slot
        have habsent := wbFind_none.mp hf
        refine Step.of_cache (c := ⟨update s.dev b v, raDrop wb⟩) ?_ ?_ ?_
        · refine ⟨hcoh.persistent, hcoh.uniq, hcoh.count, ?_, hcoh.valid⟩
          intro i hvi hdi
          simp only at hvi hdi ⊢
          rw [hdev _ (habsent i hvi)]
          exact hcoh.clean i hvi hdi
        · funext b'
          by_cases hb' : b' = b
          · rw [hb', update_self, view_absent habsent]
            exact update_self _ _ _
          rw [update_of_ne hb']
          unfold view
          simp only
          rw [hdev b' hb']
        · intro b' hb'
          rw [update_of_ne hb']
          exact .inl ⟨hdev b' hb', by rw [hmap]⟩
      | some i =>
        obtain ⟨hvi, hbi⟩ := wbFind_some hf
        have hslots : (wbMarkClean (setBuf (raDrop wb) i v) i).slots = update (raDrop wb).slots i
              { (raDrop wb).slots i with buf := v, dirty := false } := by
          rw [wbMarkClean_slots]
          unfold setBuf
          rw [setSlot_slots, update_idem, update_self]
        have hcount : Counted (wbMarkClean (setBuf (raDrop wb) i v) i) := by
          apply Counted.markClean
          exact hcoh.count.setSlot rfl (setSlot_slots _ _ _) rfl
        obtain ⟨hcoh', hview⟩ := hcoh.put
          (s := { (raDrop wb).slots i with buf := v, dirty := false }) (fun _ => hbi)
          (fun j hj hvj heq => hj (hcoh.uniq j i hvj hvi (heq.trans hbi.symm))) hdev hvi hbi
          (fun _ => (update_self b v s.dev).symm) hslots
          (by rw [wbMarkClean_persistent]; exact hcoh.persistent) hcount
        refine Step.of_cache hcoh' hview ?_
        intro b' hb'
        rw [update_of_ne hb']
        exact .inl ⟨hdev b' hb', by rw [hmap]⟩
  have hself : (blockWriteData s b v).Synced b := by
    unfold Store.Synced
    rw [hstep.content, update_self]
    show blkdevWrite s.dev b [v] b = v
    rw [blkdevWrite_single, update_self]
  refine ⟨⟨hstep.ok, hstep.content, ?_⟩, hself⟩
  intro b' _ hsync
  by_cases hb' : b' = b
  · rw [hb']
    exact hself
  · exact hstep.synced b' hb' hsync

theorem blkdevWrite_outside (hb : ¬ (start ≤ b ∧ b < start + vs.length)) :
    blkdevWrite dev start vs b = dev b := by
  unfold blkdevWrite
  by_cases hle : start ≤ b
  · rw [if_pos hle, List.getElem?_eq_none (by omega)]
    rfl
  · rw [if_neg hle]

theorem blkdevWrite_inside (hlo : start ≤ b) (hhi : b < start + vs.length) (dev dev' : Nat → β) :
    blkdevWrite dev start vs b = blkdevWrite dev' start vs b := by
  unfold blkdevWrite
  rw [if_pos hlo, if_pos hlo, List.getElem?_eq_getElem (by omega)]
  rfl

/-- **Writing a run of data.** -/
theorem runFlush_spec (h : s.Ok) (start : Nat) (run : List β) :
    Step (fun _ => False) s (runFlush s start run) (blkdevWrite s.content start run) ∧
      ∀ b, start ≤ b → b < start + run.length → (runFlush s start run).Synced b := by
  unfold runFlush
  by_cases hlen : run.length = 0
  · have hsame : blkdevWrite s.content start run = s.content := by
      funext b
      exact blkdevWrite_outside (by omega)
    rw [if_pos hlen, hsame]
    exact ⟨⟨h, rfl, fun b _ hb => hb⟩, fun b hlo hhi => by omega⟩
  rw [if_neg hlen]
  cases hs : s.wb with
  | none =>
    refine ⟨Step.of_plain rfl ?_, ?_⟩
    · rw [content_of_none hs]
    · intro b _ _
      rfl
  | some wb =>
    simp only [Option.map_some]
    have hcoh := h wb hs
    obtain ⟨hslots, hcount, hpers⟩ := wbForget_spec start run.length hcoh.count
    generalize wbForget wb start run.length = wb' at hslots hcount hpers ⊢
    -- what is left in the cache is not in the run
    have hkept : ∀ j, (wb'.slots j).valid = true → wb'.slots j = wb.slots j ∧
        ¬ (start ≤ (wb.slots j).blk ∧ (wb.slots j).blk < start + run.length) := by
      intro j hv
      rw [hslots j] at hv ⊢
      unfold forget at hv ⊢
      by_cases hf : Forgotten start run.length (wb.slots j)
      · rw [if_pos hf] at hv
        exact absurd hv Bool.false_ne_true
      · rw [if_neg hf] at hv ⊢
        exact ⟨rfl, fun hin => hf ⟨hv, hin⟩⟩
    have hdirty : ∀ j, (wb'.slots j).dirty = true → (wb'.slots j).valid = true := by
      intro j hd
      rw [hslots j] at hd ⊢
      unfold forget at hd ⊢
      by_cases hf : Forgotten start run.length (wb.slots j)
      · rw [if_pos hf] at hd
        exact absurd hd Bool.false_ne_true
      · rw [if_neg hf] at hd ⊢
        exact hcoh.valid j hd
    have hcoh' : Coherent ⟨blkdevWrite s.dev start run, wb'⟩ := by
      refine ⟨hpers.trans hcoh.persistent, ?_, hcount, ?_, hdirty⟩
      · intro j k hj hk heq
        obtain ⟨hsame, _⟩ := hkept j hj
        obtain ⟨hsame', _⟩ := hkept k hk
        simp only [hsame, hsame'] at hj hk heq
        exact hcoh.uniq j k hj hk heq
      intro j hj hd
      simp only at hj hd ⊢
      obtain ⟨hsame, hout⟩ := hkept j hj
      rw [hsame] at hj hd ⊢
      rw [blkdevWrite_outside hout]
      exact hcoh.clean j hj hd
    have hview : view ⟨blkdevWrite s.dev start run, raDrop wb'⟩ =
        blkdevWrite s.content start run := by
      rw [view_raDrop, content_of_wb hs]
      funext b
      by_cases hb : start ≤ b ∧ b < start + run.length
      · rw [view_absent]
        · exact blkdevWrite_inside hb.1 hb.2 _ _
        intro j hj heq
        obtain ⟨hsame, hout⟩ := hkept j hj
        rw [hsame] at heq
        rw [heq] at hout
        exact hout hb
      rw [blkdevWrite_outside hb]
      by_cases hex : ∃ j, (wb.slots j).valid = true ∧ (wb.slots j).blk = b
      · obtain ⟨j, hv, hbj⟩ := hex
        have hsame : wb'.slots j = wb.slots j := by
          rw [hslots j]
          unfold forget
          rw [if_neg]
          intro hf
          rw [← hbj] at hb
          exact hb hf.2
        rw [hcoh.view_slot hv hbj, hcoh'.view_slot (i := j) (by simp only [hsame]; exact hv)
          (by simp only [hsame]; exact hbj)]
        simp only [hsame]
      rw [view_absent, view_absent]
      · exact blkdevWrite_outside hb
      · intro j hv hbj
        exact hex ⟨j, hv, hbj⟩
      intro j hj heq
      obtain ⟨hsame, _⟩ := hkept j hj
      simp only [hsame] at hj heq
      exact hex ⟨j, hj, heq⟩
    have hdev : ∀ b, ¬ (start ≤ b ∧ b < start + run.length) →
        blkdevWrite s.dev start run b = s.dev b ∧ blkdevWrite s.content start run b = s.content b :=
      fun b hb => ⟨blkdevWrite_outside hb, blkdevWrite_outside hb⟩
    refine ⟨Step.of_cache (raDrop_coherent hcoh') hview ?_, ?_⟩
    · intro b _
      by_cases hb : start ≤ b ∧ b < start + run.length
      · exact .inr (blkdevWrite_inside hb.1 hb.2 _ _)
      · exact .inl (hdev b hb)
    intro b hlo hhi
    show blkdevWrite s.dev start run b = view ⟨blkdevWrite s.dev start run, raDrop wb'⟩ b
    rw [hview]
    exact blkdevWrite_inside hlo hhi _ _

/-- `wb_flush_all`, with its test for the cache. -/
def flushAll (s : Store β) : Store β :=
  match s.wb with
  | none => s
  | some wb => (wbFlushAll ⟨s.dev, wb⟩).store

/-- **Flushing the cache.** -/
theorem flushAll_spec (h : s.Ok) :
    Step (fun _ => False) s (flushAll s) s.content ∧ (flushAll s).dev = s.content := by
  unfold flushAll
  cases hs : s.wb with
  | none => exact ⟨Step.of_plain hs (content_of_none hs).symm, (content_of_none hs).symm⟩
  | some wb =>
    obtain ⟨hflush, _, hdev⟩ := wbFlushAll_spec (h wb hs)
    have hmap : view (wbFlushAll ⟨s.dev, wb⟩) = s.content := by
      rw [hflush.view, content_of_wb hs]
    have hdev' : (wbFlushAll ⟨s.dev, wb⟩).dev = s.content := by
      rw [hdev, content_of_wb hs]
    refine ⟨Step.of_cache hflush.coherent hmap ?_, hdev'⟩
    intro b _
    exact .inr (by rw [hdev'])

end Operations

/-! ## Section 6: Runs -/

/-- A cache as `wb_init` makes it, without a journal. -/
structure Wb.Fresh (wb : Wb β) : Prop where
  persistent : wb.persistent = true
  ndirty     : wb.ndirty = 0
  slots      : ∀ i, (wb.slots i).valid = false ∧ (wb.slots i).dirty = false

theorem Wb.Fresh.coherent (h : wb.Fresh) (dev : Nat → β) :
    Coherent ⟨dev, wb⟩ ∧ view ⟨dev, wb⟩ = dev := by
  have hinvalid : ∀ i, (wb.slots i).valid ≠ true := by
    intro i hv
    rw [(h.slots i).1] at hv
    exact Bool.false_ne_true hv
  refine ⟨⟨h.persistent, ?_, ?_, ?_, ?_⟩, ?_⟩
  · intro i j hv
    exact absurd hv (hinvalid i)
  · unfold Counted dirtyCount
    rw [h.ndirty, filter_false_of_mem, card_empty]
    intro i _
    rw [(h.slots i).2]
    exact Bool.false_ne_true
  · intro i hv
    exact absurd hv (hinvalid i)
  · intro i hd
    rw [show ((⟨dev, wb⟩ : Cache β).wb.slots i).dirty = false from (h.slots i).2] at hd
    exact absurd hd Bool.false_ne_true
  · funext b
    exact view_absent fun i hv => absurd hv (hinvalid i)

inductive BlockOp (β : Type) where
  | wbInit (wb : Wb β)
  | wbBegin
  | wbEnd
  | read (b : Nat)
  | write (b : Nat) (v : β)
  | patch (b : Nat) (f : β → β)
  | writeData (b : Nat) (v : β)
  | runFlush (start : Nat) (run : List β)
  | flushAll

/-- The store, and for every block the value of the last write to it, or what the device
    had at the start. -/
structure BlockSys (β : Type) where
  store : Store β
  map   : Nat → β

/-- An operation of the file system on blocks; `wb_init` may come at any time. -/
def BlockStep (s : BlockSys β) : BlockOp β → BlockSys β → Prop
  | .wbInit wb, s' => s.store.wb = none ∧ wb.Fresh ∧ s' = { s with store := ⟨s.store.dev, some wb⟩ }
  | .wbBegin, s' => ∃ wb, s.store.wb = some wb ∧
      s' = { s with store := (wbBegin ⟨s.store.dev, wb⟩).store }
  | .wbEnd, s' => ∃ wb, s.store.wb = some wb ∧
      s' = { s with store := (wbEnd ⟨s.store.dev, wb⟩).store }
  | .read b, s' => s' = { s with store := (blockRead s.store b).2 }
  | .write b v, s' => s' = ⟨blockWrite s.store b v, Function.update s.map b v⟩
  | .patch b f, s' => s' = ⟨blockPatch s.store b f, Function.update s.map b (f (s.map b))⟩
  | .writeData b v, s' => s' = ⟨blockWriteData s.store b v, Function.update s.map b v⟩
  | .runFlush start run, s' => s' = ⟨runFlush s.store start run, blkdevWrite s.map start run⟩
  | .flushAll, s' => s' = { s with store := flushAll s.store }

/-- A device, without a cache at first. -/
def blockSystem (β : Type) : System (BlockSys β) (BlockOp β) where
  init := fun s => s.store.wb = none ∧ s.map = s.store.dev
  step := BlockStep

/-- The cache is coherent, and the logical block map has the last writes. -/
def BlockInv (s : BlockSys β) : Prop := s.store.Ok ∧ s.store.content = s.map

theorem BlockInv.of_step {P : Nat → Prop} {s s' : Store β} {m : Nat → β} (h : Step P s s' m) :
    BlockInv ⟨s', m⟩ := ⟨h.ok, h.content⟩

theorem Coherent.depth {dev : Nat → β} (h : Coherent ⟨dev, wb⟩) (depth : Nat) :
    Coherent ⟨dev, { wb with depth }⟩ := ⟨h.persistent, h.uniq, h.count, h.clean, h.valid⟩

variable {s : BlockSys β}

theorem blockInv_step {s' : BlockSys β} {op : BlockOp β} (h : BlockInv s)
    (hstep : BlockStep s op s') : BlockInv s' := by
  obtain ⟨hok, hmap⟩ := h
  match op with
  | .wbInit wb =>
    obtain ⟨hnone, hfresh, rfl⟩ := hstep
    obtain ⟨hcoh, hview⟩ := hfresh.coherent s.store.dev
    refine ⟨Cache.store_ok hcoh, ?_⟩
    rw [← hmap, content_of_none hnone]
    exact hview
  | .wbBegin =>
    obtain ⟨wb, hwb, rfl⟩ := hstep
    refine ⟨Cache.store_ok ((hok wb hwb).depth _), ?_⟩
    rw [← hmap, content_of_wb hwb]
    rfl
  | .wbEnd =>
    obtain ⟨wb, hwb, rfl⟩ := hstep
    have hcoh := hok wb hwb
    -- a persistent cache is not flushed at the end of an operation
    unfold wbEnd
    split
    · refine ⟨Cache.store_ok hcoh, ?_⟩
      rw [← hmap, content_of_wb hwb]
      rfl
    rw [if_pos (.inr hcoh.persistent)]
    refine ⟨Cache.store_ok (hcoh.depth _), ?_⟩
    rw [← hmap, content_of_wb hwb]
    rfl
  | .read b =>
    have heq : s' = _ := hstep
    rw [heq, ← hmap]
    exact .of_step (blockRead_spec hok b).2
  | .write b v =>
    have heq : s' = _ := hstep
    rw [heq, ← hmap]
    exact .of_step (blockWrite_spec hok b v)
  | .patch b f =>
    have heq : s' = _ := hstep
    rw [heq, ← hmap]
    exact .of_step (blockPatch_spec hok b f)
  | .writeData b v =>
    have heq : s' = _ := hstep
    rw [heq, ← hmap]
    exact .of_step (blockWriteData_spec hok b v).1
  | .runFlush start run =>
    have heq : s' = _ := hstep
    rw [heq, ← hmap]
    exact .of_step (runFlush_spec hok start run).1
  | .flushAll =>
    have heq : s' = _ := hstep
    rw [heq, ← hmap]
    exact .of_step (flushAll_spec hok).1

theorem blockInv_reachable (hr : (blockSystem β).Reachable s) : BlockInv s := by
  induction hr with
  | init hinit =>
    obtain ⟨hnone, hmap⟩ := hinit
    refine ⟨?_, ?_⟩
    · intro wb hwb
      rw [hnone] at hwb
      cases hwb
    · rw [content_of_none hnone, hmap]
  | step op _ hstep ih => exact blockInv_step ih hstep

/-- **The cache is transparent.** After every sequence of operations a read of a block
    gives the last value written to it, no block has two slots, the counter is the number
    of dirty slots, and flushing makes the device the logical block map. -/
theorem cache_transparent {s : BlockSys β} (hr : (blockSystem β).Reachable s) :
    (∀ b, (blockRead s.store b).1 = s.map b) ∧
    (∀ wb, s.store.wb = some wb →
      (∀ i j, (wb.slots i).valid = true → (wb.slots j).valid = true →
        (wb.slots i).blk = (wb.slots j).blk → i = j) ∧ wb.ndirty = dirtyCount wb) ∧
    (flushAll s.store).dev = s.map := by
  obtain ⟨hok, hmap⟩ := blockInv_reachable hr
  refine ⟨?_, ?_, ?_⟩
  · intro b
    rw [(blockRead_spec hok b).1, hmap]
  · intro wb hwb
    have hcoh := hok wb hwb
    exact ⟨hcoh.uniq, hcoh.count⟩
  · rw [(flushAll_spec hok).2, hmap]

/-- An empty cache. -/
def emptyWb : Wb Nat where
  depth := 0
  persistent := true
  tick := 0
  ndirty := 0
  slots := fun _ => ⟨0, 0, false, false, 0⟩
  flushbuf := true
  ra := fun _ => none

/-- A block is written through the cache and another one past it. -/
theorem cache_transparent_two_writes :
    ∃ s : BlockSys Nat, (blockSystem Nat).Reachable s ∧ s.map 5 = 7 ∧ s.map 6 = 8 ∧
      ((∀ b, (blockRead s.store b).1 = s.map b) ∧
      (∀ wb, s.store.wb = some wb →
        (∀ i j, (wb.slots i).valid = true → (wb.slots j).valid = true →
          (wb.slots i).blk = (wb.slots j).blk → i = j) ∧ wb.ndirty = dirtyCount wb) ∧
      (flushAll s.store).dev = s.map) := by
  have h0 : (blockSystem Nat).Reachable ⟨⟨fun _ => 0, none⟩, fun _ => 0⟩ := .init ⟨rfl, rfl⟩
  have h1 : (blockSystem Nat).Reachable ⟨⟨fun _ => 0, some emptyWb⟩, fun _ => 0⟩ :=
    .step (.wbInit emptyWb) h0 ⟨rfl, ⟨rfl, rfl, fun _ => ⟨rfl, rfl⟩⟩, rfl⟩
  generalize (⟨fun _ => 0, some emptyWb⟩ : Store Nat) = st at h1
  have h2 : (blockSystem Nat).Reachable ⟨blockWrite st 5 7, update (fun _ => 0) 5 7⟩ :=
    .step (.write 5 7) h1 rfl
  have h3 : (blockSystem Nat).Reachable ⟨blockWriteData (blockWrite st 5 7) 6 8,
      update (update (fun _ => 0) 5 7) 6 8⟩ := .step (.writeData 6 8) h2 rfl
  exact ⟨_, h3, rfl, rfl, cache_transparent h3⟩

end Cervus.Ext2
