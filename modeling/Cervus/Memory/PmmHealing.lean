import Cervus.Framework.Dyadic
import Cervus.Memory.PmmAccounting

/-! # Fragmentation heals

    Blocks are dyadic: a block of order `o` starts at a multiple of its size. So the free
    lists are a `Dyadic.Tiling` as soon as no two buddies are both free, and a tiling is
    determined by the frames that it covers. When all allocations have been released the
    free frames are those of `pmm_init`, and therefore the free blocks are, too.

    That no two buddies are free is an invariant (`Joined`):

    * `pmm_init` carves the largest aligned block each time, so a block whose buddy is
      carved next would have been larger (`joined_init`); blocks of different entries are
      not adjacent;
    * an allocation splits a block and keeps its lowest part, which is part of the buddy
      of each half that is given back (`joined_take`);
    * `_buddy_free_order` only stops when the buddy is not free (`joined_free`). -/

namespace Cervus.Pmm

open Cervus.Frames PmmBlock Nat Multiset

/-! ## Section 1: Blocks are dyadic -/

/-- The frames of a block, as a dyadic block. -/
def PmmBlock.dyadic (b : PmmBlock) : Dyadic.Block := ⟨b.phys / pageSize / 2 ^ b.order, b.order⟩

variable {b c : PmmBlock} {f order : Nat} {s s' : PmmBuddyState} {e : BootMmapEntry} {bi : BootInfo}

theorem PmmBlock.Aligned.phys_dyadic (h : b.Aligned) :
    b.phys = 2 ^ (pageShift + b.order) * b.dyadic.index := by
  obtain ⟨q, hq⟩ := h.2
  have hindex : b.dyadic.index = q := by
    unfold dyadic
    rw [Nat.div_div_eq_div_mul, ← two_pow_pageShift_add, hq]
    exact Nat.mul_div_cancel_left _ (Nat.two_pow_pos _)
  rw [hindex]
  exact hq

theorem PmmBlock.Aligned.first_eq (h : b.Aligned) :
    b.phys / pageSize = 2 ^ b.order * b.dyadic.index := by
  rw [h.phys_dyadic, two_pow_pageShift_add, Nat.mul_assoc]
  exact Nat.mul_div_cancel_left _ pageSize_pos

theorem PmmBlock.Aligned.has_iff (h : b.Aligned) : b.dyadic.Has f ↔ f ∈ b.frames := by
  have hpos := Nat.two_pow_pos b.order
  rw [mem_frames, h.first_eq]
  show f / 2 ^ b.order = b.dyadic.index ↔ _
  rw [Nat.div_eq_iff hpos, Nat.mul_comm]
  omega

theorem PmmBlock.Aligned.dyadic_inj (hb : b.Aligned) (hc : c.Aligned) (h : b.dyadic = c.dyadic) :
    b = c := by
  have horder : b.order = c.order := congrArg Dyadic.Block.order h
  have hphys : b.phys = c.phys := by rw [hb.phys_dyadic, hc.phys_dyadic, h, horder]
  cases b
  cases c
  simp_all

theorem xor_one_iff {i j : Nat} : j = i ^^^ 1 ↔ i / 2 = j / 2 ∧ i ≠ j := by
  rcases even_or_odd i with he | ho
  · rw [xor_one_of_even he]
    obtain ⟨r, rfl⟩ := he
    omega
  · rw [xor_one_of_odd ho]
    obtain ⟨r, rfl⟩ := ho
    omega

/-- Buddies are what `_buddy_free_order` takes them for. -/
theorem buddies_iff (hb : b.Aligned) (hc : c.Aligned) : b.dyadic.Buddies c.dyadic ↔
      b.order = c.order ∧ c.phys = b.phys ^^^ (pageSize <<< b.order) := by
  have hpos := Nat.two_pow_pos (pageShift + b.order)
  constructor
  · intro h
    obtain ⟨horder, hindex⟩ := h
    have horder' : b.order = c.order := horder
    refine ⟨horder, ?_⟩
    rw [pageSize_shiftLeft, hc.phys_dyadic, hb.phys_dyadic, xor_two_pow_of_dvd, ← horder',
      xor_one_iff.mpr hindex]
  intro h
  obtain ⟨horder, hphys⟩ := h
  refine ⟨horder, xor_one_iff.mp ?_⟩
  rw [pageSize_shiftLeft, hc.phys_dyadic, hb.phys_dyadic, xor_two_pow_of_dvd, ← horder] at hphys
  exact Nat.eq_of_mul_eq_mul_left hpos hphys

/-- Buddies are the two halves of a block, the lower one first or second. -/
theorem buddies_halves (hb : b.Aligned) (hc : c.Aligned) (hlt : b.order < maxOrder)
    (h : b.dyadic.Buddies c.dyadic) :
    (Aligned ⟨b.phys, b.order + 1⟩ ∧ c = ⟨b.phys + 2 ^ (pageShift + b.order), b.order⟩) ∨
    (Aligned ⟨c.phys, c.order + 1⟩ ∧ b = ⟨c.phys + 2 ^ (pageShift + c.order), c.order⟩) := by
  obtain ⟨horder, hphys⟩ := (buddies_iff hb hc).mp h
  rw [pageSize_shiftLeft] at hphys
  rcases buddy_cases hb.2 with ⟨hdvd, hx⟩ | ⟨hdvd, hle, hx⟩
  · left
    refine ⟨⟨hlt, hdvd⟩, ?_⟩
    cases c
    simp_all
  right
  rw [hx] at hphys
  refine ⟨⟨by show c.order + 1 ≤ maxOrder; omega, ?_⟩, ?_⟩
  · show 2 ^ (pageShift + (c.order + 1)) ∣ c.phys
    rw [hphys, ← horder]
    exact hdvd
  · cases b
    simp_all

/-- No two buddies are on the free lists. -/
def Joined (s : PmmBuddyState) : Prop :=
  ∀ b ∈ freeBlocks s, ∀ c ∈ freeBlocks s, b.order < maxOrder → ¬ b.dyadic.Buddies c.dyadic

/-- The free blocks as dyadic blocks. -/
def tiles (s : PmmBuddyState) : Set Dyadic.Block := fun d => ∃ b ∈ freeBlocks s, b.dyadic = d

theorem Wf.tiling (h : Wf s) (hj : Joined s) : Dyadic.Tiling maxOrder (tiles s) where
  order_le := by
    intro d hd
    obtain ⟨b, hb, rfl⟩ := hd
    exact (h.lists.aligned b hb).1
  disjoint := by
    intro d hd d' hd' f hf hf'
    obtain ⟨b, hb, rfl⟩ := hd
    obtain ⟨c, hc, rfl⟩ := hd'
    by_contra hne
    have hbc : b ≠ c := fun heq => hne (by rw [heq])
    -- the frame would be counted twice
    obtain ⟨l, hl, hpair⟩ := (nodup_bind.mp h.nodup).2
    have hbf := (h.lists.aligned b hb).has_iff.mp hf
    have hcf := (h.lists.aligned c hc).has_iff.mp hf'
    rw [hl] at hb hc
    exact disjoint_left.mp (hpair.forall hb hc hbc) hbf hcf
  joined := by
    intro d hd d' hd' hlt
    obtain ⟨b, hb, rfl⟩ := hd
    obtain ⟨c, hc, rfl⟩ := hd'
    exact hj b hb c hc hlt

theorem Wf.covers_iff (h : Wf s) : Dyadic.Covers (tiles s) f ↔ f ∈ freeFrames s := by
  rw [mem_freeFrames]
  constructor
  · intro hcov
    obtain ⟨d, ⟨b, hb, rfl⟩, hf⟩ := hcov
    exact ⟨b, hb, (h.lists.aligned b hb).has_iff.mp hf⟩
  · intro hmem
    obtain ⟨b, hb, hf⟩ := hmem
    exact ⟨b.dyadic, ⟨b, hb, rfl⟩, (h.lists.aligned b hb).has_iff.mpr hf⟩

/-- Two joined states with the same free frames have the same free blocks. -/
theorem freeBlocks_unique (h : Wf s) (h' : Wf s') (hj : Joined s) (hj' : Joined s')
    (hframes : freeFrames s = freeFrames s') (b : PmmBlock) :
    b ∈ freeBlocks s ↔ b ∈ freeBlocks s' := by
  have hsame : tiles s = tiles s' := by
    apply (h.tiling hj).unique (h'.tiling hj')
    intro f
    rw [h.covers_iff, h'.covers_iff, hframes]
  have hsub : ∀ {t t' : PmmBuddyState}, Wf t → Wf t' → tiles t = tiles t' →
      b ∈ freeBlocks t → b ∈ freeBlocks t' := by
    intro t t' ht ht' heq hb
    have hmem : tiles t' b.dyadic := by
      rw [← heq]
      exact ⟨b, hb, rfl⟩
    obtain ⟨c, hc, hdy⟩ := hmem
    rw [← (ht'.lists.aligned c hc).dyadic_inj (ht.lists.aligned b hb) hdy]
    exact hc
  exact ⟨hsub h h' hsame, hsub h' h hsame.symm⟩

/-! ## Section 2: Allocation -/

/-- The blocks that the split loop adds are the upper halves. -/
theorem mem_freeBlocks_splitDown {phys : Nat} :
    ∀ (found : Nat) (s : PmmBuddyState), found ≤ maxOrder →
      phys + 2 ^ (pageShift + found) ≤ 2 ^ 64 →
      c ∈ freeBlocks (splitDown phys order found s) →
      c ∈ freeBlocks s ∨ ∃ k, k < found ∧ c = ⟨phys + 2 ^ (pageShift + k), k⟩ := by
  intro found
  induction found with
  | zero => intro s _ _ hc; exact .inl hc
  | succ found ih =>
    intro s hmax hle hc
    unfold splitDown at hc
    split at hc
    · obtain ⟨hu, hle'⟩ := upper_half hle
      rw [hu] at hc
      rcases ih _ (by omega) hle' hc with hc | ⟨k, hk, hc⟩
      · rw [freeBlocks_flPush (by omega), mem_cons] at hc
        rcases hc with rfl | hc
        · exact .inr ⟨found, by omega, rfl⟩
        · exact .inl hc
      · exact .inr ⟨k, by omega, hc⟩
    · exact .inl hc

/-- **Allocation.** The buddy of a half that is given back contains the first page of the
    block that was taken. -/
theorem joined_take {o : Nat} (h : Wf s) (hj : Joined s) (hle : order ≤ o) (hmax : o ≤ maxOrder)
    (hb : b ∈ s.orders o) : Joined (takeBlock s o order b) := by
  have htaken := take_block order h hmax hle hb
  obtain ⟨hmem, ha⟩ := h.lists.mem hmax hb
  have horder := h.lists.order_eq o b hb
  obtain ⟨_, hhi⟩ := h.phys_range hmem
  have hend := h.memEnd_le
  rw [horder] at hhi
  -- a free block is an old one or a half
  have hcases : ∀ c ∈ freeBlocks (takeBlock s o order b),
      c ∈ freeBlocks s ∨ ∃ k, k < o ∧ c = ⟨b.phys + 2 ^ (pageShift + k), k⟩ := by
    intro c hc
    rcases mem_freeBlocks_splitDown o (flDel s o b) hmax (by omega) hc with hc | hc
    · left
      rw [freeBlocks_flDel hmax hb]
      exact mem_cons_of_mem hc
    · exact .inr hc
  have htaken_frame : b.phys / pageSize ∉ freeFrames (takeBlock s o order b) := by
    intro hfree
    have hnodup := h.nodup
    rw [htaken.frames, nodup_add] at hnodup
    exact disjoint_left.mp hnodup.2.2 (first_mem_frames ⟨b.phys, order⟩) hfree
  have hhalf : ∀ k, k < o → ∀ c ∈ freeBlocks (takeBlock s o order b),
      ¬ (dyadic ⟨b.phys + 2 ^ (pageShift + k), k⟩).Buddies c.dyadic := by
    intro k hk c hc hbud
    have hal : Aligned ⟨b.phys, k + 1⟩ := by
      refine ⟨by show k + 1 ≤ maxOrder; omega, Dvd.dvd.trans (pow_dvd_pow 2 ?_) ha.2⟩
      show pageShift + (k + 1) ≤ pageShift + b.order
      omega
    have hca := htaken.wf.lists.aligned c hc
    obtain ⟨hko, hphys⟩ := (buddies_iff hal.half.2 hca).mp hbud
    rw [pageSize_shiftLeft] at hphys
    have hpos := Nat.two_pow_pos (pageShift + k)
    rcases buddy_cases hal.half.2.2 with ⟨hdvd, _⟩ | ⟨_, _, hx⟩
    · -- the upper half is not aligned to the next order
      have hone : 2 ^ (pageShift + k + 1) ∣ 2 ^ (pageShift + k) := (Nat.dvd_add_right hal.2).mp hdvd
      have := le_of_dvd hpos hone
      omega
    rw [hx, Nat.add_sub_cancel] at hphys
    apply htaken_frame
    refine mem_freeFrames.mpr ⟨c, hc, ?_⟩
    rw [← hphys]
    exact c.first_mem_frames
  intro c hc d hd hlt hbud
  rcases hcases c hc with hc' | ⟨k, hk, rfl⟩
  · rcases hcases d hd with hd' | ⟨k, hk, rfl⟩
    · exact hj c hc' d hd' hlt hbud
    · exact hhalf k hk c hc hbud.symm
  · exact hhalf k hk d hd hbud

theorem AllocMove.joined {pages : Nat} (h : Wf s) (hj : Joined s) (hmove : AllocMove s pages s') :
    Joined s' := by
  cases hmove with
  | stay => exact hj
  | take _ hle hmax hb => exact joined_take h hj hle hmax hb

/-! ## Section 3: Freeing -/

/-- What the coalescing loop leaves: fewer free blocks, and a block whose buddy is not
    among them. -/
theorem coalesce_joined :
    ∀ (n : Nat) (s : PmmBuddyState) (b : PmmBlock), b.order + n = maxOrder → Wf s → b.Aligned →
      let r := coalesce n s b.phys b.order
      (∀ c ∈ freeBlocks r.1, c ∈ freeBlocks s) ∧
      (r.2.2 < maxOrder → ∀ c ∈ freeBlocks r.1,
        ¬ (dyadic ⟨r.2.1, r.2.2⟩).Buddies c.dyadic) := by
  intro n
  induction n with
  | zero =>
    intro s b hn _ _
    refine ⟨fun c hc => hc, fun hlt => ?_⟩
    have : b.order < maxOrder := hlt
    omega
  | succ n ih =>
    intro s b hn h ha
    have hlt : b.order < maxOrder := by omega
    rw [coalesce_succ h n hlt]
    split
    · next hmem =>
      -- the buddy is free: it leaves its list, and the loop goes on one order up
      have hdel := freeFrames_flDel (Nat.le_of_lt hlt) hmem
      have hwf := h.of_le (flDel_lists h.lists (Nat.le_of_lt hlt) hmem) (setOrder_sameRegion s _ _)
        (by rw [hdel]; exact Multiset.le_add_left _ _)
      have hmerge := frames_merge ha hlt
      obtain ⟨hsub, hstop⟩ := ih _ ⟨_, b.order + 1⟩
        (by show b.order + 1 + n = _; omega) hwf hmerge.1
      refine ⟨fun c hc => ?_, hstop⟩
      rw [freeBlocks_flDel (Nat.le_of_lt hlt) hmem]
      exact mem_cons_of_mem (hsub c hc)
    next hmem =>
    refine ⟨fun c hc => hc, fun _ c hc hbud => ?_⟩
    obtain ⟨horder, hphys⟩ := (buddies_iff ha (h.lists.aligned c hc)).mp hbud
    obtain ⟨_, d, hd, hdp⟩ := mem_freeBlocks.mp hc
    have hdo := h.lists.order_eq c.order d hd
    have hdeq : d = ⟨b.phys ^^^ (pageSize <<< b.order), b.order⟩ := by cases d; simp_all
    rw [← horder, hdeq] at hd
    exact hmem hd

/-- **Freeing** joins the block with all the buddies it can be joined with. -/
theorem joined_free (h : Wf s) (hj : Joined s) (ha : b.Aligned) (hmin : freeMinPhys ≤ b.phys) :
    Joined (buddyFreeOrder s b.phys b.order) := by
  obtain ⟨hsub, hstop⟩ := coalesce_joined (maxOrder - b.order) s b (add_sub_of_le ha.1) h ha
  have hm := coalesce_spec (maxOrder - b.order) s b.phys b.order (add_sub_of_le ha.1) h.lists ha
  unfold buddyFreeOrder
  rw [if_neg (by omega)]
  generalize coalesce (maxOrder - b.order) s b.phys b.order = r at hsub hstop hm
  obtain ⟨t, phys, order⟩ := r
  simp only at hsub hstop
  show Joined (flPush t order phys)
  intro c hc d hd hlt hbud
  rw [freeBlocks_flPush hm.aligned.1, mem_cons] at hc hd
  rcases hc with rfl | hc
  · rcases hd with rfl | hd
    · exact hbud.2.2 rfl
    · exact hstop hlt d hd hbud
  rcases hd with rfl | hd
  · refine hstop ?_ c hc hbud.symm
    have : c.order = order := hbud.1
    omega
  · exact hj c (hsub c hc) d (hsub d hd) hlt hbud

/-! ## Section 4: `pmm_init` -/

theorem carveOrder_maximal {base rem : Nat} : ∀ {o k : Nat}, carveOrder base rem o < k → k ≤ o →
      ¬ (2 ^ (pageShift + k) ∣ base ∧ 2 ^ k ≤ rem) := by
  intro o
  induction o with
  | zero => intro k hlt hle; exact absurd hlt (by simp only [carveOrder]; omega)
  | succ o ih =>
    intro k hlt hle hk
    simp only [carveOrder] at hlt
    have hpow : 1 <<< (o + 1) * pageSize = 2 ^ (pageShift + (o + 1)) := by
      rw [one_shiftLeft, two_pow_pageShift_add, Nat.mul_comm]
    split at hlt
    · omega
    next hnot =>
    by_cases heq : k = o + 1
    · subst heq
      apply hnot
      rw [hpow, and_two_pow_sub_one_eq_mod, one_shiftLeft]
      exact ⟨mod_eq_zero_of_dvd hk.1, hk.2⟩
    · exact ih hlt (by omega) hk

/-- A block inside the frames `[lo, hi)`, and as large as its address allows there. -/
structure Carved (lo hi : Nat) (c : PmmBlock) : Prop where
  inside  : ∀ f ∈ c.frames, lo ≤ f ∧ f < hi
  largest : PmmBlock.Aligned ⟨c.phys, c.order + 1⟩ → hi < c.phys / pageSize + 2 ^ (c.order + 1)

theorem mem_freeBlocks_carve {stop : Nat} (hstop : pageSize ∣ stop) :
    ∀ (base : Nat) (s : PmmBuddyState), pageSize ∣ base → c ∈ freeBlocks (carve base stop s) →
      c ∈ freeBlocks s ∨ Carved (base / pageSize) (stop / pageSize) c := by
  intro base s
  induction base, s using carve.induct stop with
  | case1 base s hlt rem order s' ih =>
    intro hb hc
    obtain ⟨q, rfl⟩ := hb
    obtain ⟨r, rfl⟩ := hstop
    obtain ⟨hmax, _, hrem, hfit⟩ := carve_round hlt
    have hnext := carve_next q order
    have hdiv : ∀ n, pageSize * n / pageSize = n := fun n => Nat.mul_div_cancel_left n pageSize_pos
    rw [carve, if_pos hlt] at hc
    rw [hdiv, hdiv]
    rw [hnext, hdiv, hdiv] at ih
    rcases ih (Nat.dvd_mul_right _ _) (by rw [← hnext]; exact hc) with hold | hcarved
    · -- the block of this round
      have hold' : c ∈ freeBlocks (flPush s order (pageSize * q)) := hold
      rw [freeBlocks_flPush hmax, mem_cons] at hold'
      rcases hold' with rfl | hold'
      · right
        refine ⟨fun f hf => ?_, fun hal => ?_⟩
        · rw [mem_frames, hdiv] at hf
          simp only at hf
          omega
        have hnot := carveOrder_maximal (lt_succ_self order) hal.1
        rw [hdiv]
        by_contra hle
        have hle' : q + 2 ^ (order + 1) ≤ r := Nat.not_lt.mp hle
        have hfits : 2 ^ (order + 1) ≤ rem := by omega
        exact hnot ⟨hal.2, hfits⟩
      · exact .inl hold'
    right
    refine ⟨fun f hf => ?_, hcarved.largest⟩
    have hin := hcarved.inside f hf
    have hpos := Nat.two_pow_pos order
    omega
  | case2 base s hge =>
    intro _ hc
    rw [carve, if_neg hge] at hc
    exact .inl hc

/-- Every block after `pmm_init` was carved from one entry. -/
theorem mem_freeBlocks_init : ∀ (mmap : List BootMmapEntry) (s : PmmBuddyState),
      (∀ e ∈ mmap, e.type = .usable → e.base + e.length ≤ 2 ^ 52) →
      c ∈ freeBlocks (mmap.foldl initEntry s) →
      c ∈ freeBlocks s ∨ ∃ e ∈ mmap, ∃ lo hi, e.frames = span lo (hi - lo) ∧ Carved lo hi c := by
  intro mmap
  induction mmap with
  | nil => intro s _ hc; exact .inl hc
  | cons e rest ih =>
    intro s hbound hc
    have hrest : ∀ e ∈ rest, e.type = .usable → e.base + e.length ≤ 2 ^ 52 :=
      fun e' he' => hbound e' (.tail _ he')
    rcases ih (initEntry s e) hrest hc with hc | ⟨e', he', hcarved⟩
    · by_cases hu : e.type = .usable
      · obtain ⟨lo, hi, hframes, hcarve⟩ := initEntry_eq hu (hbound e (.head _) hu)
        rw [hcarve] at hc
        have hcases := mem_freeBlocks_carve (Nat.dvd_mul_left pageSize hi) _ _
          (Nat.dvd_mul_left pageSize lo) hc
        rw [Nat.mul_div_cancel _ pageSize_pos, Nat.mul_div_cancel _ pageSize_pos] at hcases
        rcases hcases with hc | hcarved
        · exact .inl hc
        · exact .inr ⟨e, List.mem_cons_self, lo, hi, hframes, hcarved⟩
      · rw [initEntry_of_not_usable hu] at hc
        exact .inl hc
    · exact .inr ⟨e', List.mem_cons_of_mem _ he', hcarved⟩

theorem BootMmapEntry.covers_of_mem (h : f ∈ e.frames) : e.type = .usable ∧ e.CoversFrame f := by
  obtain ⟨hu, _, hlo, hhi⟩ := BootMmapEntry.mem_frames h
  exact ⟨hu, hlo, hhi⟩

/-- A frame lies in one usable entry only. -/
theorem entry_unique (hd : bi.UsableDisjoint) {e' : BootMmapEntry} (he : e ∈ bi.mmap)
    (he' : e' ∈ bi.mmap) (hu : e.type = .usable) (hu' : e'.type = .usable) (hf : e.CoversFrame f)
    (hf' : e'.CoversFrame f) : e = e' := by
  by_contra hne
  have hpos := pageSize_pos
  obtain ⟨hlo, hhi⟩ := hf
  obtain ⟨hlo', hhi'⟩ := hf'
  rw [Nat.add_mul, Nat.one_mul] at hhi hhi'
  exact UsableDisjoint.of_mem hd he he' hne hu hu' (f * pageSize) ⟨hlo, by omega⟩ ⟨hlo', by omega⟩

/-- **`pmm_init`** leaves no two buddies: the lower one would have been carved together
    with the upper one. -/
theorem joined_init (bi : BootInfo) (hd : bi.UsableDisjoint) (hapart : bi.UsableApart) :
    Joined (pmmInit bi) := by
  have hwf := (pmmInit_spec bi hd).1
  have hcarved : ∀ c ∈ freeBlocks (pmmInit bi),
      ∃ e ∈ bi.mmap, ∃ lo hi, e.frames = span lo (hi - lo) ∧ Carved lo hi c := by
    intro c hc
    rcases mem_freeBlocks_init bi.mmap _ (fun e he hu => (bi.direct_map e he hu).1) hc with
      hc | hc
    · obtain ⟨_, d, hd, _⟩ := mem_freeBlocks.mp hc
      exact nomatch hd
    · exact hc
  -- the lower buddy `b` and the upper one `c` lie in one entry, and `b` is not the largest
  -- block at its address
  have hlower : ∀ b ∈ freeBlocks (pmmInit bi), ∀ c ∈ freeBlocks (pmmInit bi),
      Aligned ⟨b.phys, b.order + 1⟩ →
      c ≠ ⟨b.phys + 2 ^ (pageShift + b.order), b.order⟩ := by
    intro b hb c hc hal heq
    obtain ⟨e, he, lo, hi, hframes, hcb⟩ := hcarved b hb
    obtain ⟨e', he', lo', hi', hframes', hcc⟩ := hcarved c hc
    have hmem : ∀ f ∈ b.frames, f ∈ e.frames := by
      intro f hf
      rw [hframes, mem_span]
      have := hcb.inside f hf
      omega
    have hmem' : ∀ f ∈ c.frames, f ∈ e'.frames := by
      intro f hf
      rw [hframes', mem_span]
      have := hcc.inside f hf
      omega
    have hfirst : c.phys / pageSize = b.phys / pageSize + 2 ^ b.order := by
      rw [heq]
      rw [two_pow_pageShift_add, add_mul_div_left _ _ pageSize_pos]
    have horder : c.order = b.order := by rw [heq]
    have hpos := Nat.two_pow_pos b.order
    obtain ⟨hu, hcov⟩ := BootMmapEntry.covers_of_mem (hmem _ b.last_mem_frames)
    obtain ⟨hu', hcov'⟩ := BootMmapEntry.covers_of_mem (hmem' _ c.first_mem_frames)
    have hnext : c.phys / pageSize = b.phys / pageSize + (2 ^ b.order - 1) + 1 := by omega
    have hsucc := hcov'
    rw [hnext] at hsucc
    have hcover := same_entry_succ hd hapart he he' hu hu' hcov hsucc
    rw [← hnext] at hcover
    have hee := entry_unique hd he he' hu hu' hcover hcov'
    -- all frames of `c` are below `hi`
    have hlast := hmem' _ c.last_mem_frames
    rw [← hee, hframes, mem_span, hfirst, horder] at hlast
    have hlarge := hcb.largest hal
    omega
  intro b hb c hc hlt hbud
  rcases buddies_halves (hwf.lists.aligned b hb) (hwf.lists.aligned c hc) hlt hbud with
    ⟨hal, heq⟩ | ⟨hal, heq⟩
  · exact hlower b hb c hc hal heq
  · exact hlower c hc b hb hal heq

/-! ## Section 5: Runs -/

theorem joined_reachable (hd : bi.UsableDisjoint) (hapart : bi.UsableApart) {st : PmmSys}
    (hr : (pmmSystem bi).Reachable st) : Joined st.buddy := by
  induction hr with
  | init hi =>
    rw [show _ = _ from hi]
    exact joined_init bi hd hapart
  | step c hr hstep ih =>
    have hinv := sysInv_reachable hd hr
    rcases PmmStep.cases hinv.wf hstep with ⟨pages, p, s', hc, rfl, _⟩ | ⟨a, s', _, ha, hcall, rfl⟩
    · exact hc.move.joined hinv.wf ih
    obtain ⟨b, hb⟩ := hinv.liveBlock hd ha
    have hmin := (hb.aligned.phys_range hinv.wf hb.range).1
    rw [hb.call] at hcall
    cases hcall
    exact joined_free hinv.wf ih hb.aligned hmin

/-- **Fragmentation heals.** In every state no two buddies are both free, and when nothing
    is allocated the free blocks are those of `pmm_init`. -/
theorem fragmentation_heals (bi : BootInfo) (hd : bi.UsableDisjoint) (hapart : bi.UsableApart)
    {st : PmmSys} (hr : (pmmSystem bi).Reachable st) :
    (∀ b ∈ freeBlockList st.buddy, ∀ c ∈ freeBlockList st.buddy, b.order < maxOrder →
      c.order = b.order → c.phys ≠ b.phys ^^^ (pageSize <<< b.order)) ∧
    (st.live = [] → ∀ b, b ∈ freeBlockList st.buddy ↔ b ∈ freeBlockList (pmmInit bi)) := by
  have hinv := sysInv_reachable hd hr
  have hj := joined_reachable hd hapart hr
  constructor
  · intro b hb c hc hlt horder hphys
    have hbud := (buddies_iff (hinv.wf.lists.aligned b hb) (hinv.wf.lists.aligned c hc)).mpr
      ⟨horder.symm, hphys⟩
    exact hj b hb c hc hlt hbud
  intro hlive b
  have hframes := hinv.frames
  rw [hlive] at hframes
  refine freeBlocks_unique hinv.wf (pmmInit_spec bi hd).1 hj (joined_init bi hd hapart) ?_ b
  simpa [liveFrames] using hframes

theorem fourMap_apart : fourMap.UsableApart := by
  simp [BootInfo.UsableApart, fourMap]

/-- The two pages of `mergedCalls` that are left are freed as well. -/
theorem fragmentation_heals_four :
    ∃ st, fourMap.UsableDisjoint ∧ fourMap.UsableApart ∧
      fourRun (mergedCalls ++ [.free ⟨0xffff800000102000, 2⟩]) = some st ∧
      (pmmSystem fourMap).Reachable st ∧
      ∀ b, b ∈ freeBlockList st.buddy ↔ b ∈ freeBlockList (pmmInit fourMap) := by
  let st := (fourRun (mergedCalls ++ [.free ⟨0xffff800000102000, 2⟩])).get (by decide)
  have hr : (pmmSystem fourMap).Reachable st := fourRun_reachable (Option.some_get _).symm
  exact ⟨st, fourMap_disjoint, fourMap_apart, (Option.some_get _).symm, hr,
    (fragmentation_heals fourMap fourMap_disjoint fourMap_apart hr).2 (by decide)⟩

/-- **Allocation is complete.** Whatever was allocated and freed before, `pmm_alloc` fails only
    when no aligned run of frames of the size is free. -/
theorem alloc_complete (bi : BootInfo) (hd : bi.UsableDisjoint) (hapart : bi.UsableApart)
    {st : PmmSys} (hr : (pmmSystem bi).Reachable st) {pages : Nat} (hpages : pages ≠ 0)
    (horder : pagesToOrder pages = some (some order)) :
    ∃ p s', pmmAlloc st.buddy pages = some (p, s') ∧ (p = 0 ↔ ∀ phys, Aligned ⟨phys, order⟩ →
      ¬ ∀ f ∈ frames ⟨phys, order⟩, f ∈ freeFrames st.buddy) := by
  have h := (sysInv_reachable hd hr).wf
  simp only [pmmAlloc, if_neg hpages, horder]
  rcases buddyAllocOrder_spec order h with ⟨heq, hempty⟩ | ⟨o, b, heq, hle, hmax, hb⟩
  · refine ⟨0, st.buddy, by simp [heq], iff_of_true rfl fun phys ha hfree => ?_⟩
    have hcov : ∀ n, (dyadic ⟨phys, order⟩).Has n → Dyadic.Covers (tiles st.buddy) n :=
      fun n hn => h.covers_iff.mpr (hfree n (ha.has_iff.mp hn))
    have hfirst := ha.has_iff.mpr (first_mem_frames _)
    obtain ⟨_, ⟨c, hc, rfl⟩, hcn⟩ := hcov _ hfirst
    -- the free block that has the first frame of the run is at least as large
    have hle := (h.tiling (joined_reachable hd hapart hr)).not_smaller ha.1 hcov ⟨c, hc, rfl⟩
      hfirst hcn
    obtain ⟨hmax, d, hd, -⟩ := mem_freeBlocks.mp hc
    simp [hempty c.order hle hmax] at hd
  · have htaken := take_block order h hmax hle hb
    have hmin := (h.phys_range (h.lists.mem hmax hb).1).1
    have hpos : 0 < freeMinPhys := by decide
    refine ⟨b.phys + st.buddy.hhdmOffset, takeBlock st.buddy o order b, ?_, ?_⟩
    · simp [heq, show ¬ b.phys < freeMinPhys by omega, show b.phys ≠ 0 by omega,
        htaken.physToBlock_eq h]
    · refine iff_of_false (by omega) fun hall => hall b.phys htaken.aligned fun f hf => ?_
      rw [htaken.frames, mem_add]
      exact .inl hf

/-- Two pages are free after `mergedCalls`, and no four. -/
theorem alloc_complete_four :
    ∃ st, fourRun mergedCalls = some st ∧
      (∃ p s', pmmAlloc st.buddy 2 = some (p, s') ∧ (p = 0 ↔ ∀ phys, Aligned ⟨phys, 1⟩ →
        ¬ ∀ f ∈ frames ⟨phys, 1⟩, f ∈ freeFrames st.buddy)) ∧
      ∃ p s', pmmAlloc st.buddy 4 = some (p, s') ∧ (p = 0 ↔ ∀ phys, Aligned ⟨phys, 2⟩ →
        ¬ ∀ f ∈ frames ⟨phys, 2⟩, f ∈ freeFrames st.buddy) := by
  let st := (fourRun mergedCalls).get (by decide)
  have hr : (pmmSystem fourMap).Reachable st := fourRun_reachable (Option.some_get _).symm
  exact ⟨st, (Option.some_get _).symm,
    alloc_complete fourMap fourMap_disjoint fourMap_apart hr (by decide) (by decide),
    alloc_complete fourMap fourMap_disjoint fourMap_apart hr (by decide) (by decide)⟩

/-- **The free blocks have no history**: runs that end with the same allocations live, in
    whatever order they made them, end with the same free blocks. -/
theorem free_blocks_of_live (bi : BootInfo) (hd : bi.UsableDisjoint) (hapart : bi.UsableApart)
    {st st' : PmmSys} (hr : (pmmSystem bi).Reachable st) (hr' : (pmmSystem bi).Reachable st')
    (hlive : st.live.Perm st'.live) (b : PmmBlock) :
    b ∈ freeBlockList st.buddy ↔ b ∈ freeBlockList st'.buddy := by
  have h := sysInv_reachable hd hr
  have h' := sysInv_reachable hd hr'
  apply freeBlocks_unique h.wf h'.wf (joined_reachable hd hapart hr)
    (joined_reachable hd hapart hr')
  -- both runs share out the frames of `pmm_init`
  have hframes := h.frames.trans h'.frames.symm
  rw [liveFrames_congr h.region, liveFrames_congr h'.region, liveFrames, (hlive.map _).sum_eq]
    at hframes
  exact add_right_cancel hframes

/-- Two pages are allocated one by one before the block of two, and freed after it. -/
def singlesCalls : List PmmCall :=
  [.alloc 1, .alloc 1, .alloc 2, .free ⟨0xffff800000101000, 1⟩, .free ⟨0xffff800000100000, 1⟩]

theorem free_blocks_of_live_four :
    ∃ st st', fourRun mergedCalls = some st ∧ fourRun singlesCalls = some st' ∧
      st.live = [⟨0xffff800000102000, 2⟩] ∧ st'.live = st.live ∧
      ∀ b, b ∈ freeBlockList st.buddy ↔ b ∈ freeBlockList st'.buddy := by
  let st := (fourRun mergedCalls).get (by decide)
  let st' := (fourRun singlesCalls).get (by decide)
  have hlive : st'.live = st.live := by decide
  exact ⟨st, st', (Option.some_get _).symm, (Option.some_get _).symm, by decide, hlive,
    free_blocks_of_live fourMap fourMap_disjoint fourMap_apart
      (fourRun_reachable (Option.some_get _).symm) (fourRun_reachable (Option.some_get _).symm)
      (.of_eq hlive.symm)⟩

end Cervus.Pmm
