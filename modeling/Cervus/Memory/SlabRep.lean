import Cervus.Memory.Slab

/-! # How memory represents slabs

    The abstract view of the slab allocator (`View`): for every slab the list of its
    free slots, for every cache its two lists of slabs. `Rep` says that memory and the
    cache records represent a view. Each operation of the allocator is then an
    operation on views:

    * `takeObject_rep`: the first free slot of the first slab is taken, and a slab
      that has no other moves to the full list (`View.take`);
    * `installSlab_rep`: a new slab is put in front first (`View.push`);
    * `releaseObject_rep`: the slot becomes the first free one, a slab that was full
      moves to the other list, one that is empty leaves it (`View.put`). -/

namespace Cervus.Slab

open Cervus.Pmm Cervus.Linked List

/-! ## Section 1: Geometry of slabs -/

/-- The number of slots of a slab. -/
def capacity (c : Fin 10) : Nat := slabCapacity (gSizeClasses c)

/-- The address of a slot. -/
def slotAddr (s : Nat) (c : Fin 10) (i : Nat) : Nat := s + slabHdr + i * gSizeClasses c

/-- What all size classes have in common; in particular every slot begins in the
    first page of its slab. -/
structure ClassOk (c : Fin 10) : Prop where
  dvd        : 8 ∣ gSizeClasses c
  size_ge    : 8 ≤ gSizeClasses c
  size_lt    : gSizeClasses c < 2 ^ 16
  cap_pos    : 0 < capacity c
  cap_lt     : capacity c < 2 ^ 16
  slots_fit  : slabHdr + capacity c * gSizeClasses c ≤ slabLen c
  first_page : slabHdr + (capacity c - 1) * gSizeClasses c < pageSize
  pages      : slabPages (gSizeClasses c) = 1 ∨ slabPages (gSizeClasses c) = 2

theorem classOk (c : Fin 10) : ClassOk c := by
  have htable : ∀ c : Fin 10, 8 ∣ gSizeClasses c ∧ 8 ≤ gSizeClasses c ∧
      gSizeClasses c < 2 ^ 16 ∧ 0 < capacity c ∧ capacity c < 2 ^ 16 ∧
      slabHdr + capacity c * gSizeClasses c ≤ slabLen c ∧
      slabHdr + (capacity c - 1) * gSizeClasses c < pageSize ∧
      (slabPages (gSizeClasses c) = 1 ∨ slabPages (gSizeClasses c) = 2) := by decide
  obtain ⟨h1, h2, h3, h4, h5, h6, h7, h8⟩ := htable c
  exact ⟨h1, h2, h3, h4, h5, h6, h7, h8⟩

theorem cacheOf_class (c : Fin 10) : cacheOf (gSizeClasses c) = some c := by
  revert c
  decide

theorem pageSize_le_slabLen (c : Fin 10) : pageSize ≤ slabLen c := by
  unfold slabLen
  rcases (classOk c).pages with h | h <;> rw [h] <;> omega

variable {s i j a used v t : Nat} {c d : Fin 10} {slabs : List (Nat × Fin 10)} {m m' : Mem}
  {fr l rest : List Nat} {st : SlabState} {V : View} {k : Bool}

/-- Slots are whole multiples of the object size apart and end inside the slab. -/
theorem slotAddr_bounds (hi : i < capacity c) :
    s + slabHdr ≤ slotAddr s c i ∧ slotAddr s c i < s + pageSize ∧
      slotAddr s c i + gSizeClasses c ≤ s + slabHdr + capacity c * gSizeClasses c := by
  have h := classOk c
  have hle : i * gSizeClasses c ≤ (capacity c - 1) * gSizeClasses c :=
    Nat.mul_le_mul_right _ (by omega)
  have hend : (i + 1) * gSizeClasses c ≤ capacity c * gSizeClasses c :=
    Nat.mul_le_mul_right _ (by omega)
  have hfirst := h.first_page
  rw [Nat.add_mul] at hend
  unfold slotAddr
  omega

theorem slotAddr_inj (h : slotAddr s c i = slotAddr s c j) : i = j := by
  have hpos : 0 < gSizeClasses c := by
    have := (classOk c).size_ge
    omega
  unfold slotAddr at h
  exact Nat.eq_of_mul_eq_mul_right hpos (by omega)

/-- Distinct slots do not overlap. -/
theorem slotAddr_disjoint (h : i < j) : slotAddr s c i + gSizeClasses c ≤ slotAddr s c j := by
  have hle : (i + 1) * gSizeClasses c ≤ j * gSizeClasses c := Nat.mul_le_mul_right _ h
  rw [Nat.add_mul] at hle
  unfold slotAddr
  omega

/-- Where the slabs lie: at pages, and no address in two of them. -/
structure Geom (slabs : List (Nat × Fin 10)) : Prop where
  aligned : ∀ s c, (s, c) ∈ slabs → pageSize ∣ s
  low     : ∀ s c, (s, c) ∈ slabs → pageSize ≤ s
  high    : ∀ s c, (s, c) ∈ slabs → s + slabLen c ≤ 2 ^ 64
  apart   : ∀ x ∈ slabs, ∀ y ∈ slabs, ∀ a, InSlab x a → InSlab y a → x = y

theorem Geom.dvd8 (g : Geom slabs) (hs : (s, c) ∈ slabs) : 8 ∣ s :=
  Dvd.dvd.trans (by decide) (g.aligned s c hs)

theorem inSlab_of_lt (h1 : s ≤ a) (h2 : a < s + pageSize) : InSlab (s, c) a :=
  ⟨h1, Nat.lt_of_lt_of_le h2 (Nat.add_le_add_left (pageSize_le_slabLen c) s)⟩

theorem inSlab_base (s : Nat) (c : Fin 10) : InSlab (s, c) s :=
  inSlab_of_lt (le_refl s) (Nat.lt_add_of_pos_right (by decide))

theorem inSlab_slot (hi : i < capacity c) : InSlab (s, c) (slotAddr s c i) := by
  obtain ⟨hlo, hhi, _⟩ := slotAddr_bounds hi
  exact inSlab_of_lt (by omega) hhi

theorem Geom.base_inj (g : Geom slabs) (hc : (s, c) ∈ slabs) (hd : (s, d) ∈ slabs) : c = d :=
  congrArg Prod.snd (g.apart _ hc _ hd s (inSlab_base s c) (inSlab_base s d))

/-- `kfree` finds the slab of a slot. -/
theorem Geom.slabOf_slot (g : Geom slabs) (hs : (s, c) ∈ slabs) (hi : i < capacity c) :
    slabOf (slotAddr s c i) = s := by
  obtain ⟨q, hq⟩ := g.aligned s c hs
  obtain ⟨hlo, hhi, _⟩ := slotAddr_bounds (s := s) hi
  unfold slabOf
  have hdiv : slotAddr s c i / pageSize = q := by
    apply Nat.div_eq_of_lt_le
    · rw [Nat.mul_comm]
      omega
    · rw [Nat.add_mul, Nat.mul_comm q]
      omega
  rw [hdiv, hq, Nat.mul_comm]

/-- The object start that `_slab_new` computes. -/
theorem Geom.objStart (ha : pageSize ∣ s) (hle : s + pageSize ≤ 2 ^ 64) :
    slabObjStart s = s + slabHdr := by
  unfold slabObjStart alignUp slabHdr u64 pageSize at *
  omega

/-! ## Section 2: The header word -/

/-- The word with the three counts of a slab. -/
def hdrWord (c : Fin 10) (used : Nat) : Nat :=
  gSizeClasses c + capacity c * 2 ^ 16 + used * 2 ^ 32

theorem field16_hdrWord (h : used < 2 ^ 16) :
    field16 (hdrWord c used) 0 = gSizeClasses c ∧ field16 (hdrWord c used) 1 = capacity c ∧
      field16 (hdrWord c used) 2 = used := by
  have hc := classOk c
  have h1 := hc.size_lt
  have h2 := hc.cap_lt
  unfold field16 hdrWord
  refine ⟨?_, ?_, ?_⟩ <;> omega

theorem setField16_used (h : used < 2 ^ 16) :
    setField16 (hdrWord c used) 2 v = hdrWord c (v % 2 ^ 16) := by
  unfold setField16
  rw [(field16_hdrWord h).2.2]
  unfold hdrWord
  omega

/-- The packed counts are not the magic number: its low bits are no object size. -/
theorem hdrWord_ne_magic (h : used < 2 ^ 16) : hdrWord c used ≠ largeAllocMagic := by
  intro heq
  have hsize := (field16_hdrWord (c := c) h).1
  rw [heq] at hsize
  have hno : ∀ c : Fin 10, field16 largeAllocMagic 0 ≠ gSizeClasses c := by decide
  exact hno c hsize

/-! ## Section 3: Views -/

/-- The slots of each slab that are free, in the order of its free list, and the
    slabs on the two lists of each cache, the partial (`false`) and the full one. -/
structure View where
  free  : Nat → List Nat
  lists : Fin 10 → Bool → List Nat

/-- The head of one of the two lists. -/
def SlabCache.head (cache : SlabCache) : Bool → Nat
  | false => cache.partialHead
  | true => cache.fullHead

/-- The header and the free list of a slab: `fr` are its free slots. -/
structure SlabRep (m : Mem) (s : Nat) (c : Fin 10) (fr : List Nat) : Prop where
  hdr   : m (s + 24) = hdrWord c (capacity c - fr.length)
  chain : Chain m (freelistOf m s) (fr.map (slotAddr s c))
  nodup : fr.Nodup
  range : ∀ i ∈ fr, i < capacity c
  clean : ∀ a, s + slabHdr ≤ a → a < s + slabHdr + capacity c * gSizeClasses c → 8 ∣ a →
    m a ≠ largeAllocMagic

theorem SlabRep.length_le (h : SlabRep m s c fr) : fr.length ≤ capacity c := by
  have hsub : fr ⊆ List.range (capacity c) := fun i hi => mem_range.mpr (h.range i hi)
  have := (subperm_of_subset h.nodup hsub).length_le
  simpa using this

theorem SlabRep.fields (h : SlabRep m s c fr) :
    objSizeOf m s = gSizeClasses c ∧ totalOf m s = capacity c ∧
      usedOf m s = capacity c - fr.length := by
  have hlt := (classOk c).cap_lt
  unfold objSizeOf totalOf usedOf
  rw [h.hdr]
  exact field16_hdrWord (by omega)

/-- A slab depends only on its bytes from the third word on. -/
theorem SlabRep.congr (h : SlabRep m s c fr)
    (hsame : ∀ a, s + 16 ≤ a → a < s + slabLen c → m' a = m a) : SlabRep m' s c fr := by
  have hc := classOk c
  have hfit := hc.slots_fit
  have hle := pageSize_le_slabLen c
  have hhdr : slabHdr = 32 := rfl
  refine ⟨?_, ?_, h.nodup, h.range, ?_⟩
  · rw [hsame _ (by omega) (by omega), h.hdr]
  · unfold freelistOf
    rw [hsame _ (by omega) (by omega)]
    apply h.chain.congr
    intro a ha
    obtain ⟨i, hi, rfl⟩ := mem_map.mp ha
    obtain ⟨hlo, hhi, _⟩ := slotAddr_bounds (s := s) (h.range i hi)
    exact hsame _ (by omega) (by omega)
  · intro a hlo hhi hdvd
    rw [hsame a (by omega) (by omega)]
    exact h.clean a hlo hhi hdvd

/-- Memory and the caches represent the view. -/
structure Rep (st : SlabState) (slabs : List (Nat × Fin 10)) (V : View) : Prop where
  slab     : ∀ s c, (s, c) ∈ slabs → SlabRep st.mem s c (V.free s)
  list     : ∀ c k, Dlist 8 st.mem 0 ((st.caches c).head k) (V.lists c k)
  member   : ∀ c k s, s ∈ V.lists c k → (s, c) ∈ slabs
  nodup    : ∀ c k, (V.lists c k).Nodup
  disjoint : ∀ c s, s ∈ V.lists c false → s ∉ V.lists c true

theorem Geom.apart_list (g : Geom slabs) (hl : ∀ s ∈ l, ∃ c, (s, c) ∈ slabs) : Apart 8 l := by
  intro a ha b hb
  obtain ⟨c, hc⟩ := hl a ha
  obtain ⟨d, hd⟩ := hl b hb
  obtain ⟨q, rfl⟩ := g.aligned a c hc
  obtain ⟨r, rfl⟩ := g.aligned b d hd
  unfold pageSize
  omega

/-! ## Section 4: Changing a representation -/

def View.setFree (V : View) (s : Nat) (fr : List Nat) : View :=
  { V with free := Function.update V.free s fr }

def View.setList (V : View) (c : Fin 10) (k : Bool) (l : List Nat) : View :=
  { V with lists := fun d j => if d = c ∧ j = k then l else V.lists d j }

def SlabCache.setHead (cache : SlabCache) (k : Bool) (v : Nat) : SlabCache :=
  if k then { cache with fullHead := v } else { cache with partialHead := v }

def SlabState.setHead (st : SlabState) (c : Fin 10) (k : Bool) (v : Nat) : SlabState :=
  st.setCache c ((st.caches c).setHead k v)

theorem SlabState.setHead_head (st : SlabState) (c d : Fin 10) (k j : Bool) (v : Nat) :
    ((st.setHead c k v).caches d).head j = if d = c ∧ j = k then v else (st.caches d).head j := by
  by_cases hd : d = c
  · subst hd
    cases k <;> cases j <;>
      simp [SlabState.setHead, SlabState.setCache, SlabCache.setHead, SlabCache.head]
  · simp [SlabState.setHead, SlabState.setCache, hd]

/-- Only memory and the list heads matter. -/
theorem Rep.of_same {st' : SlabState} (h : Rep st slabs V)
    (hmem : ∀ x ∈ slabs, ∀ a, InSlab x a → st'.mem a = st.mem a)
    (hhead : ∀ c k, (st'.caches c).head k = (st.caches c).head k) : Rep st' slabs V where
  slab s c hs := (h.slab s c hs).congr fun a _ hhi => hmem _ hs a ⟨by omega, hhi⟩
  list c k := by
    rw [hhead]
    apply (h.list c k).congr
    intro t ht
    have ht' := h.member c k t ht
    exact ⟨hmem _ ht' t (inSlab_base t c),
      hmem _ ht' _ (inSlab_of_lt (by omega) (Nat.add_lt_add_left (by decide) t))⟩
  member := h.member
  nodup := h.nodup
  disjoint := h.disjoint

/-- The words of the slab lists are the first two of the headers. -/
theorem Geom.list_word (g : Geom slabs) (hs : (s, c) ∈ slabs) (ht : (t, d) ∈ slabs)
    (hlo : t + 16 ≤ a) (hhi : a < t + slabLen d) : a ≠ s ∧ a ≠ s + 8 := by
  have hpage : pageSize = 4096 := rfl
  have hin : InSlab (t, d) a := ⟨by omega, hhi⟩
  have hword : ∀ b, s ≤ b → b < s + 16 → a ≠ b := by
    intro b hlo' hhi' hab
    have heq := g.apart _ ht _ hs a hin (inSlab_of_lt (by omega) (by omega))
    have hts : t = s := congrArg Prod.fst heq
    omega
  exact ⟨hword s (by omega) (by omega), hword (s + 8) (by omega) (by omega)⟩

section

variable (h : Rep st slabs V) (g : Geom slabs)
include h g

/-- A slab's bytes behind the two link words are rewritten. -/
theorem Rep.body (hs : (s, c) ∈ slabs)
    (hframe : ∀ a, a < s + 16 ∨ s + slabLen c ≤ a → m' a = st.mem a) (hrep : SlabRep m' s c fr) :
    Rep { st with mem := m' } slabs (V.setFree s fr) := by
  refine ⟨?_, ?_, h.member, h.nodup, h.disjoint⟩
  · intro t d ht
    by_cases hts : t = s
    · subst hts
      rw [g.base_inj ht hs]
      simpa [View.setFree] using hrep
    have hfree : (V.setFree s fr).free t = V.free t := by simp [View.setFree, hts]
    rw [hfree]
    apply (h.slab t d ht).congr
    intro a hlo hhi
    apply hframe
    by_contra hout
    have hin : s + 16 ≤ a ∧ a < s + slabLen c := by omega
    have heq := g.apart _ ht _ hs a ⟨by omega, hhi⟩ ⟨by omega, hin.2⟩
    exact hts (congrArg Prod.fst heq)
  intro d k
  apply (h.list d k).congr
  intro t ht
  have hword : ∀ a, (a = t ∨ a = t + 8) → m' a = st.mem a := by
    intro a ha
    apply hframe
    by_contra hin
    have hne := g.list_word (h.member d k t ht) hs (a := a) (by omega) (by omega)
    omega
  exact ⟨hword t (.inl rfl), hword (t + 8) (.inr rfl)⟩

/-- One of the slab lists is rewritten. -/
theorem Rep.relink (hbody : ∀ a, (∀ t d, (t, d) ∈ slabs → a ≠ t ∧ a ≠ t + 8) → m' a = st.mem a)
    (hother : ∀ d j, ¬ (d = c ∧ j = k) → ∀ t ∈ V.lists d j,
      m' t = st.mem t ∧ m' (t + 8) = st.mem (t + 8))
    (hlist : Dlist 8 m' 0 v l) (hmem : ∀ t ∈ l, (t, c) ∈ slabs) (hnodup : l.Nodup)
    (hdisj : ∀ t ∈ l, t ∉ V.lists c (!k)) :
    Rep ({ st with mem := m' }.setHead c k v) slabs (V.setList c k l) := by
  refine ⟨?_, ?_, ?_, ?_, ?_⟩
  · intro s d hs
    apply (h.slab s d hs).congr
    intro a hlo hhi
    exact hbody a fun t e ht => g.list_word ht hs hlo hhi
  · intro d j
    rw [SlabState.setHead_head]
    by_cases hdj : d = c ∧ j = k
    · simp only [View.setList, if_pos hdj]
      exact hlist
    · simp only [View.setList, if_neg hdj]
      exact (h.list d j).congr (hother d j hdj)
  · intro d j t ht
    by_cases hdj : d = c ∧ j = k
    · simp only [View.setList, if_pos hdj] at ht
      rw [hdj.1]
      exact hmem t ht
    · simp only [View.setList, if_neg hdj] at ht
      exact h.member d j t ht
  · intro d j
    by_cases hdj : d = c ∧ j = k
    · simp only [View.setList, if_pos hdj]
      exact hnodup
    · simp only [View.setList, if_neg hdj]
      exact h.nodup d j
  intro d t ht
  by_cases hd : d = c
  · subst hd
    cases k with
    | false =>
      simp only [View.setList] at ht ⊢
      exact hdisj t (by simpa using ht)
    | true =>
      simp only [View.setList] at ht ⊢
      intro htl
      exact hdisj t htl ht
  · simp only [View.setList, hd, false_and, if_false] at ht ⊢
    exact h.disjoint d t ht

/-- Slabs on different lists are different slabs. -/
theorem Rep.other_list {j : Bool} (hdj : ¬ (d = c ∧ j = k)) (hs : s ∈ V.lists c k)
    (ht : t ∈ V.lists d j) : t ≠ s := by
  rintro rfl
  have hdc : d = c := g.base_inj (h.member d j t ht) (h.member c k t hs)
  subst hdc
  cases k <;> cases j
  · exact hdj ⟨rfl, rfl⟩
  · exact h.disjoint d t hs ht
  · exact h.disjoint d t ht hs
  · exact hdj ⟨rfl, rfl⟩

end

/-- The link words of two slabs. -/
theorem Geom.link_words (g : Geom slabs) (hs : (s, c) ∈ slabs) (ht : (t, d) ∈ slabs) (hne : t ≠ s) :
    (t ≠ s ∧ t ≠ s + 8) ∧ (t + 8 ≠ s ∧ t + 8 ≠ s + 8) := by
  obtain ⟨q, rfl⟩ := g.aligned s c hs
  obtain ⟨r, rfl⟩ := g.aligned t d ht
  unfold pageSize at *
  omega

/-- **`_slab_list_push`** -/
theorem Rep.push (h : Rep st slabs V) (g : Geom slabs) (hs : (s, c) ∈ slabs)
    (hnot : ∀ j, s ∉ V.lists c j) :
    Rep ({ st with mem := (slabListPush st.mem ((st.caches c).head k) s).1 }.setHead c k
      (slabListPush st.mem ((st.caches c).head k) s).2) slabs
      (V.setList c k (s :: V.lists c k)) := by
  have hs0 : s ≠ 0 := by
    have := g.low s c hs
    have hpos : 0 < pageSize := by decide
    omega
  have hin : ∀ t ∈ s :: V.lists c k, (t, c) ∈ slabs := by
    exact forall_mem_cons.mpr ⟨hs, h.member c k⟩
  have hnodup : (s :: V.lists c k).Nodup := nodup_cons.mpr ⟨hnot k, h.nodup c k⟩
  apply h.relink g
  · intro a ha
    apply push_frame (ha s c hs).1 (ha s c hs).2
    intro hh
    exact (ha _ c (h.member c k _ ((h.list c k).head_mem hh))).2
  · intro d j hdj t ht
    have hts : t ≠ s := by
      rintro rfl
      rw [g.base_inj (h.member d j t ht) hs] at ht
      exact hnot j ht
    obtain ⟨⟨h1, h2⟩, h3, h4⟩ := g.link_words hs (h.member d j t ht) hts
    constructor
    · apply push_frame h1 h2
      intro hh
      have hmem := (h.list c k).head_mem hh
      exact (g.link_words (h.member c k _ hmem) (h.member d j t ht)
        (h.other_list g hdj hmem ht)).1.2
    apply push_frame h3 h4
    intro hh
    have hmem := (h.list c k).head_mem hh
    exact (g.link_words (h.member c k _ hmem) (h.member d j t ht)
      (h.other_list g hdj hmem ht)).2.2
  · exact (h.list c k).push hs0 hnodup (g.apart_list fun t ht => ⟨c, hin t ht⟩)
  · exact hin
  · exact hnodup
  intro t ht
  rcases mem_cons.mp ht with rfl | ht
  · exact hnot _
  · cases k with
    | false => exact h.disjoint c t ht
    | true => exact fun ht' => h.disjoint c t ht' ht

/-- **`_slab_list_remove`** -/
theorem Rep.remove (h : Rep st slabs V) (g : Geom slabs) (hs : s ∈ V.lists c k) :
    Rep ({ st with mem := (slabListRemove st.mem ((st.caches c).head k) s).1 }.setHead c k
      (slabListRemove st.mem ((st.caches c).head k) s).2) slabs
      (V.setList c k ((V.lists c k).erase s)) := by
  obtain ⟨l1, l2, hl⟩ := append_of_mem hs
  have hlist := h.list c k
  have hnodup := h.nodup c k
  have hin := h.member c k
  rw [hl] at hlist hnodup hin
  have hapart : Apart 8 (l1 ++ s :: l2) := g.apart_list fun t ht => ⟨c, hin t ht⟩
  have herase : (V.lists c k).erase s = l1 ++ l2 := by
    have hnot : s ∉ l1 := by
      intro hmem
      exact (nodup_append.mp hnodup).2.2 s hmem s (.head _) rfl
    rw [hl, erase_append_right _ hnot, erase_cons_head]
  have hsub : ∀ t ∈ l1 ++ l2, t ∈ l1 ++ s :: l2 := by
    intro t ht
    rcases mem_append.mp ht with ht | ht
    · exact mem_append_left _ ht
    · exact mem_append_right _ (.tail _ ht)
  rw [herase]
  apply h.relink g
  · intro a ha
    exact hlist.unlink_frame hnodup hapart fun b hb => ha b c (hin b hb)
  · intro d j hdj t ht
    have hwords : ∀ b ∈ l1 ++ s :: l2, (t ≠ b ∧ t ≠ b + 8) ∧ (t + 8 ≠ b ∧ t + 8 ≠ b + 8) := by
      intro b hb
      exact g.link_words (hin b hb) (h.member d j t ht)
        (h.other_list g hdj (by rw [hl]; exact hb) ht)
    exact ⟨hlist.unlink_frame hnodup hapart fun b hb => (hwords b hb).1,
      hlist.unlink_frame hnodup hapart fun b hb => (hwords b hb).2⟩
  · exact hlist.unlink hnodup hapart
  · exact fun t ht => hin t (hsub t ht)
  · exact ((nodup_middle.mp hnodup)).of_cons
  intro t ht
  have hmem : t ∈ V.lists c k := by
    rw [hl]
    exact hsub t ht
  cases k with
  | false => exact h.disjoint c t hmem
  | true => exact fun ht' => h.disjoint c t ht' hmem

/-! ## Section 5: Taking an object -/

/-- The slab list moves that `kmalloc` and `kfree` make, on views. -/
def View.move (V : View) (c : Fin 10) (s : Nat) (k : Bool) : View :=
  let V := V.setList c k ((V.lists c k).erase s)
  V.setList c (!k) (s :: V.lists c (!k))

/-- `kmalloc` takes the first free slot of `s`, `rest` are the others. -/
def View.take (V : View) (c : Fin 10) (s : Nat) (rest : List Nat) : View :=
  if rest = [] then (V.setFree s rest).move c s false else V.setFree s rest

theorem View.setList_self (V : View) (c : Fin 10) (k : Bool) (l : List Nat) :
    (V.setList c k l).lists c k = l := by
  simp [View.setList]

theorem View.setList_other (V : View) (c : Fin 10) (k : Bool) (l : List Nat) :
    (V.setList c k l).lists c (!k) = V.lists c (!k) := by
  cases k <;> simp [View.setList]

/-- **From one list to the other.** -/
theorem Rep.move (h : Rep st slabs V) (g : Geom slabs) (hs : s ∈ V.lists c k) :
    let r := slabListRemove st.mem ((st.caches c).head k) s
    let r' := slabListPush r.1 ((st.caches c).head (!k)) s
    Rep (({ st with mem := r'.1 }.setHead c k r.2).setHead c (!k) r'.2) slabs (V.move c s k) := by
  intro r r'
  have hs' := h.member c k s hs
  have h1 : Rep ({ st with mem := r.1 }.setHead c k r.2) slabs
      (V.setList c k ((V.lists c k).erase s)) := h.remove g hs
  have hhead : (({ st with mem := r.1 }.setHead c k r.2).caches c).head (!k) =
      (st.caches c).head (!k) := by
    rw [SlabState.setHead_head]
    cases k <;> simp
  have hnot : ∀ j, s ∉ (V.setList c k ((V.lists c k).erase s)).lists c j := by
    intro j
    by_cases hj : j = k
    · rw [hj, View.setList_self]
      exact (h.nodup c k).not_mem_erase
    obtain rfl : j = !k := by cases j <;> cases k <;> simp_all
    rw [View.setList_other]
    cases k with
    | false => exact h.disjoint c s hs
    | true => exact fun hmem => h.disjoint c s hmem hs
  have h2 := h1.push (k := !k) g hs' hnot
  rw [hhead] at h2
  exact h2

/-- One free slot less. -/
theorem SlabRep.take (h : SlabRep m s c (i :: rest)) :
    freelistOf m s = slotAddr s c i ∧ SlabRep (takeSlot m s (slotAddr s c i)) s c rest := by
  obtain ⟨hfirst, _, hchain⟩ := h.chain
  refine ⟨hfirst, ?_⟩
  have hlen := h.length_le
  have hlt := (classOk c).cap_lt
  have hold := h.hdr
  simp only [length_cons] at hlen hold
  unfold takeSlot
  generalize hm' : setFreelist m s (m (slotAddr s c i)) = m'
  have hhdr : m' (s + 24) = hdrWord c (capacity c - (rest.length + 1)) := by
    rw [← hold, ← hm']
    exact write_of_ne (by omega)
  have hused : usedOf m' s = capacity c - (rest.length + 1) := by
    unfold usedOf
    rw [hhdr]
    exact (field16_hdrWord (by omega)).2.2
  have hword : ∀ a, a ≠ s + 16 → a ≠ s + 24 → setField m' s 2 (usedOf m' s + 1) a = m a := by
    intro a h1 h2
    unfold setField
    rw [write_of_ne h2, ← hm']
    exact write_of_ne h1
  have hhdr' : slabHdr = 32 := rfl
  refine ⟨?_, ?_, h.nodup.of_cons, fun j hj => h.range j (.tail _ hj), ?_⟩
  · unfold setField
    rw [write_self, hhdr, setField16_used (by omega), hused]
    congr 1
    omega
  · have hlist : freelistOf (setField m' s 2 (usedOf m' s + 1)) s = m (slotAddr s c i) := by
      unfold freelistOf setField
      rw [write_of_ne (by omega), ← hm']
      exact write_self _ _ _
    rw [hlist]
    apply hchain.congr
    intro a ha
    obtain ⟨j, hj, rfl⟩ := mem_map.mp ha
    have hb := slotAddr_bounds (s := s) (h.range j (.tail _ hj))
    exact hword _ (by omega) (by omega)
  · intro a hlo hhi hdvd
    rw [hword a (by omega) (by omega)]
    exact h.clean a hlo hhi hdvd

/-- **`kmalloc`'s critical section** on a slab `s` that is first on the partial list. -/
theorem takeObject_rep {P : List Nat} (h : Rep st slabs V) (g : Geom slabs)
    (hP : V.lists c false = s :: P) (hfree : V.free s = i :: rest) :
    ∃ st', takeObject st c = (slotAddr s c i, st') ∧ st'.pmm = st.pmm ∧
      Rep st' slabs (V.take c s rest) := by
  have hs : (s, c) ∈ slabs := h.member c false s (by simp [hP])
  have hhead : (st.caches c).partialHead = s := by
    have hd := h.list c false
    rw [hP] at hd
    exact hd.head_eq
  have hslab := h.slab s c hs
  rw [hfree] at hslab
  obtain ⟨hobj, hrep⟩ := hslab.take
  unfold takeObject
  simp only [hhead, hobj]
  generalize hm2 : takeSlot st.mem s (slotAddr s c i) = m2 at hrep ⊢
  have hframe : ∀ a, a < s + 16 ∨ s + slabLen c ≤ a → m2 a = st.mem a := by
    intro a ha
    have hle := pageSize_le_slabLen c
    have hpage : pageSize = 4096 := rfl
    rw [← hm2]
    unfold takeSlot setField setFreelist
    rw [write_of_ne (by omega), write_of_ne (by omega)]
  have h1 : Rep { st with mem := m2 } slabs (V.setFree s rest) := h.body g hs hframe hrep
  obtain ⟨_, htotal, hused⟩ := hrep.fields
  have hcap := (classOk c).cap_pos
  rw [htotal, hused]
  by_cases hrest : rest = []
  · -- that was the last free slot
    have hfull : capacity c - rest.length = capacity c := by simp [hrest]
    rw [if_pos hfull]
    refine ⟨_, rfl, rfl, ?_⟩
    unfold View.take
    rw [if_pos hrest]
    have hmem : s ∈ (V.setFree s rest).lists c false := by
      change s ∈ V.lists c false
      simp [hP]
    have h2 := h1.move g hmem
    simp only [SlabCache.head, Bool.not_false, hhead] at h2
    refine h2.of_same (fun _ _ _ _ => rfl) ?_
    intro d k
    by_cases hd : d = c
    · subst hd
      cases k <;> simp [SlabState.setCache, SlabState.setHead, SlabCache.setHead, SlabCache.head]
    · simp [SlabState.setCache, SlabState.setHead, hd]
  have hfull : capacity c - rest.length ≠ capacity c := by
    have := length_pos_iff.mpr hrest
    omega
  rw [if_neg hfull]
  refine ⟨_, rfl, rfl, ?_⟩
  unfold View.take
  rw [if_neg hrest]
  refine h1.of_same (fun _ _ _ _ => rfl) ?_
  intro d k
  by_cases hd : d = c
  · subst hd
    cases k <;> simp [SlabState.setCache, SlabCache.head, hhead]
  · simp [SlabState.setCache, hd]

/-- **The section of `kmalloc` that installs a new slab.** -/
theorem installSlab_rep (h : Rep st slabs V) (g : Geom slabs) (hs : (s, c) ∈ slabs)
    (hnot : ∀ k, s ∉ V.lists c k) (hfree : V.free s = i :: rest) :
    ∃ st', installSlab st c s = (slotAddr s c i, st') ∧ st'.pmm = st.pmm ∧
      Rep st' slabs ((V.setList c false (s :: V.lists c false)).take c s rest) := by
  have h1 := h.push (k := false) g hs hnot
  have hfirst : (V.setList c false (s :: V.lists c false)).lists c false =
      s :: V.lists c false := View.setList_self _ _ _ _
  exact takeObject_rep h1 g hfirst hfree

/-! ## Section 6: Releasing an object -/

/-- `kfree` puts slot `i` back. -/
def View.put (V : View) (c : Fin 10) (s i : Nat) : View :=
  let W := V.setFree s (i :: V.free s)
  let W := if V.free s = [] then W.move c s true else W
  if (V.free s).length + 1 = capacity c then W.setList c false ((W.lists c false).erase s) else W

theorem slotAddr_dvd (c : Fin 10) (i : Nat) (hs : 8 ∣ s) : 8 ∣ slotAddr s c i := by
  have hd := (classOk c).dvd
  exact Nat.dvd_add (Nat.dvd_add hs (by decide)) (Dvd.dvd.mul_left hd i)

/-- The free list pointer is not the magic number, which is no multiple of 8. -/
theorem SlabRep.freelist_ne_magic (h : SlabRep m s c fr) (hs : 8 ∣ s) :
    freelistOf m s ≠ largeAllocMagic := by
  have hchain := h.chain
  intro heq
  cases fr with
  | nil =>
    have hz : freelistOf m s = 0 := hchain
    rw [hz] at heq
    exact absurd heq (by decide)
  | cons i rest =>
    have hfirst : freelistOf m s = slotAddr s c i := hchain.1
    have hd := slotAddr_dvd c i hs
    rw [← hfirst, heq] at hd
    exact absurd hd (by decide)

/-- One free slot more. -/
theorem SlabRep.put (h : SlabRep m s c fr) (hs : 8 ∣ s) (hi : i < capacity c) (hnot : i ∉ fr) :
    SlabRep (freeSlot m s (slotAddr s c i)) s c (i :: fr) := by
  simp only [freeSlot]
  generalize hm' : setFreelist (write m (slotAddr s c i) (freelistOf m s)) s (slotAddr s c i) = m'
  have hb := slotAddr_bounds (s := s) hi
  have hhdr' : slabHdr = 32 := rfl
  have hlt := (classOk c).cap_lt
  have hnodup : (i :: fr).Nodup := nodup_cons.mpr ⟨hnot, h.nodup⟩
  have hrange : ∀ j ∈ i :: fr, j < capacity c := by
    exact forall_mem_cons.mpr ⟨hi, h.range⟩
  -- one of the slots is not free, so the slab is not empty
  have hlen : fr.length + 1 ≤ capacity c := by
    have hsub : i :: fr ⊆ List.range (capacity c) := fun j hj => mem_range.mpr (hrange j hj)
    have := (subperm_of_subset hnodup hsub).length_le
    simpa using this
  have hhdr : m' (s + 24) = hdrWord c (capacity c - fr.length) := by
    rw [← h.hdr, ← hm']
    unfold setFreelist
    rw [write_of_ne (by omega), write_of_ne (by omega)]
  have hused : usedOf m' s = capacity c - fr.length := by
    unfold usedOf
    rw [hhdr]
    exact (field16_hdrWord (by omega)).2.2
  have hword : ∀ a, a ≠ s + 16 → a ≠ s + 24 → a ≠ slotAddr s c i →
      setField m' s 2 (usedOf m' s + 2 ^ 16 - 1) a = m a := by
    intro a h1 h2 h3
    unfold setField
    rw [write_of_ne h2, ← hm']
    unfold setFreelist
    rw [write_of_ne h1, write_of_ne h3]
  have hslot : setField m' s 2 (usedOf m' s + 2 ^ 16 - 1) (slotAddr s c i) = freelistOf m s := by
    unfold setField
    rw [write_of_ne (by omega), ← hm']
    unfold setFreelist
    rw [write_of_ne (by omega), write_self]
  refine ⟨?_, ?_, hnodup, hrange, ?_⟩
  · unfold setField
    have hcount : (capacity c - fr.length + 2 ^ 16 - 1) % 2 ^ 16 =
        capacity c - (fr.length + 1) := by omega
    rw [write_self, hhdr, setField16_used (by omega), hused, hcount, length_cons]
  · have hlist : freelistOf (setField m' s 2 (usedOf m' s + 2 ^ 16 - 1)) s = slotAddr s c i := by
      unfold freelistOf setField
      rw [write_of_ne (by omega), ← hm']
      exact write_self _ _ _
    rw [hlist]
    refine ⟨rfl, by omega, ?_⟩
    rw [hslot]
    apply h.chain.congr
    intro a ha
    obtain ⟨j, hj, rfl⟩ := mem_map.mp ha
    have hbj := slotAddr_bounds (s := s) (h.range j hj)
    apply hword _ (by omega) (by omega)
    intro heq
    rw [slotAddr_inj heq] at hj
    exact hnot hj
  intro a hlo hhi hdvd
  by_cases ha : a = slotAddr s c i
  · rw [ha, hslot]
    exact h.freelist_ne_magic hs
  · rw [hword a (by omega) (by omega) ha]
    exact h.clean a hlo hhi hdvd

/-- A slot is free again, its slab on the same list. -/
theorem Rep.freeSlot (h : Rep st slabs V) (g : Geom slabs) (hs : (s, c) ∈ slabs)
    (hi : i < capacity c) (hnot : i ∉ V.free s) :
    Rep { st with mem := freeSlot st.mem s (slotAddr s c i) } slabs
      (V.setFree s (i :: V.free s)) := by
  refine h.body g hs ?_ ((h.slab s c hs).put (g.dvd8 hs) hi hnot)
  intro a ha
  have hhdr : slabHdr = 32 := rfl
  have hfit := (classOk c).slots_fit
  have hb := slotAddr_bounds (s := s) hi
  have hsize := (classOk c).size_ge
  unfold Slab.freeSlot setField setFreelist
  rw [write_of_ne (by omega), write_of_ne (by omega), write_of_ne (by omega)]

/-- `was_full`: no slot is free. -/
theorem SlabRep.full_eq (h : SlabRep m s c fr) : (usedOf m s == totalOf m s) = fr.isEmpty := by
  obtain ⟨_, htotal, hused⟩ := h.fields
  have hlen := h.length_le
  rw [hused, htotal, Bool.eq_iff_iff, beq_iff_eq, List.isEmpty_iff, ← length_eq_zero_iff]
  omega

/-- A slab that was full goes to the partial list. -/
theorem refile_rep {full : Bool} (cache : SlabCache) (h : Rep st slabs V) (g : Geom slabs)
    (hcache : ∀ k, cache.head k = (st.caches c).head k) (hloc : s ∈ V.lists c full) :
    Rep ({ st with mem := (refile st.mem cache s full).1 }.setCache c
      (refile st.mem cache s full).2) slabs (if full then V.move c s true else V) ∧
    s ∈ (if full then V.move c s true else V).lists c false := by
  have hp : cache.partialHead = (st.caches c).partialHead := hcache false
  have hf : cache.fullHead = (st.caches c).fullHead := hcache true
  cases full with
  | true =>
    have h1 := h.move g hloc
    simp only [refile, if_true, hp, hf]
    refine ⟨h1.of_same (fun _ _ _ _ => rfl) ?_, by simp [View.move, View.setList]⟩
    intro d k
    by_cases hd : d = c
    · subst hd
      cases k <;> simp [SlabState.setCache, SlabState.setHead, SlabCache.setHead, SlabCache.head]
    · simp [SlabState.setCache, SlabState.setHead, hd]
  | false =>
    refine ⟨h.of_same (fun _ _ _ _ => rfl) ?_, hloc⟩
    intro d k
    by_cases hd : d = c
    · subst hd
      simpa [SlabState.setCache, refile] using hcache k
    · simp [SlabState.setCache, hd]

/-- **`kfree`'s critical section** on a live slot of a slab that is on the list where
    its number of free slots puts it. -/
theorem releaseObject_rep (h : Rep st slabs V) (g : Geom slabs) (hs : (s, c) ∈ slabs)
    (hi : i < capacity c) (hnot : i ∉ V.free s) (hloc : s ∈ V.lists c (V.free s).isEmpty) :
    ∃ st', releaseObject st (slotAddr s c i) = (st',
        if (V.free s).length + 1 = capacity c then some (s, slabPages (gSizeClasses c))
        else none) ∧ st'.pmm = st.pmm ∧ Rep st' slabs (V.put c s i) := by
  have hslab := h.slab s c hs
  have h1 := h.freeSlot g hs hi hnot
  unfold releaseObject
  simp only [g.slabOf_slot hs hi, hslab.fields.1, cacheOf_class, hslab.full_eq]
  generalize freeSlot st.mem s (slotAddr s c i) = m2 at h1 ⊢
  have hheads : ∀ k, SlabCache.head { st.caches c with
      totalFrees := (st.caches c).totalFrees + 1 } k = (st.caches c).head k :=
    fun k => by cases k <;> rfl
  generalize { st.caches c with totalFrees := (st.caches c).totalFrees + 1 } = cache at hheads ⊢
  obtain ⟨h2, hmem⟩ := refile_rep cache h1 g hheads hloc
  unfold View.put
  simp only [← List.isEmpty_iff]
  generalize hW : (if (V.free s).isEmpty = true then
    (V.setFree s (i :: V.free s)).move c s true else V.setFree s (i :: V.free s)) = W at h2 hmem ⊢
  have hfree : W.free s = i :: V.free s := by
    rw [← hW]
    split <;> simp [View.move, View.setList, View.setFree]
  generalize refile m2 cache s (V.free s).isEmpty = r at h2 ⊢
  have hfields := (h2.slab s c hs).fields
  rw [hfree] at hfields
  have hused' : usedOf r.1 s = capacity c - ((V.free s).length + 1) := hfields.2.2
  by_cases hz : (V.free s).length + 1 = capacity c
  · -- the slab is empty now and leaves its list
    rw [if_pos (by omega), if_pos hz, if_pos hz]
    have h3 := h2.remove g hmem
    have hhead : (({ st with mem := r.1 }.setCache c r.2).caches c).head false =
        r.2.partialHead := by simp [SlabState.setCache, SlabCache.head]
    rw [hhead] at h3
    have hsize := (h3.slab s c hs).fields.1
    have hsize' : objSizeOf (slabListRemove r.1 r.2.partialHead s).1 s = gSizeClasses c := hsize
    have hpages : 0 < slabPages (gSizeClasses c) := by
      rcases (classOk c).pages with hp | hp <;> omega
    rw [hsize', if_pos hpages]
    refine ⟨_, rfl, rfl, h3.of_same (fun _ _ _ _ => rfl) ?_⟩
    intro d k
    by_cases hd : d = c
    · subst hd
      cases k <;> simp [SlabState.setCache, SlabState.setHead, SlabCache.setHead, SlabCache.head]
    · simp [SlabState.setCache, SlabState.setHead, hd]
  have hlt : (V.free s).length + 1 ≤ capacity c := by
    have := (h2.slab s c hs).length_le
    rw [hfree] at this
    simpa using this
  rw [if_neg (by omega), if_neg hz, if_neg hz]
  exact ⟨_, rfl, rfl, h2⟩

/-! ## Section 7: New slabs -/

section LinkSlots

variable {m : Mem} {start size total : Nat}

/-- Words that are no slots are left alone by the loop of `_slab_new`. -/
theorem linkSlots_other {a : Nat} (k : Nat) (h : ∀ i < k, a ≠ start + i * size) :
    (List.range k).foldl (fun m i => write m (start + i * size)
      (if i + 1 < total then start + (i + 1) * size else 0)) m a = m a := by
  induction k with
  | zero => rfl
  | succ k ih =>
    rw [range_succ, foldl_append]
    simp only [foldl_cons, foldl_nil]
    rw [write_of_ne (h k (by omega)), ih fun i hi => h i (by omega)]

/-- Every slot is linked to the next one. -/
theorem linkSlots_slot (hsize : 0 < size) (k : Nat) {i : Nat} (hi : i < k) :
    (List.range k).foldl (fun m i => write m (start + i * size)
      (if i + 1 < total then start + (i + 1) * size else 0)) m (start + i * size) =
        if i + 1 < total then start + (i + 1) * size else 0 := by
  induction k with
  | zero => omega
  | succ k ih =>
    rw [range_succ, foldl_append]
    simp only [foldl_cons, foldl_nil]
    by_cases hik : i = k
    · rw [hik, write_self]
    have hne : start + i * size ≠ start + k * size := by
      intro heq
      exact hik (Nat.eq_of_mul_eq_mul_right hsize (by omega))
    rw [write_of_ne hne]
    exact ih (by omega)

/-- The slots from `j` on form a chain. -/
theorem linkSlots_chain (hsize : 0 < size) (hstart : start ≠ 0) (n : Nat) : ∀ j, j + n = total →
      Chain (linkSlots m start size total) (if j < total then start + j * size else 0)
        ((range' j n).map fun i => start + i * size) := by
  induction n with
  | zero =>
    intro j hj
    rw [if_neg (by omega)]
    rfl
  | succ n ih =>
    intro j hj
    rw [if_pos (by omega), range'_succ, map_cons]
    refine ⟨rfl, by omega, ?_⟩
    have hslot : linkSlots m start size total (start + j * size) =
        if j + 1 < total then start + (j + 1) * size else 0 := linkSlots_slot hsize total (by omega)
    rw [hslot]
    exact ih (j + 1) (by omega)

end LinkSlots

/-- The header word that `_slab_new` builds on a cleared page. -/
theorem initSlab_hdr (c : Fin 10) :
    setField16 (setField16 (setField16 0 0 (gSizeClasses c)) 1 (capacity c)) 2 0 = hdrWord c 0 := by
  have h1 := (classOk c).size_lt
  have h2 := (classOk c).cap_lt
  have hfirst : setField16 (setField16 0 0 (gSizeClasses c)) 1 (capacity c) = hdrWord c 0 := by
    unfold setField16 field16 hdrWord
    omega
  rw [hfirst, setField16_used (by omega), Nat.zero_mod]

/-- **`_slab_new`** on cleared pages: all slots are free, in order. -/
theorem initSlab_rep (c : Fin 10) (ha : pageSize ∣ s) (hhi : s + slabLen c ≤ 2 ^ 64)
    (hclear : ∀ a, InSlab (s, c) a → m a = 0) :
    SlabRep (initSlab m s (gSizeClasses c) (capacity c)) s c (List.range (capacity c)) ∧
    ∀ a, ¬ InSlab (s, c) a → initSlab m s (gSizeClasses c) (capacity c) a = m a := by
  have hc := classOk c
  have hsize : 0 < gSizeClasses c := by
    have := hc.size_ge
    omega
  have hle := pageSize_le_slabLen c
  have hhdr : slabHdr = 32 := rfl
  have hfit := hc.slots_fit
  have h8 : 8 ∣ s := Dvd.dvd.trans (by decide) ha
  have hin : ∀ k, k < slabLen c → m (s + k) = 0 := fun k hk => hclear _ ⟨by omega, by
    change s + k < s + slabLen c
    omega⟩
  unfold initSlab
  simp only [Geom.objStart ha (by omega)]
  -- the memory when the loop begins: only the header is written
  generalize hm1 : setFreelist (write (write (setField (setField (setField m s 0
    (gSizeClasses c)) s 1 (capacity c)) s 2 0) (s + 8) 0) s 0) s (s + slabHdr) = m1
  have hword : m1 (s + 24) = hdrWord c 0 := by
    rw [← hm1, ← initSlab_hdr]
    unfold setFreelist setField
    rw [write_of_ne (by omega), write_of_ne (by omega), write_of_ne (by omega)]
    simp only [write_self, hin 24 (by omega)]
  have hlist : m1 (s + 16) = s + slabHdr := by
    rw [← hm1]
    exact write_self _ _ _
  have hrest : ∀ a, a < s ∨ s + slabHdr ≤ a → m1 a = m a := by
    intro a ha
    rw [← hm1]
    unfold setFreelist setField
    rw [write_of_ne (by omega), write_of_ne (by omega), write_of_ne (by omega),
      write_of_ne (by omega), write_of_ne (by omega), write_of_ne (by omega)]
  have htotal : totalOf m1 s = capacity c := by
    unfold totalOf
    rw [hword]
    exact (field16_hdrWord (by decide)).2.1
  rw [htotal]
  have hother : ∀ a, (∀ i < capacity c, a ≠ slotAddr s c i) →
      linkSlots m1 (s + slabHdr) (gSizeClasses c) (capacity c) a = m1 a :=
    fun a ha => linkSlots_other _ ha
  have hslots : ∀ a, a < s + slabHdr → ∀ i < capacity c, a ≠ slotAddr s c i := by
    intro a ha i hi
    have := (slotAddr_bounds (s := s) hi).1
    omega
  constructor
  · refine ⟨?_, ?_, nodup_range, fun i hi => mem_range.mp hi, ?_⟩
    · rw [hother _ (hslots _ (by omega)), hword, length_range, Nat.sub_self]
    · have hfl : freelistOf (linkSlots m1 (s + slabHdr) (gSizeClasses c) (capacity c)) s =
          s + slabHdr := by
        unfold freelistOf
        rw [hother _ (hslots _ (by omega)), hlist]
      have hchain := linkSlots_chain (m := m1) hsize (by omega : s + slabHdr ≠ 0) (capacity c) 0
        (Nat.zero_add _)
      rw [if_pos hc.cap_pos, Nat.zero_mul, Nat.add_zero, ← range_eq_range'] at hchain
      rw [hfl]
      exact hchain
    intro a hlo hhi hdvd
    by_cases hslot : ∃ i < capacity c, a = slotAddr s c i
    · obtain ⟨i, hi, rfl⟩ := hslot
      have hval : linkSlots m1 (s + slabHdr) (gSizeClasses c) (capacity c) (slotAddr s c i) =
          if i + 1 < capacity c then slotAddr s c (i + 1) else 0 := linkSlots_slot hsize _ hi
      rw [hval]
      intro hmagic
      have hd : 8 ∣ largeAllocMagic := by
        rw [← hmagic]
        split
        · exact slotAddr_dvd c (i + 1) h8
        · exact Nat.dvd_zero 8
      exact absurd hd (by decide)
    rw [hother a fun i hi heq => hslot ⟨i, hi, heq⟩, hrest a (.inr hlo)]
    have hzero : m a = 0 := hclear a ⟨by omega, by
      change a < s + slabLen c
      omega⟩
    rw [hzero]
    decide
  intro a hout
  have hout' : a < s ∨ s + slabLen c ≤ a := by
    by_contra hin'
    exact hout ⟨by omega, by
      change a < s + slabLen c
      omega⟩
  rw [hother a, hrest a (by omega)]
  intro i hi
  have := slotAddr_bounds (s := s) hi
  omega

end Cervus.Slab
