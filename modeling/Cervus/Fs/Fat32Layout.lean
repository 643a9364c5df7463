import Mathlib.Order.Interval.Finset.Nat
import Cervus.Fs.Fat32Cache
import Cervus.Fs.Fat32File

/-! # FAT32: the clusters of a file

    A file is a list of clusters, linked in the table (`Chain`), and the bytes in them
    (`Layout`). The chain grows at its end: a cluster that is appended is zero, or its contents do
    not matter because it is about to be written as a whole. -/

namespace Cervus.Fat32

open List Nat Finset

/-! ## Section 1: Sectors of clusters -/

section

variable {g : Geometry} {fs fs' : Fs}

/-- The clusters of a volume. -/
def IsCluster (g : Geometry) (c : Nat) : Prop := 2 ≤ c ∧ c < g.totalClusters + 2

variable {c o j n : Nat} {buf : Bytes}

theorem Sound.bytesPerCluster_pos (hg : Sound g) : 0 < g.bytesPerCluster :=
  Nat.mul_pos (by decide) hg.sectors

/-- The sector of a byte of a cluster. -/
theorem sector_lt (ho : o < g.bytesPerCluster) : o / sectorSize < g.sectorsPerCluster :=
  Nat.div_lt_of_lt_mul ho

/-- The sectors of two clusters are in the order of the clusters. -/
theorem sector_le {a b : Nat} (hab : a < b) {spc x : Nat} (hx : x < spc) :
    a * spc + x < b * spc := by
  calc a * spc + x < a * spc + spc := by omega
    _ = (a + 1) * spc := (succ_mul a spc).symm
    _ ≤ b * spc := Nat.mul_le_mul_right _ hab

section

variable (hg : Sound g) (hc : IsCluster g c)
include hg hc

theorem IsCluster.inTable : InTable g c := hg.inTable hc.2

/-- Where a byte of a cluster is. -/
theorem readCluster_apply (fs : Fs) (o : Nat) :
    readCluster g fs c o = fs.disk (g.firstDataSector + (c - 2) * g.sectorsPerCluster +
      o / sectorSize) (o % sectorSize) := by
  rw [readCluster, readSectors, hg.clusterToLba_eq hc.1 hc.2]

theorem readCluster_congr (hdisk : ∀ l, ¬ InFats g l → fs'.disk l = fs.disk l) :
    readCluster g fs' c = readCluster g fs c := by
  funext o
  rw [readCluster_apply hg hc, readCluster_apply hg hc, hdisk]
  have hlba := hg.clusterToLba_eq hc.1 hc.2
  apply hg.not_inFats_cluster hc.1 hc.2
  rw [hlba]
  exact Nat.le_add_right _ _

/-- A byte of a run of clusters that start at `c`. -/
theorem readCluster_add (hj : IsCluster g (c + j)) (fs : Fs) (o : Nat) :
    readCluster g fs (c + j) o =
      readSectors fs.disk (clusterToLba g c) (j * g.bytesPerCluster + o) := by
  have hmul : j * g.bytesPerCluster + o = sectorSize * (j * g.sectorsPerCluster) + o := by
    unfold Geometry.bytesPerCluster
    rw [Nat.mul_left_comm]
  have hdiv : (j * g.bytesPerCluster + o) / sectorSize =
      j * g.sectorsPerCluster + o / sectorSize := by
    rw [hmul, mul_add_div (by decide)]
  have hmod : (j * g.bytesPerCluster + o) % sectorSize = o % sectorSize := by
    rw [hmul, mul_add_mod]
  have hsub : c + j - 2 = c - 2 + j := by
    have h2 := hc.1
    omega
  rw [readCluster_apply hg hj, readSectors, hg.clusterToLba_eq hc.1 hc.2, hdiv, hmod, hsub,
    Nat.add_mul, Nat.add_assoc, Nat.add_assoc, Nat.add_assoc]

/-- Writing `n` clusters from `c` on leaves the others as they are. -/
theorem readCluster_writeSectors_of_ne {d : Nat} (hd : IsCluster g d) (hne : d < c ∨ c + n ≤ d)
    (ho : o < g.bytesPerCluster)
    (hdisk : fs'.disk = writeSectors fs.disk (clusterToLba g c) (n * g.sectorsPerCluster) buf) :
    readCluster g fs' d o = readCluster g fs d o := by
  have hsec := sector_lt ho
  have h2 := hc.1
  have h2' := hd.1
  rw [readCluster_apply hg hd, readCluster_apply hg hd, hdisk, writeSectors,
    hg.clusterToLba_eq hc.1 hc.2, if_neg]
  generalize o / sectorSize = x at hsec
  rcases hne with hlt | hge
  · have hbelow := sector_le (show d - 2 < c - 2 by omega) hsec
    omega
  have habove : (c - 2 + n) * g.sectorsPerCluster ≤ (d - 2) * g.sectorsPerCluster :=
    Nat.mul_le_mul_right _ (by omega)
  rw [Nat.add_mul] at habove
  omega

/-- The clusters that are written hold the buffer. -/
theorem readCluster_writeSectors (hj : IsCluster g (c + j)) (hjn : j < n)
    (ho : o < g.bytesPerCluster)
    (hdisk : fs'.disk = writeSectors fs.disk (clusterToLba g c) (n * g.sectorsPerCluster) buf) :
    readCluster g fs' (c + j) o = buf (j * g.bytesPerCluster + o) := by
  have hsec := sector_lt ho
  have h2 := hc.1
  have hin := sector_le hjn hsec
  have hsub : c + j - 2 = c - 2 + j := by omega
  have hoff : g.firstDataSector + (c - 2 + j) * g.sectorsPerCluster + o / sectorSize -
      (g.firstDataSector + (c - 2) * g.sectorsPerCluster) =
      j * g.sectorsPerCluster + o / sectorSize := by
    rw [Nat.add_mul, Nat.add_assoc, Nat.add_assoc, Nat.add_sub_add_left, Nat.add_sub_cancel_left]
  rw [readCluster_apply hg hj, hdisk, writeSectors, hg.clusterToLba_eq hc.1 hc.2, hsub, if_pos]
  · rw [hoff]
    congr 1
    unfold Geometry.bytesPerCluster
    rw [Nat.add_mul, Nat.mul_left_comm j, Nat.mul_comm (j * g.sectorsPerCluster), Nat.add_assoc,
      Nat.mul_comm (o / sectorSize), div_add_mod]
  · rw [Nat.add_mul]
    omega

end

end

/-! ## Section 2: Free clusters -/

section

variable {g : Geometry} {t : Table}

/-- The free clusters of a table. -/
def freeSet (g : Geometry) (t : Table) : Finset Nat :=
  (Finset.Ico 2 (g.totalClusters + 2)).filter fun c => t.get c = 0

variable {c start : Nat}

theorem mem_freeSet : c ∈ freeSet g t ↔ IsCluster g c ∧ t.get c = 0 := by
  rw [freeSet, Finset.mem_filter, mem_Ico]
  exact Iff.rfl

/-- An entry that is written with something else than zero is not free. -/
theorem freeSet_set {v : Nat} (hv : v % 2 ^ 28 ≠ 0) :
    freeSet g (t.set c v) = (freeSet g t).erase c := by
  ext x
  rw [mem_erase, mem_freeSet, mem_freeSet]
  by_cases hx : x = c
  · subst hx
    rw [Table.get_set_self]
    exact iff_of_false (fun h => hv h.2) (fun h => h.1 rfl)
  · rw [Table.get_set_of_ne hx]
    exact ⟨fun h => ⟨hx, h⟩, fun h => h.2⟩

/-- Every cluster is tried. -/
theorem exists_candidate (hg : Sound g) (hstart : start ≤ g.totalClusters + 2)
    (hc : IsCluster g c) :
    ∃ i < g.totalClusters, candidate g start i = c := by
  have hlow := hc.1
  have hhigh := hc.2
  have hnum := hg.numbers
  have hdiv := div_add_mod (start - 2) g.totalClusters
  unfold candidate
  by_cases hle : (start - 2) % g.totalClusters ≤ c - 2
  · refine ⟨c - 2 - (start - 2) % g.totalClusters, by omega, ?_⟩
    have hsum : start - 2 + (c - 2 - (start - 2) % g.totalClusters) =
        c - 2 + g.totalClusters * ((start - 2) / g.totalClusters) := by omega
    rw [u32_of_lt (by omega), hsum, add_mul_mod_self_left, mod_eq_of_lt (by omega)]
    omega
  refine ⟨c - 2 + g.totalClusters - (start - 2) % g.totalClusters, by omega, ?_⟩
  have hsum : start - 2 + (c - 2 + g.totalClusters - (start - 2) % g.totalClusters) =
      c - 2 + g.totalClusters + g.totalClusters * ((start - 2) / g.totalClusters) := by omega
  rw [u32_of_lt (by omega), hsum, add_mul_mod_self_left, add_mod_right, mod_eq_of_lt (by omega)]
  omega

/-- If there is a free cluster, the search finds one. -/
theorem firstFree_of_nonempty (hg : Sound g) (hstart : start ≤ g.totalClusters + 2)
    (h : (freeSet g t).Nonempty) : ∃ c, t.firstFree g start = some c := by
  obtain ⟨c, hc⟩ := h
  obtain ⟨hcl, hfree⟩ := mem_freeSet.mp hc
  obtain ⟨i, hi, hcand⟩ := exists_candidate hg hstart hcl
  refine Option.isSome_iff_exists.mp ?_
  rw [Table.firstFree, find?_isSome]
  exact ⟨c, List.mem_map.mpr ⟨i, List.mem_range.mpr hi, hcand⟩, decide_eq_true hfree⟩

end

/-! ## Section 3: Chains -/

/-- The clusters are linked in the table, in this order, and the last one is an end. -/
structure Chain (g : Geometry) (t : Table) (cs : List Nat) : Prop where
  cluster : ∀ c ∈ cs, IsCluster g c
  nodup   : cs.Nodup
  link    : ∀ k c d, cs[k]? = some c → cs[k + 1]? = some d → t.get c = d
  last    : ∀ k c, cs[k]? = some c → cs[k + 1]? = none → eocMin ≤ t.get c

/-- Cluster numbers are below the marks for the end of a chain. -/
def Numbered (g : Geometry) : Prop := g.totalClusters + 2 ≤ eocMin

section

variable {g : Geometry} {t : Table} {cs : List Nat}

theorem isEoc_iff {v : Nat} (hv : v < 2 ^ 28) : isEoc v = true ↔ eocMin ≤ v := by
  unfold isEoc
  rw [and_clusterMask, mod_eq_of_lt hv, decide_eq_true_iff]

variable {c : Nat}

theorem IsCluster.not_isEoc (hn : Numbered g) (hc : IsCluster g c) : isEoc c = false := by
  have hlt := hc.2
  have hmax : eocMin < 2 ^ 28 := by decide
  unfold Numbered at hn
  rw [Bool.eq_false_iff, Ne, isEoc_iff (by omega)]
  omega

/-- A loop over a chain does not stop at a cluster. -/
theorem IsCluster.not_end (hn : Numbered g) (hc : IsCluster g c) : ¬ (isEoc c = true ∨ c < 2) := by
  rintro (heoc | hlow)
  · rw [hc.not_isEoc hn] at heoc
    cases heoc
  · exact absurd hc.1 (Nat.not_le.mpr hlow)

theorem Chain.isCluster (h : Chain g t cs) {k : Nat} (hk : cs[k]? = some c) : IsCluster g c :=
  h.cluster c (mem_of_getElem? hk)

/-- A free cluster is in no chain. -/
theorem Chain.not_mem_of_free (h : Chain g t cs) (hfree : t.get c = 0) : c ∉ cs := by
  intro hmem
  obtain ⟨k, hk, hkc⟩ := getElem_of_mem hmem
  have hk' : cs[k]? = some c := by rw [List.getElem?_eq_getElem hk, hkc]
  cases hnext : cs[k + 1]? with
  | none =>
    have hge := h.last k c hk' hnext
    rw [hfree] at hge
    exact absurd hge (by decide)
  | some d =>
    have hd := h.link k c d hk' hnext
    have hd2 := (h.isCluster hnext).1
    omega

/-- A chain at whose end a cluster is appended. -/
theorem Chain.append (h : Chain g t cs) (hn : Numbered g) {last : Nat}
    (hlast : cs[cs.length - 1]? = some last) (hc : IsCluster g c) (hfree : t.get c = 0) :
    Chain g ((t.set c eoc).set last c) (cs ++ [c]) := by
  have hmax : eocMin < 2 ^ 28 := by decide
  have hclt := hc.2
  unfold Numbered at hn
  have hnot := h.not_mem_of_free hfree
  have hne : last ≠ c := fun heq => hnot (heq ▸ mem_of_getElem? hlast)
  -- the table after the two writes
  have hgetc : ((t.set c eoc).set last c).get c = eoc := by
    rw [Table.get_set_of_ne hne.symm, Table.get_set_self]
    rfl
  have hgetlast : ((t.set c eoc).set last c).get last = c := by
    rw [Table.get_set_self, mod_eq_of_lt (by omega)]
  have hgetold : ∀ x, x ≠ last → x ≠ c → ((t.set c eoc).set last c).get x = t.get x := by
    intro x hxl hxc
    rw [Table.get_set_of_ne hxl, Table.get_set_of_ne hxc]
  refine ⟨?_, ?_, ?_, ?_⟩
  · intro x hx
    rcases mem_append.mp hx with hold | hnew
    · exact h.cluster x hold
    · rw [List.mem_singleton.mp hnew]
      exact hc
  · rw [nodup_append]
    refine ⟨h.nodup, nodup_singleton c, fun x hx y hy => ?_⟩
    rw [List.mem_singleton.mp hy]
    rintro rfl
    exact hnot hx
  · intro k x y hx hy
    have hk : k < cs.length := by
      have hlt := (List.getElem?_eq_some_iff.mp hy).1
      rw [length_append, length_singleton] at hlt
      omega
    rw [List.getElem?_append_left hk] at hx
    by_cases hk' : k + 1 < cs.length
    · rw [List.getElem?_append_left hk'] at hy
      rw [hgetold x, h.link k x y hx hy]
      · -- the last cluster is at the end only
        intro heq
        have hsame : k = cs.length - 1 := by
          rw [heq, ← hlast] at hx
          exact (List.getElem?_inj hk h.nodup).mp hx
        omega
      · intro heq
        exact hnot (heq ▸ mem_of_getElem? hx)
    have hkl : k = cs.length - 1 := by omega
    have hxl : x = last := by
      rw [hkl, hlast] at hx
      exact (Option.some.inj hx).symm
    have hyc : y = c := by
      have hlen : k + 1 = cs.length := by omega
      rw [hlen, List.getElem?_append_right (le_rfl), Nat.sub_self] at hy
      exact (Option.some.inj hy).symm
    rw [hxl, hyc, hgetlast]
  intro k x hx hnone
  have hk : k = cs.length := by
    have hge := List.getElem?_eq_none_iff.mp hnone
    have hlt := (List.getElem?_eq_some_iff.mp hx).1
    rw [length_append, length_singleton] at hge hlt
    omega
  rw [hk, List.getElem?_append_right (le_rfl), Nat.sub_self] at hx
  have hxc : x = c := (Option.some.inj hx).symm
  rw [hxc, hgetc]
  decide

/-- One cluster, which was free. -/
theorem Chain.singleton (hc : IsCluster g c) : Chain g (t.set c eoc) [c] where
  cluster x hx := by
    rw [List.mem_singleton.mp hx]
    exact hc
  nodup := nodup_singleton c
  link k x y _ hy := by
    cases hy
  last k x hx _ := by
    obtain rfl : x = c := List.mem_singleton.mp (mem_of_getElem? hx)
    rw [Table.get_set_self]
    decide

end

/-! ## Section 4: The bytes of a chain -/

/-- The array that the clusters of a chain make up, with zeros behind them. -/
def contents (g : Geometry) (fs : Fs) (cs : List Nat) : Bytes :=
  flat g.bytesPerCluster fun k =>
    match cs[k]? with
    | some c => readCluster g fs c
    | none => fun _ => 0

section

variable {g : Geometry} {fs fs' : Fs} {cs : List Nat}

variable {k o c : Nat}

theorem flat_mul_add {bs : Nat} {blk : Nat → Bytes} (ho : o < bs) :
    flat bs blk (k * bs + o) = blk k o := by
  rw [flat, Nat.mul_comm, mul_add_div (by omega), mul_add_mod, div_eq_of_lt ho,
    mod_eq_of_lt ho, Nat.add_zero]

theorem contents_apply (hk : cs[k]? = some c) (ho : o < g.bytesPerCluster) :
    contents g fs cs (k * g.bytesPerCluster + o) = readCluster g fs c o := by
  rw [contents, flat_mul_add ho, hk]

theorem contents_of_none (hk : cs[k]? = none) (ho : o < g.bytesPerCluster) :
    contents g fs cs (k * g.bytesPerCluster + o) = 0 := by
  rw [contents, flat_mul_add ho, hk]

theorem ext_clusters (hg : Sound g) {b b' : Bytes} (h : ∀ k, ∀ o < g.bytesPerCluster,
    b (k * g.bytesPerCluster + o) = b' (k * g.bytesPerCluster + o)) : b = b' := by
  funext i
  rw [← div_add_mod' i g.bytesPerCluster]
  exact h _ _ (mod_lt _ hg.bytesPerCluster_pos)

theorem contents_congr (hg : Sound g) (h : ∀ c ∈ cs, ∀ o < g.bytesPerCluster,
    readCluster g fs' c o = readCluster g fs c o) : contents g fs' cs = contents g fs cs := by
  refine ext_clusters hg fun k o ho => ?_
  cases hk : cs[k]? with
  | none => rw [contents_of_none hk ho, contents_of_none hk ho]
  | some c =>
    rw [contents_apply hk ho, contents_apply hk ho]
    exact h c (mem_of_getElem? hk) o ho

/-- A cluster at the end changes nothing before it and nothing behind it. -/
theorem contents_append (hg : Sound g)
    (h : ∀ d ∈ cs, ∀ o < g.bytesPerCluster, readCluster g fs' d o = readCluster g fs d o) :
    SameOutside (cs.length * g.bytesPerCluster) ((cs.length + 1) * g.bytesPerCluster)
      (contents g fs' (cs ++ [c])) (contents g fs cs) := by
  intro i hi
  have hpos := hg.bytesPerCluster_pos
  have hmod := mod_lt i hpos
  rw [← div_add_mod' i g.bytesPerCluster] at hi ⊢
  generalize i / g.bytesPerCluster = k at hi ⊢
  generalize i % g.bytesPerCluster = o at hi hmod ⊢
  have hk : k < cs.length ∨ cs.length < k := by
    rcases hi with hlow | hhigh
    · left
      by_contra hge
      have hmul := Nat.mul_le_mul_right g.bytesPerCluster (Nat.not_lt.mp hge)
      omega
    right
    by_contra hle
    have hmul := Nat.mul_le_mul_right g.bytesPerCluster (Nat.not_lt.mp hle)
    rw [succ_mul] at hhigh
    omega
  rcases hk with hlt | hgt
  · have hget := List.getElem?_eq_getElem hlt
    have hget' : (cs ++ [c])[k]? = some cs[k] := by
      rw [List.getElem?_append_left hlt, hget]
    rw [contents_apply hget' hmod, contents_apply hget hmod]
    exact h _ (getElem_mem hlt) o hmod
  have hnone : (cs ++ [c])[k]? = none := by
    apply List.getElem?_eq_none
    rw [length_append, length_singleton]
    omega
  rw [contents_of_none hnone hmod, contents_of_none (List.getElem?_eq_none (by omega)) hmod]

theorem contents_append_zero (hg : Sound g)
    (h : ∀ d ∈ cs, ∀ o < g.bytesPerCluster, readCluster g fs' d o = readCluster g fs d o)
    (hzero : ∀ o < g.bytesPerCluster, readCluster g fs' c o = 0) :
    contents g fs' (cs ++ [c]) = contents g fs cs := by
  refine ext_clusters hg fun k o ho => ?_
  by_cases hk : k = cs.length
  · have hget : (cs ++ [c])[k]? = some c := by
      rw [hk, List.getElem?_append_right (le_rfl), Nat.sub_self]
      rfl
    rw [contents_apply hget ho, hzero o ho,
      contents_of_none (List.getElem?_eq_none (Nat.le_of_eq hk.symm)) ho]
  apply contents_append hg h
  rcases Nat.lt_or_gt_of_ne hk with hlt | hgt
  · left
    have hmul := Nat.mul_le_mul_right g.bytesPerCluster (succ_le_of_lt hlt)
    rw [succ_mul] at hmul
    omega
  right
  have hmul : (cs.length + 1) * g.bytesPerCluster ≤ k * g.bytesPerCluster :=
    Nat.mul_le_mul_right _ hgt
  omega

end

/-! ## Section 5: The next cluster -/

/-- The driver's table is `t`, the clusters are a chain of it, and a search for a free cluster
    starts in the table or right behind it. -/
structure Layout (g : Geometry) (fs : Fs) (t : Table) (cs : List Nat) : Prop where
  coherent : Coherent g fs t
  hint     : fs.nextFreeHint ≤ g.totalClusters + 2
  chain    : Chain g t cs

/-- The number of clusters that the file has or can get. -/
def room (g : Geometry) (t : Table) (cs : List Nat) : Nat := cs.length + (freeSet g t).card

/-- The chain may have got clusters at its end, which were free. -/
structure Grown (g : Geometry) (t : Table) (cs : List Nat) (fs' : Fs) (t' : Table)
    (cs' : List Nat) : Prop where
  layout : Layout g fs' t' cs'
  old    : cs <+: cs'
  space  : room g t' cs' = room g t cs

section

variable {g : Geometry} {fs fs' : Fs} {t t' : Table} {cs cs' : List Nat}

theorem Grown.refl (h : Layout g fs t cs) : Grown g t cs fs t cs := ⟨h, prefix_rfl, rfl⟩

theorem Grown.trans {fs'' : Fs} {t'' : Table} {cs'' : List Nat} (h : Grown g t cs fs' t' cs')
    (h' : Grown g t' cs' fs'' t'' cs'') : Grown g t cs fs'' t'' cs'' :=
  ⟨h'.layout, h.old.trans h'.old, h'.space.trans h.space⟩

variable {k c : Nat} {zeroFill : Bool}

theorem Grown.getElem? (h : Grown g t cs fs' t' cs') (hk : cs[k]? = some c) : cs'[k]? = some c := by
  obtain ⟨rest, hrest⟩ := h.old
  rw [← hrest, List.getElem?_append_left (List.getElem?_eq_some_iff.mp hk).1, hk]

/-- Work on the table that leaves its entries alone. -/
theorem Layout.of_frame (hg : Sound g) (h : Layout g fs t cs) (hcoh : Coherent g fs' t)
    (hframe : Frame g fs fs') : Layout g fs' t cs ∧ contents g fs' cs = contents g fs cs := by
  refine ⟨⟨hcoh, ?_, h.chain⟩, contents_congr hg fun c hc o _ => ?_⟩
  · rw [hframe.hint]
    exact h.hint
  · rw [readCluster_congr hg (h.chain.cluster c hc) hframe.disk]

/-- The entry of a cluster of the chain is the next cluster, or an end. -/
theorem Layout.next (hg : Sound g) (h : Layout g fs t cs) (hk : cs[k]? = some c) :
    ∃ next fs', fatReadEntry g fs c = (next, fs') ∧ Layout g fs' t cs ∧
      contents g fs' cs = contents g fs cs ∧ (∀ d, cs[k + 1]? = some d → next = d) ∧
      (cs[k + 1]? = none → isEoc next = true) := by
  obtain ⟨hval, hcoh, hframe⟩ := fatReadEntry_spec hg h.coherent ((h.chain.isCluster hk).inTable hg)
  obtain ⟨hlay, hcont⟩ := h.of_frame hg hcoh hframe
  refine ⟨t.get c, _, Prod.ext hval rfl, hlay, hcont, fun d hd => h.chain.link k c d hk hd,
    fun hnone => ?_⟩
  rw [isEoc_iff (t.get_lt c)]
  exact h.chain.last k c hk hnone

/-- What allocation does to the clusters. -/
theorem Allocated.clusters (hg : Sound g) (h : Allocated g zeroFill fs t (c, fs')) (hne : c ≠ 0) :
    IsCluster g c ∧ t.get c = 0 ∧ Coherent g fs' (t.set c eoc) ∧ fs'.nextFreeHint = c + 1 ∧
    (∀ d, IsCluster g d → d ≠ c → ∀ o < g.bytesPerCluster,
      readCluster g fs' d o = readCluster g fs d o) ∧
    (zeroFill = true → ∀ o < g.bytesPerCluster, readCluster g fs' c o = 0) := by
  cases h with
  | full _ _ _ => exact absurd rfl hne
  | took hfree hcoh hhint _ hdisk =>
    obtain ⟨hlow, hhigh, hzero⟩ := firstFree_mem hfree
    have hc : IsCluster g c := ⟨hlow, hhigh⟩
    -- the volume with the new cluster written and the table as before
    let zeroed := writeSectors fs.disk (clusterToLba g c) g.sectorsPerCluster fun _ => 0
    let fs1 : Fs := { fs with disk := if zeroFill then zeroed else fs.disk }
    have hread : ∀ d, IsCluster g d → readCluster g fs' d = readCluster g fs1 d :=
      fun d hd => readCluster_congr hg hd hdisk
    have hzeroed : zeroFill = true → fs1.disk =
        writeSectors fs.disk (clusterToLba g c) (1 * g.sectorsPerCluster) fun _ => 0 := by
      intro hz
      rw [Nat.one_mul]
      exact if_pos hz
    refine ⟨hc, hzero, hcoh, hhint, fun d hd hdc o ho => ?_, fun hz o ho => ?_⟩
    · rw [hread d hd]
      cases zeroFill with
      | false => rfl
      | true => exact readCluster_writeSectors_of_ne hg hc hd (by omega) ho (hzeroed rfl)
    · rw [hread c hc]
      exact readCluster_writeSectors hg hc (j := 0) hc Nat.one_pos ho (hzeroed hz)

/-- A search finds a cluster when there is one. -/
theorem Layout.alloc_ne_zero (hg : Sound g) (h : Layout g fs t cs)
    (halloc : Allocated g zeroFill fs t (c, fs')) (hfree : (freeSet g t).Nonempty) : c ≠ 0 := by
  have hhint := h.hint
  have hstart : startOf fs ≤ g.totalClusters + 2 := by
    unfold startOf
    split <;> omega
  obtain ⟨d, hd⟩ := firstFree_of_nonempty hg hstart hfree
  cases halloc with
  | full hnone _ _ =>
    rw [hd] at hnone
    cases hnone
  | took hsome _ _ _ _ =>
    have hlow := (firstFree_mem hsome).1
    omega

/-- The next cluster of a chain, which is appended if there is none. Without zero fill its bytes
    are not known. -/
theorem chainNextOrAlloc_spec (hg : Sound g) (hn : Numbered g) (h : Layout g fs t cs)
    (hk : cs[k]? = some c) (hroom : k + 2 ≤ room g t cs) (zeroFill : Bool) :
    ∃ next fs' t' cs', chainNextOrAlloc g fs c zeroFill = (next, fs') ∧ Grown g t cs fs' t' cs' ∧
      cs'[k + 1]? = some next ∧
      SameOutside ((k + 1) * g.bytesPerCluster) ((k + 2) * g.bytesPerCluster)
        (contents g fs' cs') (contents g fs cs) ∧
      (zeroFill = true → contents g fs' cs' = contents g fs cs) := by
  obtain ⟨next, fs1, heq, hlay, hcont, hsome, hnone⟩ := h.next hg hk
  unfold chainNextOrAlloc
  simp only [heq]
  cases hnext : cs[k + 1]? with
  | some d =>
    obtain rfl := hsome d hnext
    have hcl := h.chain.isCluster hnext
    have hgo : (!isEoc next && decide (2 ≤ next)) = true := by
      rw [hcl.not_isEoc hn, decide_eq_true hcl.1]
      rfl
    rw [if_pos hgo]
    refine ⟨_, _, t, cs, rfl, .refl hlay, hnext, ?_, fun _ => hcont⟩
    intro i _
    rw [hcont]
  | none =>
    have hlen : cs.length = k + 1 := by
      have hle := List.getElem?_eq_none_iff.mp hnext
      have hlt := (List.getElem?_eq_some_iff.mp hk).1
      omega
    have hstop : ¬ (!isEoc next && decide (2 ≤ next)) = true := by
      rw [hnone hnext]
      exact nofun
    rw [if_neg hstop]
    have hfree : (freeSet g t).Nonempty := by
      rw [← Finset.card_pos]
      unfold room at hroom
      omega
    have halloc := allocateClusterEx_spec hg hlay.coherent zeroFill
    generalize allocateClusterEx g fs1 zeroFill = r at halloc
    obtain ⟨nc, fs2⟩ := r
    have hne := hlay.alloc_ne_zero hg halloc hfree
    obtain ⟨hcl, hzero, hcoh, hhint, hothers, hnew⟩ := halloc.clusters hg hne
    simp only [if_neg hne]
    obtain ⟨hwrite, hframe⟩ := fatWriteEntry_spec hg hcoh ((h.chain.isCluster hk).inTable hg) nc
    have hlast : cs[cs.length - 1]? = some c := by
      rw [hlen, Nat.add_sub_cancel]
      exact hk
    have hnot := h.chain.not_mem_of_free hzero
    have hreads : ∀ d ∈ cs, ∀ o < g.bytesPerCluster,
        readCluster g (fatWriteEntry g fs2 c nc) d o = readCluster g fs1 d o := by
      intro d hd o ho
      rw [readCluster_congr hg (h.chain.cluster d hd) hframe.disk]
      exact hothers d (h.chain.cluster d hd) (fun heq => hnot (heq ▸ hd)) o ho
    refine ⟨_, _, (t.set nc eoc).set c nc, cs ++ [nc], rfl,
      ⟨⟨hwrite, ?_, ?_⟩, prefix_append _ _, ?_⟩, ?_, ?_, ?_⟩
    · rw [hframe.hint, hhint]
      have hlt := hcl.2
      omega
    · exact h.chain.append hn hlast hcl hzero
    · -- one cluster more, and one free cluster less
      have hmem : nc ∈ freeSet g t := mem_freeSet.mpr ⟨hcl, hzero⟩
      have hlt := hcl.2
      have hmax := hg.numbers
      have hcard := card_erase_add_one hmem
      have hc' : c ∉ (freeSet g t).erase nc := by
        intro hc
        exact h.chain.not_mem_of_free (mem_freeSet.mp (Finset.mem_of_mem_erase hc)).2
          (mem_of_getElem? hk)
      unfold room
      rw [freeSet_set (by rw [mod_eq_of_lt (by omega)]; omega), freeSet_set (by decide),
        erase_eq_of_notMem hc', length_append, length_singleton]
      omega
    · rw [← hlen, List.getElem?_append_right (le_rfl), Nat.sub_self]
      rfl
    · rw [← hcont, ← hlen, show k + 2 = cs.length + 1 by omega]
      exact contents_append hg hreads
    intro hz
    rw [← hcont]
    refine contents_append_zero hg hreads fun o ho => ?_
    rw [readCluster_congr hg hcl hframe.disk]
    exact hnew hz o ho

end

end Cervus.Fat32
