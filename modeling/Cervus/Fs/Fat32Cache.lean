import Mathlib.Data.Finset.Card
import Cervus.Framework.System
import Cervus.Fs.Fat32

/-! # The cached sector of the FAT is transparent

    What the driver reads and writes is one table of 32-bit entries (`Table`), whichever sector
    of it is in memory. `Coherent` says how the disk and the cached sector make up the table: a
    sector that is cached and dirty is right in memory, every other one is right in every copy on
    the disk. Reads, writes, allocation, the freeing of chains and flushes keep this.

    An entry is found by its number alone, without a look at the size of the table. The clusters
    of a chain come from the disk, and one that is not in the table lies in the next copy, or in
    the data behind the last one: freeing the chain writes there (`freeing_writes_outside`). With
    all entries inside, the cache is transparent (`fat_cache_transparent`). -/

namespace Cervus.Fat32

open List Nat Option Finset

/-! ## Section 1: The table -/

/-- The table as such: one value of 32 bits for every entry. -/
structure Table where
  entry : Nat → Nat

namespace Table

/-- The low 28 bits. -/
def get (t : Table) (c : Nat) : Nat := t.entry c % 2 ^ 28

/-- A write keeps the top four bits. -/
def set (t : Table) (c v : Nat) : Table :=
  ⟨Function.update t.entry c (2 ^ 28 * (t.entry c / 2 ^ 28) + v % 2 ^ 28)⟩

section

variable {t : Table} {c x v : Nat}

theorem get_set_self : (t.set c v).get c = v % 2 ^ 28 := by
  simp only [get, set, Function.update_self]
  omega

theorem get_set_of_ne (h : x ≠ c) : (t.set c v).get x = t.get x := by
  simp only [get, set, Function.update_of_ne h]

theorem entry_set_of_ne (h : x ≠ c) : (t.set c v).entry x = t.entry x := Function.update_of_ne h _ _

theorem top_set : (t.set c v).entry x / 2 ^ 28 = t.entry x / 2 ^ 28 := by
  by_cases h : x = c
  · subst h
    simp only [set, Function.update_self]
    omega
  · rw [entry_set_of_ne h]

theorem get_lt (t : Table) (c : Nat) : t.get c < 2 ^ 28 := mod_lt _ (by decide)

end

/-- The first free cluster, in the order in which they are tried. -/
def firstFree (g : Geometry) (t : Table) (start : Nat) : Option Nat :=
  ((List.range g.totalClusters).map (candidate g start)).find? fun c => t.get c = 0

/-- The free cluster that is found becomes the end of a chain. -/
def alloc (g : Geometry) (t : Table) (start : Nat) : Table :=
  match t.firstFree g start with
  | none => t
  | some c => t.set c eoc

/-- The clusters along a chain become free. -/
def freeChain : Nat → Table → Nat → Option Table
  | 0, t, c => if 2 ≤ c ∧ !isEoc c then none else some t
  | fuel + 1, t, c =>
    if 2 ≤ c ∧ !isEoc c then freeChain fuel (t.set c 0) (t.get c) else some t

end Table

/-! ## Section 2: The table on the disk and in memory -/

/-- The numbers of the entries that a copy of the table holds. The offset of an entry is a 32-bit
    number. -/
def InTable (g : Geometry) (c : Nat) : Prop := c < perSector * g.fatSizeSectors ∧ c < 2 ^ 30

instance (g : Geometry) (c : Nat) : Decidable (InTable g c) := inferInstanceAs (Decidable (_ ∧ _))

/-- There is a copy of the table, it has an entry for every cluster, and the copies and the
    clusters behind them have 32-bit sector numbers. -/
structure Sound (g : Geometry) : Prop where
  copies   : 0 < g.numFats
  sectors  : 0 < g.sectorsPerCluster
  before   : g.firstFatSector + g.numFats * g.fatSizeSectors ≤ g.firstDataSector
  clusters : g.firstDataSector + g.totalClusters * g.sectorsPerCluster ≤ 2 ^ 32
  entries  : g.totalClusters + 2 ≤ perSector * g.fatSizeSectors
  numbers  : g.totalClusters + 2 ≤ 2 ^ 28

/-- The bytes are sector `rel` of the table. -/
def SectorIs (t : Table) (rel : Nat) (b : Bytes) : Prop :=
  ∀ e < perSector, getLe 4 b (4 * e) = t.entry (perSector * rel + e)

/-- The sector of copy `i` that holds sector `rel`, as a natural number. -/
def copySector (g : Geometry) (i rel : Nat) : Nat :=
  g.firstFatSector + (i * g.fatSizeSectors + rel)

structure Coherent (g : Geometry) (fs : Fs) (t : Table) : Prop where
  disk  : ∀ i < g.numFats, ∀ rel < g.fatSizeSectors,
    (fs.cacheSec = some rel → fs.cacheDirty = false) → SectorIs t rel (fs.disk (copySector g i rel))
  cache : ∀ rel, fs.cacheSec = some rel → rel < g.fatSizeSectors ∧ SectorIs t rel fs.cache

/-- The sectors of the copies. -/
def InFats (g : Geometry) (l : Nat) : Prop :=
  g.firstFatSector ≤ l ∧ l < g.firstFatSector + g.numFats * g.fatSizeSectors

/-- What work on the table leaves alone. -/
structure Frame (g : Geometry) (fs fs' : Fs) : Prop where
  disk  : ∀ l, ¬ InFats g l → fs'.disk l = fs.disk l
  hint  : fs'.nextFreeHint = fs.nextFreeHint
  count : fs'.freeCount = fs.freeCount

theorem Frame.refl (g : Geometry) (fs : Fs) : Frame g fs fs := ⟨fun _ _ => rfl, rfl, rfl⟩

theorem Frame.trans {g : Geometry} {a b c : Fs} (h : Frame g a b) (h' : Frame g b c) :
    Frame g a c :=
  ⟨fun l hl => (h'.disk l hl).trans (h.disk l hl), h'.hint.trans h.hint, h'.count.trans h.count⟩

section

variable {g : Geometry} {fs : Fs} {t : Table} {c rel i : Nat}

theorem copySector_lt (hi : i < g.numFats) (hrel : rel < g.fatSizeSectors) :
    i * g.fatSizeSectors + rel < g.numFats * g.fatSizeSectors := by
  calc i * g.fatSizeSectors + rel < (i + 1) * g.fatSizeSectors := by rw [succ_mul]; omega
    _ ≤ g.numFats * g.fatSizeSectors := Nat.mul_le_mul_right _ hi

theorem inFats_copySector (hi : i < g.numFats) (hrel : rel < g.fatSizeSectors) :
    InFats g (copySector g i rel) := by
  have hlt := copySector_lt hi hrel
  unfold InFats copySector
  omega

theorem Sound.copyLba_eq (hg : Sound g) (hi : i < g.numFats)
    (hrel : rel < g.fatSizeSectors) : copyLba g i rel = copySector g i rel := by
  have hlt := copySector_lt hi hrel
  have hbefore := hg.before
  have hclusters := hg.clusters
  unfold copyLba copySector
  rw [u32_of_lt (by omega), Nat.add_assoc]

/-- A sector of a copy belongs to one copy and one sector of the table. -/
theorem copySector_inj {j sec : Nat} (hsec : sec < g.fatSizeSectors)
    (hrel : rel < g.fatSizeSectors) (h : copySector g i sec = copySector g j rel) :
    i = j ∧ sec = rel := by
  have hpos : 0 < g.fatSizeSectors := by omega
  have heq : sec + g.fatSizeSectors * i = rel + g.fatSizeSectors * j := by
    unfold copySector at h
    rw [Nat.mul_comm g.fatSizeSectors i, Nat.mul_comm g.fatSizeSectors j]
    omega
  have hdiv := congrArg (· / g.fatSizeSectors) heq
  have hmod := congrArg (· % g.fatSizeSectors) heq
  simp only [add_mul_div_left _ _ hpos, div_eq_of_lt hsec, div_eq_of_lt hrel,
    Nat.zero_add] at hdiv
  simp only [add_mul_mod_self_left, mod_eq_of_lt hsec, mod_eq_of_lt hrel] at hmod
  exact ⟨hdiv, hmod⟩

/-- A flush leaves every copy right. -/
theorem fatCacheFlush_spec (hg : Sound g) (h : Coherent g fs t) :
    Coherent g (fatCacheFlush g fs) t ∧ Frame g fs (fatCacheFlush g fs) ∧
    (fatCacheFlush g fs).cacheSec = fs.cacheSec ∧
    ∀ i < g.numFats, ∀ rel < g.fatSizeSectors,
      SectorIs t rel ((fatCacheFlush g fs).disk (copySector g i rel)) := by
  unfold fatCacheFlush
  cases hsec : fs.cacheSec with
  | none =>
    refine ⟨h, .refl g fs, hsec, fun i hi rel hrel => h.disk i hi rel hrel ?_⟩
    rw [hsec]
    exact nofun
  | some sec =>
    obtain ⟨hlt, hcache⟩ := h.cache sec hsec
    cases hdirty : fs.cacheDirty with
    | false =>
      refine ⟨h, .refl g fs, hsec, fun i hi rel hrel => h.disk i hi rel hrel fun _ => hdirty⟩
    | true =>
      simp only [if_true]
      have haddr : ∀ w ∈ (List.range g.numFats).map fun i => (copyLba g i sec, fs.cache),
          ∃ i < g.numFats, w = (copySector g i sec, fs.cache) := by
        intro w hw
        obtain ⟨i, hi, rfl⟩ := List.mem_map.mp hw
        have hi := List.mem_range.mp hi
        exact ⟨i, hi, by rw [hg.copyLba_eq hi hlt]⟩
      -- the sector is written to every copy, and nothing else is written
      have hcopies : ∀ i < g.numFats, ∀ rel < g.fatSizeSectors, SectorIs t rel (Writes.apply fs.disk
            ((List.range g.numFats).map fun i => (copyLba g i sec, fs.cache))
            (copySector g i rel)) := by
        intro i hi rel hrel
        by_cases heq : rel = sec
        · subst heq
          have happly := Writes.apply_of_const (d := fs.disk)
            ⟨_, List.mem_map_of_mem (List.mem_range.mpr hi), hg.copyLba_eq hi hlt⟩ fun w hw => by
              obtain ⟨j, -, rfl⟩ := haddr w hw
              rfl
          rw [happly]
          exact hcache
        rw [Writes.apply_of_not_mem]
        · refine h.disk i hi rel hrel fun hcached => ?_
          rw [hsec] at hcached
          exact absurd (some.inj hcached).symm heq
        · intro w hw hwl
          obtain ⟨j, -, rfl⟩ := haddr w hw
          exact heq (copySector_inj hlt hrel hwl).2.symm
      refine ⟨⟨fun i hi rel hrel _ => hcopies i hi rel hrel, fun rel hrel => ?_⟩,
        ⟨fun l hl => ?_, rfl, rfl⟩, trivial, hcopies⟩
      · exact h.cache rel (hsec.trans hrel)
      apply Writes.apply_of_not_mem
      intro w hw hwl
      obtain ⟨j, hj, rfl⟩ := haddr w hw
      rw [← hwl] at hl
      exact hl (inFats_copySector hj hlt)

theorem fatCacheLoad_spec (hg : Sound g) (h : Coherent g fs t)
    (hrel : rel < g.fatSizeSectors) :
    Coherent g (fatCacheLoad g fs rel) t ∧ Frame g fs (fatCacheLoad g fs rel) ∧
    (fatCacheLoad g fs rel).cacheSec = some rel := by
  unfold fatCacheLoad
  split
  · next hsec => exact ⟨h, .refl g fs, hsec⟩
  obtain ⟨hflush, hframe, -, hcopies⟩ := fatCacheFlush_spec hg h
  have hsector : SectorIs t rel ((fatCacheFlush g fs).disk (u32 (g.firstFatSector + rel))) := by
    have hlba := hg.copyLba_eq hg.copies hrel
    unfold copyLba at hlba
    rw [Nat.zero_mul, Nat.add_zero] at hlba
    rw [hlba]
    exact hcopies 0 hg.copies rel hrel
  refine ⟨⟨fun i hi r hr _ => hcopies i hi r hr, fun r hr => ?_⟩,
    ⟨hframe.disk, hframe.hint, hframe.count⟩, rfl⟩
  obtain rfl := some.inj hr
  exact ⟨hrel, hsector⟩

/-! ## Section 3: Entries -/

/-- Where an entry is. -/
theorem InTable.place (hc : InTable g c) :
    u32 (c * 4) / sectorSize = c / perSector ∧ u32 (c * 4) % sectorSize = 4 * (c % perSector) ∧
    c / perSector < g.fatSizeSectors ∧ c % perSector < perSector := by
  have hlt := hc.2
  have hin := hc.1
  rw [u32_of_lt (by omega)]
  unfold sectorSize perSector at *
  omega

theorem SectorIs.entry {b : Bytes} (h : SectorIs t (c / perSector) b) :
    getLe 4 b (4 * (c % perSector)) = t.entry c := by
  rw [h _ (mod_lt _ (by decide)), div_add_mod]

theorem and_clusterMask (v : Nat) : v &&& clusterMask = v % 2 ^ 28 :=
  and_two_pow_sub_one_eq_mod v 28

theorem and_top {v : Nat} (hv : v < 2 ^ 32) : v &&& 0xF0000000 = 2 ^ 28 * (v / 2 ^ 28) := by
  have hmask : (0xF0000000 : Nat) = (2 ^ 4 - 1) <<< 28 := by decide
  apply eq_of_testBit_eq
  intro i
  rw [testBit_and, hmask, testBit_shiftLeft, testBit_two_pow_sub_one,
    testBit_two_pow_mul, testBit_div_two_pow]
  by_cases hi : 28 ≤ i
  · by_cases htop : i - 28 < 4
    · simp [hi, htop]
    · have hzero : v.testBit i = false := testBit_lt_two_pow
        (Nat.lt_of_lt_of_le hv (Nat.pow_le_pow_right (by decide) (by omega)))
      simp [hzero, hi]
  · simp [hi]

theorem fatReadEntry_spec (hg : Sound g) (h : Coherent g fs t) (hc : InTable g c) :
    (fatReadEntry g fs c).1 = t.get c ∧ Coherent g (fatReadEntry g fs c).2 t ∧
    Frame g fs (fatReadEntry g fs c).2 := by
  obtain ⟨hdiv, hmod, hrel, -⟩ := hc.place
  obtain ⟨hload, hframe, hsec⟩ := fatCacheLoad_spec hg h hrel
  simp only [fatReadEntry, hdiv, hmod]
  refine ⟨?_, hload, hframe⟩
  rw [(hload.cache _ hsec).2.entry, and_clusterMask]
  rfl

/-- Writing an entry writes that entry of the table. -/
theorem fatWriteEntry_spec (hg : Sound g) (h : Coherent g fs t) (hc : InTable g c)
    (v : Nat) :
    Coherent g (fatWriteEntry g fs c v) (t.set c v) ∧ Frame g fs (fatWriteEntry g fs c v) := by
  obtain ⟨hdiv, hmod, hrel, hin⟩ := hc.place
  obtain ⟨hload, hframe, hsec⟩ := fatCacheLoad_spec hg h hrel
  have hold := (hload.cache _ hsec).2
  simp only [fatWriteEntry, hdiv, hmod]
  refine ⟨⟨fun i hi rel hr hclean => ?_, fun rel hr => ?_⟩,
    ⟨hframe.disk, hframe.hint, hframe.count⟩⟩
  · -- another sector: it does not hold the entry
    have hne : rel ≠ c / perSector := by
      rintro rfl
      exact absurd (hclean hsec) (by simp)
    intro e he
    rw [Table.entry_set_of_ne]
    · refine hload.disk i hi rel hr ?_ e he
      intro hcached
      rw [hsec] at hcached
      exact absurd (some.inj hcached).symm hne
    · rintro rfl
      apply hne
      rw [mul_add_div (by decide), div_eq_of_lt he, Nat.add_zero]
  rw [hsec] at hr
  obtain rfl := some.inj hr
  refine ⟨hrel, fun e he => ?_⟩
  by_cases heq : e = c % perSector
  · subst heq
    have hexist := getLe_lt 4 (fatCacheLoad g fs (c / perSector)).cache (4 * (c % perSector))
    have hlow : v % 2 ^ 28 < 2 ^ 28 := mod_lt _ (by decide)
    rw [getLe_putLe, and_clusterMask, and_top hexist, lor_comm,
      ← two_pow_add_eq_or_of_lt hlow, hold.entry, div_add_mod]
    simp only [Table.set, Function.update_self]
    rw [hold.entry] at hexist
    apply mod_eq_of_lt
    omega
  have hc' : perSector * (c / perSector) + e ≠ c := by
    intro h'
    apply heq
    rw [← h', mul_add_mod, mod_eq_of_lt he]
  rw [Table.entry_set_of_ne hc', getLe_putLe_ne (by omega)]
  exact hold e he

/-! ## Section 4: Clusters -/

theorem candidate_mem (hpos : 0 < g.totalClusters) (start i : Nat) :
    2 ≤ candidate g start i ∧ candidate g start i < g.totalClusters + 2 := by
  have hmod := mod_lt (u32 (start - 2 + i)) hpos
  unfold candidate
  omega

theorem Sound.inTable (hg : Sound g) (hc : c < g.totalClusters + 2) : InTable g c := by
  have hentries := hg.entries
  have hnumbers := hg.numbers
  exact ⟨by omega, by omega⟩

/-- The search finds the first free cluster. -/
theorem allocLoop_spec (hg : Sound g) (start fuel : Nat) :
    ∀ {i : Nat} {fs : Fs}, i + fuel = g.totalClusters → Coherent g fs t →
      Frame g fs (allocLoop g start fuel i fs).2 ∧
      match ((range' i fuel).map (candidate g start)).find? fun c => t.get c = 0 with
      | none => (allocLoop g start fuel i fs).1 = 0 ∧ Coherent g (allocLoop g start fuel i fs).2 t
      | some c => (allocLoop g start fuel i fs).1 = c ∧
          Coherent g (allocLoop g start fuel i fs).2 (t.set c eoc) := by
  induction fuel with
  | zero =>
    intro i fs _ h
    exact ⟨.refl g fs, rfl, h⟩
  | succ fuel ih =>
    intro i fs hsum h
    have hpos : 0 < g.totalClusters := by omega
    have hcand := candidate_mem hpos start i
    obtain ⟨hval, hread, hframe⟩ := fatReadEntry_spec hg h (hg.inTable hcand.2)
    simp only [allocLoop, range'_succ, List.map_cons, find?_cons, hval]
    by_cases hfree : t.get (candidate g start i) = 0
    · obtain ⟨hwrite, hframe'⟩ := fatWriteEntry_spec hg hread (hg.inTable hcand.2) eoc
      simp only [hfree, if_true, decide_true]
      exact ⟨hframe.trans hframe', trivial, hwrite⟩
    have hnext : i + 1 + fuel = g.totalClusters := by omega
    obtain ⟨hframe', hrest⟩ := ih hnext hread
    simp only [hfree, if_false, decide_false]
    exact ⟨hframe.trans hframe', hrest⟩

theorem firstFree_mem {start : Nat} (h : t.firstFree g start = some c) :
    2 ≤ c ∧ c < g.totalClusters + 2 ∧ t.get c = 0 := by
  have hzero := find?_some h
  obtain ⟨i, hi, rfl⟩ := List.mem_map.mp (List.mem_of_find?_eq_some h)
  have hi := List.mem_range.mp hi
  have hpos : 0 < g.totalClusters := by omega
  obtain ⟨hlow, hhigh⟩ := candidate_mem hpos start i
  exact ⟨hlow, hhigh, of_decide_eq_true hzero⟩

/-- The sectors of a cluster lie behind the copies of the table. -/
theorem Sound.clusterToLba_eq (hg : Sound g) (hc : 2 ≤ c)
    (hc' : c < g.totalClusters + 2) :
    clusterToLba g c = g.firstDataSector + (c - 2) * g.sectorsPerCluster := by
  have hmul : (c - 2 + 1) * g.sectorsPerCluster ≤ g.totalClusters * g.sectorsPerCluster :=
    Nat.mul_le_mul_right _ (by omega)
  have hclusters := hg.clusters
  have hnumbers := hg.numbers
  unfold clusterToLba
  rw [sub32_of_le (by omega) hc]
  have hspc := hg.sectors
  rw [succ_mul] at hmul
  exact u32_of_lt (by omega)

theorem Sound.not_inFats_cluster (hg : Sound g) {l : Nat} (hc : 2 ≤ c)
    (hc' : c < g.totalClusters + 2) (hl : clusterToLba g c ≤ l) : ¬ InFats g l := by
  have hbefore := hg.before
  rw [hg.clusterToLba_eq hc hc'] at hl
  unfold InFats
  omega

/-- Work on the data of a cluster does not touch the table. -/
theorem Coherent.of_disk {fs' : Fs} (h : Coherent g fs t) (hsec : fs'.cacheSec = fs.cacheSec)
    (hcache : fs'.cache = fs.cache) (hdirty : fs'.cacheDirty = fs.cacheDirty)
    (hdisk : ∀ l, InFats g l → fs'.disk l = fs.disk l) : Coherent g fs' t := by
  refine ⟨fun i hi rel hrel hclean => ?_, fun rel hrel => ?_⟩
  · rw [hdisk _ (inFats_copySector hi hrel)]
    rw [hsec, hdirty] at hclean
    exact h.disk i hi rel hrel hclean
  · rw [hsec] at hrel
    rw [hcache]
    exact h.cache rel hrel

theorem Coherent.writeCluster (hg : Sound g) (h : Coherent g fs t) (hc : 2 ≤ c)
    (hc' : c < g.totalClusters + 2) (buf : Bytes) : Coherent g (writeCluster g fs c buf) t := by
  refine h.of_disk (by unfold Fat32.writeCluster; rfl) (by unfold Fat32.writeCluster; rfl)
    (by unfold Fat32.writeCluster; rfl) fun l hl => ?_
  have hout : ¬ (clusterToLba g c ≤ l ∧ l < clusterToLba g c + g.sectorsPerCluster) :=
    fun hin => hg.not_inFats_cluster hc hc' hin.1 hl
  simp only [Fat32.writeCluster, writeSectors, if_neg hout]

/-- The number of the first cluster that is tried. -/
def startOf (fs : Fs) : Nat := if fs.nextFreeHint < 2 then 2 else fs.nextFreeHint

/-- `free_count` after a cluster was taken. -/
def countDown (n : Nat) : Nat := if n ≠ unknownCount then sub32 n 1 else n

/-- What allocation does: it finds no free cluster and changes nothing, or it takes the first. -/
inductive Allocated (g : Geometry) (zeroFill : Bool) (fs : Fs) (t : Table) : Nat × Fs → Prop where
  | full {fs' : Fs} : t.firstFree g (startOf fs) = none → Coherent g fs' t → Frame g fs fs' →
      Allocated g zeroFill fs t (0, fs')
  | took {c : Nat} {fs' : Fs} : t.firstFree g (startOf fs) = some c →
      Coherent g fs' (t.set c eoc) → fs'.nextFreeHint = c + 1 →
      fs'.freeCount = countDown fs.freeCount →
      (∀ l, ¬ InFats g l → fs'.disk l =
        (if zeroFill then writeSectors fs.disk (clusterToLba g c) g.sectorsPerCluster fun _ => 0
          else fs.disk) l) →
      Allocated g zeroFill fs t (c, fs')

theorem allocateClusterEx_spec (hg : Sound g) (h : Coherent g fs t) (zeroFill : Bool) :
    Allocated g zeroFill fs t (allocateClusterEx g fs zeroFill) := by
  obtain ⟨hframe, hsearch⟩ := allocLoop_spec hg (startOf fs) g.totalClusters (Nat.zero_add _) h
  rw [← range_eq_range'] at hsearch
  change match t.firstFree g (startOf fs) with
    | none => _
    | some c => _ at hsearch
  have heq : allocateClusterEx g fs zeroFill =
      let r := allocLoop g (startOf fs) g.totalClusters 0 fs
      if r.1 = 0 then (0, r.2)
      else
        let fs := { r.2 with nextFreeHint := r.1 + 1, freeCount := countDown r.2.freeCount }
        (r.1, if zeroFill then writeCluster g fs r.1 fun _ => 0 else fs) := rfl
  rw [heq]
  generalize allocLoop g (startOf fs) g.totalClusters 0 fs = r at hframe hsearch
  obtain ⟨c, fs'⟩ := r
  cases hfree : t.firstFree g (startOf fs) with
  | none =>
    rw [hfree] at hsearch
    obtain ⟨hzero, hcoh⟩ := hsearch
    subst hzero
    exact .full hfree hcoh hframe
  | some c' =>
    rw [hfree] at hsearch
    obtain ⟨hc, hcoh⟩ := hsearch
    subst hc
    obtain ⟨hlow, hhigh, -⟩ := firstFree_mem hfree
    have hne : c ≠ 0 := by omega
    have hset : Coherent g { fs' with nextFreeHint := c + 1, freeCount := countDown fs'.freeCount }
        (t.set c eoc) := hcoh.of_disk rfl rfl rfl fun _ _ => rfl
    simp only [if_neg hne]
    cases zeroFill with
    | false =>
      refine .took hfree hset rfl (by rw [← hframe.count]; rfl) fun l hl => ?_
      exact hframe.disk l hl
    | true =>
      refine .took hfree (hset.writeCluster hg hlow hhigh _) rfl (by rw [← hframe.count]; rfl)
        fun l hl => ?_
      simp only [if_true, Fat32.writeCluster, writeSectors]
      split
      · rfl
      · exact hframe.disk l hl

/-- The clusters that freeing a chain visits are in the table. -/
def ChainWithin (g : Geometry) : Nat → Table → Nat → Prop
  | 0, _, c => 2 ≤ c ∧ !isEoc c → InTable g c
  | fuel + 1, t, c =>
    2 ≤ c ∧ !isEoc c → InTable g c ∧ ChainWithin g fuel (t.set c 0) (t.get c)

/-- Freeing a chain frees it in the table. -/
theorem freeClusterChain_spec (hg : Sound g) (fuel : Nat) :
    ∀ {fs : Fs} {t : Table} {c : Nat}, Coherent g fs t → ChainWithin g fuel t c →
      match t.freeChain fuel c with
      | none => freeClusterChain g fuel fs c = none
      | some t' => ∃ fs', freeClusterChain g fuel fs c = some fs' ∧ Coherent g fs' t' := by
  induction fuel with
  | zero =>
    intro fs t c h _
    rw [Table.freeChain, freeClusterChain]
    by_cases hgo : 2 ≤ c ∧ (!isEoc c) = true
    · rw [if_pos hgo, if_pos hgo]
    · rw [if_neg hgo, if_neg hgo]
      exact ⟨fs, rfl, h⟩
  | succ fuel ih =>
    intro fs t c h hwithin
    rw [Table.freeChain, freeClusterChain]
    by_cases hgo : 2 ≤ c ∧ (!isEoc c) = true
    · rw [if_pos hgo, if_pos hgo]
      obtain ⟨hin, hrest⟩ := hwithin hgo
      obtain ⟨hval, hread, -⟩ := fatReadEntry_spec hg h hin
      obtain ⟨hwrite, -⟩ := fatWriteEntry_spec hg hread hin 0
      simp only [hval]
      exact ih (hwrite.of_disk rfl rfl rfl fun _ _ => rfl) hrest
    · rw [if_neg hgo, if_neg hgo]
      exact ⟨fs, rfl, h⟩

/-- The entries in use. -/
def Table.used (g : Geometry) (t : Table) : Finset Nat :=
  (Finset.range (perSector * g.fatSizeSectors)).filter fun c => t.get c ≠ 0

/-- Every turn but the last frees a cluster, so freeing ends, also for a chain with a cycle. -/
theorem freeChain_isSome (fuel : Nat) :
    ∀ {t : Table} {c : Nat}, (t.used g).card ≤ fuel → ChainWithin g (fuel + 1) t c →
      (t.freeChain (fuel + 1) c).isSome := by
  induction fuel with
  | zero =>
    intro t c hcard hwithin
    rw [Table.freeChain]
    split
    · next hgo =>
      obtain ⟨hin, -⟩ := hwithin hgo
      have hempty := Finset.card_eq_zero.mp (le_zero.mp hcard)
      have hzero : t.get c = 0 := by
        by_contra hne
        have hmem : c ∈ t.used g := Finset.mem_filter.mpr ⟨Finset.mem_range.mpr hin.1, hne⟩
        rw [hempty] at hmem
        exact absurd hmem (notMem_empty c)
      rw [hzero]
      rfl
    · rfl
  | succ fuel ih =>
    intro t c hcard hwithin
    rw [Table.freeChain]
    split
    · next hgo =>
      obtain ⟨hin, hrest⟩ := hwithin hgo
      by_cases hzero : t.get c = 0
      · rw [hzero]
        rfl
      refine ih ?_ hrest
      have hsub : (t.set c 0).used g ⊂ t.used g := by
        rw [ssubset_iff_of_subset]
        · refine ⟨c, Finset.mem_filter.mpr ⟨Finset.mem_range.mpr hin.1, hzero⟩, fun hmem => ?_⟩
          exact (Finset.mem_filter.mp hmem).2 Table.get_set_self
        intro x hx
        obtain ⟨hrange, hne⟩ := Finset.mem_filter.mp hx
        refine Finset.mem_filter.mpr ⟨hrange, fun h0 => hne ?_⟩
        by_cases hxc : x = c
        · rw [hxc]
          exact Table.get_set_self
        · rw [Table.get_set_of_ne hxc, h0]
      have hlt := card_lt_card hsub
      omega
    · rfl

theorem freeChain_top (fuel : Nat) : ∀ {t t' : Table} {c : Nat}, t.freeChain fuel c = some t' →
      ∀ x, t'.entry x / 2 ^ 28 = t.entry x / 2 ^ 28 := by
  induction fuel with
  | zero =>
    intro t t' c h x
    rw [Table.freeChain] at h
    split at h
    · cases h
    · obtain rfl := some.inj h
      rfl
  | succ fuel ih =>
    intro t t' c h x
    rw [Table.freeChain] at h
    split at h
    · rw [ih h x, Table.top_set]
    · obtain rfl := some.inj h
      rfl

end

/-! ## Section 5: Runs -/

inductive FatOp where
  | read (c : Nat)
  | write (c v : Nat)
  | alloc (zeroFill : Bool)
  | free (fuel first : Nat)
  | flush

/-- The driver, and beside it the table that its operations stand for. -/
inductive FatStep (g : Geometry) : Fs × Table → FatOp → Fs × Table → Prop where
  | read {fs : Fs} {t : Table} (c : Nat) :
      FatStep g (fs, t) (.read c) ((fatReadEntry g fs c).2, t)
  | write {fs : Fs} {t : Table} (c v : Nat) :
      FatStep g (fs, t) (.write c v) (fatWriteEntry g fs c v, t.set c v)
  | alloc {fs : Fs} {t : Table} (zeroFill : Bool) :
      FatStep g (fs, t) (.alloc zeroFill)
        ((allocateClusterEx g fs zeroFill).2, t.alloc g (startOf fs))
  | free {fs fs' : Fs} {t t' : Table} {fuel first : Nat} :
      freeClusterChain g fuel fs first = some fs' → t.freeChain fuel first = some t' →
      FatStep g (fs, t) (.free fuel first) (fs', t')
  | flush {fs : Fs} {t : Table} : FatStep g (fs, t) .flush (fatCacheFlush g fs, t)

/-- The table on the disk at the mount: the first copy. -/
def diskTable (g : Geometry) (disk : Disk) : Table :=
  ⟨fun c => getLe 4 (disk (copySector g 0 (c / perSector))) (4 * (c % perSector))⟩

/-- The copies of the table are equal. -/
def EqualCopies (g : Geometry) (disk : Disk) : Prop :=
  ∀ i < g.numFats, ∀ rel < g.fatSizeSectors, ∀ o < sectorSize,
    disk (copySector g i rel) o = disk (copySector g 0 rel) o

/-- All sequences of operations on a volume that was mounted with this disk. -/
def fatSystem (g : Geometry) (disk : Disk) : System (Fs × Table) FatOp where
  init := fun s => s.1.disk = disk ∧ EqualCopies g disk ∧ s.1.cacheSec = none ∧
    s.2 = diskTable g disk
  step := FatStep g

/-- The entries that an operation names, or finds in a chain, are in the table. -/
def Within (g : Geometry) (s : Fs × Table) : FatOp → Prop
  | .read c => InTable g c
  | .write c _ => InTable g c
  | .free fuel first => ChainWithin g fuel s.2 first
  | _ => True

/-- Entries are read as in the table, allocation and freeing find what the table says, the top
    bits are those of the disk at the mount, and after a flush every copy is the table. -/
structure Transparent (g : Geometry) (disk : Disk) (s : Fs × Table) : Prop where
  read  : ∀ c, InTable g c → (fatReadEntry g s.1 c).1 = s.2.get c
  alloc : ∀ zeroFill, (allocateClusterEx g s.1 zeroFill).1 =
    (s.2.firstFree g (startOf s.1)).getD 0
  free  : ∀ first, (∀ fuel, ChainWithin g fuel s.2 first) →
    ∃ fuel fs t, freeClusterChain g fuel s.1 first = some fs ∧ s.2.freeChain fuel first = some t
  top   : ∀ c, s.2.entry c / 2 ^ 28 = (diskTable g disk).entry c / 2 ^ 28
  copy  : ∀ i < g.numFats, ∀ c < perSector * g.fatSizeSectors,
    getLe 4 ((fatCacheFlush g s.1).disk (copySector g i (c / perSector))) (4 * (c % perSector)) =
      s.2.entry c

section

variable {g : Geometry} {disk : Disk} {fs : Fs} {t : Table}

theorem coherent_mount (hdisk : fs.disk = disk) (heq : EqualCopies g disk)
    (hnone : fs.cacheSec = none) : Coherent g fs (diskTable g disk) := by
  refine ⟨fun i hi rel hrel _ e he => ?_, fun rel hrel => ?_⟩
  · have hdiv : (perSector * rel + e) / perSector = rel := by
      rw [mul_add_div (by decide), div_eq_of_lt he, Nat.add_zero]
    have hmod : (perSector * rel + e) % perSector = e := by
      rw [mul_add_mod, mod_eq_of_lt he]
    rw [hdisk]
    simp only [diskTable, hdiv, hmod]
    apply getLe_congr
    intro o hlow hhigh
    refine heq i hi rel hrel o ?_
    unfold sectorSize perSector at *
    omega
  · rw [hnone] at hrel
    cases hrel

theorem Coherent.transparent (hg : Sound g) (h : Coherent g fs t)
    (htop : ∀ c, t.entry c / 2 ^ 28 = (diskTable g disk).entry c / 2 ^ 28) :
    Transparent g disk (fs, t) := by
  refine ⟨fun c hc => (fatReadEntry_spec hg h hc).1, fun zeroFill => ?_, fun first hwithin => ?_,
    htop, fun i hi c hc => ?_⟩
  · have halloc := allocateClusterEx_spec hg h zeroFill
    generalize allocateClusterEx g fs zeroFill = r at halloc ⊢
    cases halloc with
    | full hfree _ _ => rw [hfree]; rfl
    | took hfree _ _ _ _ => rw [hfree]; rfl
  · have hsome := freeChain_isSome ((t.used g).card) (le_rfl) (hwithin _)
    obtain ⟨t', ht'⟩ := isSome_iff_exists.mp hsome
    have hspec := freeClusterChain_spec hg _ h (hwithin ((t.used g).card + 1))
    rw [ht'] at hspec
    obtain ⟨fs', hfs', -⟩ := hspec
    exact ⟨_, fs', t', hfs', ht'⟩
  · have hrel : c / perSector < g.fatSizeSectors := Nat.div_lt_of_lt_mul hc
    exact ((fatCacheFlush_spec hg h).2.2.2 i hi _ hrel).entry

/-- A step keeps the driver and its table together, and the top bits. -/
theorem coherent_step (hg : Sound g) {s s' : Fs × Table} {op : FatOp} (h : Coherent g s.1 s.2)
    (hok : Within g s op) (hstep : FatStep g s op s') :
    Coherent g s'.1 s'.2 ∧ ∀ c, s'.2.entry c / 2 ^ 28 = s.2.entry c / 2 ^ 28 := by
  cases hstep with
  | read c => exact ⟨(fatReadEntry_spec hg h hok).2.1, fun _ => rfl⟩
  | write c v => exact ⟨(fatWriteEntry_spec hg h hok v).1, fun _ => Table.top_set⟩
  | @alloc fs t zeroFill =>
    have halloc := allocateClusterEx_spec hg h zeroFill
    generalize allocateClusterEx g fs zeroFill = r at halloc ⊢
    cases halloc with
    | full hfree hcoh _ =>
      simp only [Table.alloc, hfree]
      exact ⟨hcoh, fun _ => trivial⟩
    | took hfree hcoh _ _ _ =>
      simp only [Table.alloc, hfree]
      exact ⟨hcoh, fun _ => Table.top_set⟩
  | @free fs fs' t t' fuel first hfree htable =>
    have hspec := freeClusterChain_spec hg fuel h hok
    rw [htable] at hspec
    obtain ⟨fs'', hfs'', hcoh⟩ := hspec
    obtain rfl := some.inj (hfree.symm.trans hfs'')
    exact ⟨hcoh, freeChain_top fuel htable⟩
  | flush => exact ⟨(fatCacheFlush_spec hg h).1, fun _ => rfl⟩

/-- With every entry inside the table, the cache is transparent in every run. -/
theorem fat_cache_transparent (g : Geometry) (hg : Sound g) (disk : Disk) (s : Fs × Table)
    (h : ((fatSystem g disk).restrict (Within g)).Reachable s) : Transparent g disk s := by
  have hinv : Coherent g s.1 s.2 ∧
      ∀ c, s.2.entry c / 2 ^ 28 = (diskTable g disk).entry c / 2 ^ 28 := by
    refine @System.Reachable.induct _ _ _ (fun s => Coherent g s.1 s.2 ∧
      ∀ c, s.2.entry c / 2 ^ 28 = (diskTable g disk).entry c / 2 ^ 28) ?_ ?_ _ h
    · intro s ⟨hdisk, heq, hnone, htable⟩
      rw [htable]
      exact ⟨coherent_mount hdisk heq hnone, fun _ => rfl⟩
    · intro s op s' _ ⟨hcoh, htop⟩ ⟨hok, hstep⟩
      obtain ⟨hcoh', htop'⟩ := coherent_step hg hcoh hok hstep
      exact ⟨hcoh', fun c => (htop' c).trans (htop c)⟩
  exact hinv.1.transparent hg hinv.2

end

/-! ## Section 6: A chain that leaves the table -/

/-- A sector that begins with these words. -/
def leSector (ws : List Nat) : Bytes :=
  (ws.zipIdx).foldl (fun b w => putLe 4 b (4 * w.2) w.1) fun _ => 0

/-- Two copies of one sector each, and eight clusters of one sector. -/
def smallGeometry : Geometry := ⟨1, 2, 1, 1, 3, 8, 2⟩

theorem smallGeometry_sound : Sound smallGeometry where
  copies := by decide
  sectors := by decide
  before := by decide
  clusters := by decide
  entries := by decide
  numbers := by decide

/-- Both copies hold the words. -/
def smallDisk (ws : List Nat) : Disk := fun l =>
  if l = 1 ∨ l = 2 then leSector ws else fun _ => 0

theorem smallDisk_equal (ws : List Nat) : EqualCopies smallGeometry (smallDisk ws) := by
  intro i hi rel hrel o _
  obtain rfl : rel = 0 := lt_one_iff.mp hrel
  have hone : i = 0 ∨ i = 1 := by
    have hi' : i < 2 := hi
    omega
  rcases hone with rfl | rfl
  · rfl
  · rfl

def mounted (disk : Disk) : Fs := ⟨disk, none, fun _ => 0, false, 2, unknownCount⟩

theorem mounted_init (ws : List Nat) : (fatSystem smallGeometry (smallDisk ws)).init
      (mounted (smallDisk ws), diskTable smallGeometry (smallDisk ws)) :=
  ⟨rfl, smallDisk_equal ws, rfl, rfl⟩

theorem reachable_write {g : Geometry} {disk : Disk} {fs : Fs} {t : Table} {c : Nat}
    (h : ((fatSystem g disk).restrict (Within g)).Reachable (fs, t)) (hc : InTable g c) (v : Nat) :
    ((fatSystem g disk).restrict (Within g)).Reachable (fatWriteEntry g fs c v, t.set c v) :=
  .step (.write c v) h ⟨hc, FatStep.write c v⟩

/-- Two copies of two sectors each. -/
def wideGeometry : Geometry := ⟨1, 2, 2, 1, 5, 200, 2⟩

theorem wideGeometry_sound : Sound wideGeometry where
  copies := by decide
  sectors := by decide
  before := by decide
  clusters := by decide
  entries := by decide
  numbers := by decide

/-- Writes to both sectors of an empty table are read back, although only one sector is cached:
    the second write and the reads each write a sector back and load the other. -/
theorem transparent_after_write :
    ∃ s, ((fatSystem wideGeometry fun _ _ => 0).restrict (Within wideGeometry)).Reachable s ∧
      (fatReadEntry wideGeometry s.1 5).1 = 7 ∧ (fatReadEntry wideGeometry s.1 130).1 = 9 := by
  have hfive : InTable wideGeometry 5 := by decide
  have hlast : InTable wideGeometry 130 := by decide
  have hinit : ((fatSystem wideGeometry fun _ _ => 0).restrict (Within wideGeometry)).Reachable
      (mounted fun _ _ => 0, diskTable wideGeometry fun _ _ => 0) :=
    .init ⟨rfl, fun _ _ _ _ _ _ => rfl, rfl, rfl⟩
  have hwrite := reachable_write (reachable_write hinit hfive 7) hlast 9
  have hread := hwrite.step (FatOp.read 5) ⟨hfive, FatStep.read 5⟩
  have htransparent := fat_cache_transparent wideGeometry wideGeometry_sound _ _ hread
  refine ⟨_, hread, ?_, ?_⟩
  · rw [htransparent.read 5 hfive]
    decide +kernel
  · rw [htransparent.read 130 hlast]
    decide +kernel

/-- Cluster 3 is followed by cluster 128, which a table of one sector does not have. Freeing the
    chain clears the first entry of the second copy. -/
theorem freeing_writes_outside :
    Sound smallGeometry ∧
    ∃ s, (fatSystem smallGeometry
        (smallDisk [0x0FFFFFF8, 0x0FFFFFFF, eoc, 128])).Reachable s ∧
      s.2.entry 0 = 0x0FFFFFF8 ∧
      getLe 4 ((fatCacheFlush smallGeometry s.1).disk (copySector smallGeometry 0 0)) 0 =
        0x0FFFFFF8 ∧
      getLe 4 ((fatCacheFlush smallGeometry s.1).disk (copySector smallGeometry 1 0)) 0 = 0 := by
  refine ⟨smallGeometry_sound, ?_⟩
  have hfs : (freeClusterChain smallGeometry 2
      (mounted (smallDisk [0x0FFFFFF8, 0x0FFFFFFF, eoc, 128])) 3).map (fun fs =>
        (getLe 4 ((fatCacheFlush smallGeometry fs).disk (copySector smallGeometry 0 0)) 0,
          getLe 4 ((fatCacheFlush smallGeometry fs).disk (copySector smallGeometry 1 0)) 0)) =
      some (0x0FFFFFF8, 0) := by decide +kernel
  have htable : ((diskTable smallGeometry
      (smallDisk [0x0FFFFFF8, 0x0FFFFFFF, eoc, 128])).freeChain 2 3).map (fun t => t.entry 0) =
      some 0x0FFFFFF8 := by decide +kernel
  obtain ⟨fs, hfree, hcopies⟩ := map_eq_some_iff.mp hfs
  obtain ⟨t, hfree', hentry⟩ := map_eq_some_iff.mp htable
  obtain ⟨hfirst, hsecond⟩ := Prod.mk.inj hcopies
  have hstep : (fatSystem smallGeometry (smallDisk [0x0FFFFFF8, 0x0FFFFFFF, eoc, 128])).step _
      (.free 2 3) (fs, t) := FatStep.free hfree hfree'
  exact ⟨(fs, t), .step (.free 2 3) (.init (mounted_init _)) hstep, hentry, hfirst, hsecond⟩

end Cervus.Fat32
