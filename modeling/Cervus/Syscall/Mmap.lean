import Cervus.Memory.VmmFork
import Cervus.Syscall.Memory

/-! # Where `sys_mmap` puts mappings

    Without a hint, a mapping goes to the highest place below `brk_max` of the calling task,
    which then moves down, and the heap may grow up to `brk_max`. The marks belong to the
    task; threads get copies of them, while they share the page tables. So two threads
    that have the same marks are given the same range (`threads_share_a_range`).

    As long as every call is made by a task whose marks are the most recent ones, mappings
    are disjoint from each other and from the heap (`mappings_disjoint`): all of them lie
    above the lowest `brk_max`. -/

namespace Cervus.Vmm

open Cervus.Pmm Function List

/-! ## Section 1: The marks of a task -/

variable {addr length newBrk : BitVec 64} {pages t : Nat} {t' task task' : Task}
  {st st' vm' : VmState} {args : MapArgs} {r : Except Int (BitVec 64)} {s s' : Space}

/-- The pages of a range that does not wrap around. -/
theorem mem_rangePages {q : BitVec 64} (h : addr.toNat + pages * pageSize < 2 ^ 64)
    (hq : q ∈ rangePages addr pages) :
    addr.toNat ≤ q.toNat ∧ q.toNat + pageSize ≤ addr.toNat + pages * pageSize := by
  obtain ⟨i, hi, rfl⟩ := mem_map.mp hq
  rw [mem_range] at hi
  have hmul : (i + 1) * pageSize ≤ pages * pageSize := Nat.mul_le_mul_right _ hi
  rw [Nat.add_mul, Nat.one_mul] at hmul
  rw [toNat_add_page (by omega)]
  omega

theorem checkLength_ok (h : checkLength length = .ok pages) :
    pages = pageCount length ∧ pages ≤ 0x10000000 := by
  unfold checkLength at h
  split at h
  · cases h
  split at h
  · cases h
  split at h
  · cases h
  split at h
  · cases h
  · cases h
    exact ⟨rfl, by omega⟩

/-- A range below `brk_max`, and above the break. -/
theorem placeMapping_null {t : Task} (hp : pages ≤ 0x10000000)
    (h : placeMapping t 0#64 false pages = .ok (addr, t')) :
    t' = { t with brkMax := addr } ∧ t.brkCurrent.toNat < addr.toNat ∧
      addr.toNat + pages * pageSize ≤ t.brkMax.toNat := by
  have hspan : (BitVec.ofNat 64 pages * 0x1000#64).toNat = pages * pageSize := by
    have := @toNat_add_page 0#64 pages (by unfold pageSize; simp; omega)
    simpa using this
  unfold placeMapping at h
  simp only [Bool.false_eq_true, ne_eq, not_true_eq_false, or_self, if_false] at h
  split at h
  · cases h
  rename_i hmax
  split at h
  · cases h
  rename_i hcur
  cases h
  have hmax : (BitVec.ofNat 64 pages * 0x1000#64).toNat ≤ t.brkMax.toNat := Nat.not_lt.mp hmax
  have hcur : t.brkCurrent.toNat <
      ((t.brkMax - BitVec.ofNat 64 pages * 0x1000#64) &&& ~~~0xFFF#64).toNat := Nat.not_le.mp hcur
  refine ⟨rfl, hcur, ?_⟩
  rw [toNat_and_page, BitVec.toNat_sub_of_le hmax, hspan]
  have := Nat.div_mul_le_self (t.brkMax.toNat - pages * pageSize) pageSize
  omega

/-- What a `sys_mmap` without a hint does to the marks: only `brk_max` moves, and moves
    down. A mapping takes the range between the old and the new one. -/
structure Placed (t t' : Task) : Prop where
  start   : t'.brkStart = t.brkStart
  current : t'.brkCurrent = t.brkCurrent
  down    : t'.brkMax.toNat ≤ t.brkMax.toNat

theorem sysMmap_null {t : Task} (h : sysMmap st t 0#64 length args = some (r, t', st')) :
    Placed t t' ∧ ∀ addr, r = .ok addr → t'.brkMax = addr ∧ t.brkCurrent.toNat < addr.toNat ∧
      addr.toNat + pageCount length * pageSize ≤ t.brkMax.toNat := by
  have hkept : Placed t t := ⟨rfl, rfl, le_rfl⟩
  unfold sysMmap at h
  split at h
  · cases h
    exact ⟨hkept, nofun⟩
  split at h
  · cases h
    exact ⟨hkept, nofun⟩
  split at h
  · cases h
    exact ⟨hkept, nofun⟩
  rename_i pages hlength
  obtain ⟨rfl, hpages⟩ := checkLength_ok hlength
  split at h
  · cases h
    exact ⟨hkept, nofun⟩
  rename_i addr t1 hplace
  -- a fixed mapping at 0 is refused
  have hfixed : args.isFixed = true → checkRange addr (pageCount length) = some einval := by
    intro hfixed
    unfold placeMapping at hplace
    rw [if_pos (.inl hfixed)] at hplace
    cases hplace
    unfold checkRange
    simp
  have hmoved : args.isFixed = false → Placed t t1 := by
    intro hnot
    rw [hnot] at hplace
    obtain ⟨rfl, _, hle⟩ := placeMapping_null hpages hplace
    exact ⟨rfl, rfl, by show addr.toNat ≤ _; omega⟩
  have hplaced : Placed t t1 := by
    cases hf : args.isFixed with
    | false => exact hmoved hf
    | true =>
      unfold placeMapping at hplace
      rw [if_pos (.inl hf)] at hplace
      cases hplace
      exact hkept
  split at h
  · cases h
    exact ⟨hplaced, nofun⟩
  rename_i hrange
  split at h
  · cases h
  · cases h
    exact ⟨hplaced, nofun⟩
  cases h
  refine ⟨hplaced, ?_⟩
  intro a ha
  cases ha
  cases hf : args.isFixed with
  | true =>
    rw [hfixed hf] at hrange
    cases hrange
  | false =>
    rw [hf] at hplace
    obtain ⟨rfl, hcur, hle⟩ := placeMapping_null hpages hplace
    exact ⟨rfl, hcur, hle⟩

/-- What `sys_brk` does to them: the break stays, or is set to some place up to `brk_max`. -/
theorem sysBrk_marks {t : Task} (h : sysBrk st t newBrk = some (r, t', st')) :
    t'.brkMax = t.brkMax ∧
      (t'.brkCurrent = t.brkCurrent ∨ t'.brkCurrent.toNat ≤ t.brkMax.toNat) := by
  unfold sysBrk at h
  split at h
  · cases h
    exact ⟨rfl, .inl rfl⟩
  split at h
  · cases h
    exact ⟨rfl, .inl rfl⟩
  split at h
  · cases h
    exact ⟨rfl, .inl rfl⟩
  rename_i hbounds
  have hle : newBrk.toNat ≤ t.brkMax.toNat := Nat.not_lt.mp fun hlt => hbounds (.inr hlt)
  simp only at h
  split at h
  · split at h
    · cases h
    · cases h
      exact ⟨rfl, .inl rfl⟩
    · cases h
      exact ⟨rfl, .inr hle⟩
  split at h
  · cases h
  · cases h
    exact ⟨rfl, .inr hle⟩

/-! ## Section 2: Threads -/

/-- The tasks of one pagemap, and the pages of the mappings that `sys_mmap` has returned,
    as far as they have not been unmapped since. -/
structure Space where
  vm    : VmState
  tasks : Nat → Option Task
  maps  : List (List (BitVec 64))

/-- Calls of the tasks. -/
inductive SpaceCall where
  | spawn (parent child : Nat)
  | mmap (t : Nat) (length : BitVec 64) (args : MapArgs)
  | munmap (t : Nat) (addr length : BitVec 64)
  | brk (t : Nat) (newBrk : BitVec 64)

/-- A mapping that `sys_mmap` has returned. -/
def addMapping (maps : List (List (BitVec 64))) (length : BitVec 64) :
    Except Int (BitVec 64) → List (List (BitVec 64))
  | .error _ => maps
  | .ok addr => rangePages addr (pageCount length) :: maps

/-- Pages that `sys_munmap` has unmapped. -/
def dropPages (maps : List (List (BitVec 64))) (pages : List (BitVec 64)) :
    List (List (BitVec 64)) :=
  maps.map fun m => m.filter fun p => p ∉ pages

/-- The state after a call; there is none if the task does not exist or the call does not
    return. -/
def Space.perform (s : Space) : SpaceCall → Option Space
  | .spawn parent child => match s.tasks parent, s.tasks child with
    | some p, none => some { s with tasks := Function.update s.tasks child (some (spawnThread p)) }
    | _, _ => none
  | .mmap t length args => match s.tasks t with
    | none => none
    | some task => (sysMmap s.vm task 0#64 length args).map fun r =>
      { vm := r.2.2
        tasks := Function.update s.tasks t (some r.2.1)
        maps := addMapping s.maps length r.1 }
  | .munmap t addr length => match s.tasks t with
    | none => none
    | some task => (sysMunmap s.vm (some task) addr length).map fun r =>
      { s with
        vm := r.2
        maps := if r.1 = (0 : Int) then dropPages s.maps (munmapPages addr length) else s.maps }
  | .brk t newBrk => match s.tasks t with
    | none => none
    | some task => (sysBrk s.vm task newBrk).map fun r =>
      { s with vm := r.2.2, tasks := Function.update s.tasks t (some r.2.1) }

/-- One task and no mapping, and then any calls. -/
def spaceSystem : System Space SpaceCall where
  init s := s.maps = [] ∧ ∃ t task, s.tasks = Function.update (fun _ => none) t (some task)
  step s c s' := s.perform c = some s'

/-- A page and the heap of a task have a byte in common. -/
def InHeap (task : Task) (p : BitVec 64) : Prop :=
  task.brkStart.toNat < p.toNat + pageSize ∧ p.toNat < task.brkCurrent.toNat

/-- Mappings are disjoint from each other and from the heap. -/
structure MapsDisjoint (s : Space) : Prop where
  maps : s.maps.Pairwise List.Disjoint
  heap : ∀ m ∈ s.maps, ∀ p ∈ m, ∀ t task, s.tasks t = some task → ¬ InHeap task p

/-- No task has a lower `brk_max` than the caller; and for `sys_mmap`, none has a higher
    break. -/
def Recent (s : Space) : SpaceCall → Prop
  | .mmap t _ _ => ∀ task, s.tasks t = some task → ∀ u other, s.tasks u = some other →
      task.brkMax.toNat ≤ other.brkMax.toNat ∧ other.brkCurrent.toNat ≤ task.brkCurrent.toNat
  | .brk t _ => ∀ task, s.tasks t = some task → ∀ u other, s.tasks u = some other →
      task.brkMax.toNat ≤ other.brkMax.toNat
  | _ => True

/-! ## Section 3: Runs -/

/-- What runs of recent calls keep: mappings lie at or above some `brk_max`, and above
    every break. -/
structure Layered (s : Space) : Prop where
  maps  : s.maps.Pairwise List.Disjoint
  above : ∀ m ∈ s.maps, ∀ p ∈ m, ∃ t task, s.tasks t = some task ∧ task.brkMax.toNat ≤ p.toNat
  heap  : ∀ m ∈ s.maps, ∀ p ∈ m, ∀ t task, s.tasks t = some task →
    task.brkCurrent.toNat ≤ p.toNat

theorem Layered.disjoint (h : Layered s) : MapsDisjoint s := by
  refine ⟨h.maps, ?_⟩
  intro m hm p hp t task ht hin
  have := h.heap m hm p hp t task ht
  have := hin.2
  omega

/-- A task is written whose `brk_max` has not moved up, and whose break is below all
    mappings. -/
theorem Layered.update {old new : Task} (h : Layered s) (vm : VmState)
    (ht : s.tasks t = some old ∨ s.tasks t = none)
    (hmax : s.tasks t = some old → new.brkMax.toNat ≤ old.brkMax.toNat)
    (hcur : ∀ m ∈ s.maps, ∀ p ∈ m, new.brkCurrent.toNat ≤ p.toNat) :
    Layered { s with vm := vm, tasks := Function.update s.tasks t (some new) } := by
  refine ⟨h.maps, ?_, ?_⟩
  · intro m hm p hp
    obtain ⟨u, task, hu, hle⟩ := h.above m hm p hp
    by_cases hut : u = t
    · -- the mark that was below the page is the one that moved
      rw [hut] at hu
      have hold : task = old := by
        rcases ht with ht | ht
        · exact Option.some.inj (hu.symm.trans ht)
        · rw [hu] at ht
          cases ht
      rw [hold] at hu hle
      have := hmax hu
      exact ⟨t, new, update_self _ _ _, by omega⟩
    · exact ⟨u, task, by simp only [update_of_ne hut, hu], hle⟩
  intro m hm p hp u task hu
  by_cases hut : u = t
  · simp only [hut, update_self, Option.some.injEq] at hu
    rw [← hu]
    exact hcur m hm p hp
  · simp only [update_of_ne hut] at hu
    exact h.heap m hm p hp u task hu

section

variable (h : Layered s)
include h

/-- A mapping is added that lies below all others, and above every break. -/
theorem Layered.addMapping (ht : s.tasks t = some task) (hmax : task.brkMax = addr)
    (hfit : addr.toNat + pageCount length * pageSize < 2 ^ 64)
    (hbelow : ∀ m ∈ s.maps, ∀ p ∈ m, addr.toNat + pageCount length * pageSize ≤ p.toNat)
    (hheap : ∀ u other, s.tasks u = some other → other.brkCurrent.toNat ≤ addr.toNat) :
    Layered { s with maps := Vmm.addMapping s.maps length (.ok addr) } := by
  have hrange := fun q hq => @mem_rangePages addr (pageCount length) q hfit hq
  refine ⟨?_, ?_, ?_⟩
  · show (rangePages addr (pageCount length) :: s.maps).Pairwise List.Disjoint
    apply pairwise_cons.mpr
    refine ⟨?_, h.maps⟩
    intro m hm q hq hqm
    have hlt := (hrange q hq).2
    have := hbelow m hm q hqm
    have := pageSize_pos
    omega
  · refine forall_mem_cons.mpr ⟨?_, h.above⟩
    intro p hp
    refine ⟨t, task, ht, ?_⟩
    rw [hmax]
    exact (hrange p hp).1
  · exact forall_mem_cons.mpr
      ⟨fun p hp u other hu => (hheap u other hu).trans (hrange p hp).1, h.heap⟩

theorem Layered.dropPages (vm : VmState) (pages : List (BitVec 64)) :
    Layered { s with vm := vm, maps := Vmm.dropPages s.maps pages } := by
  -- each of the new lists is a part of an old one
  have hpart : ∀ m ∈ Vmm.dropPages s.maps pages, ∀ p ∈ m, ∃ m' ∈ s.maps, p ∈ m' := by
    intro m hm p hp
    obtain ⟨m', hm', rfl⟩ := mem_map.mp hm
    exact ⟨m', hm', (mem_filter.mp hp).1⟩
  refine ⟨?_, ?_, ?_⟩
  · apply pairwise_map.mpr
    apply h.maps.imp
    intro a b hab p hpa hpb
    exact hab (mem_filter.mp hpa).1 (mem_filter.mp hpb).1
  · intro m hm p hp
    obtain ⟨m', hm', hp'⟩ := hpart m hm p hp
    exact h.above m' hm' p hp'
  · intro m hm p hp
    obtain ⟨m', hm', hp'⟩ := hpart m hm p hp
    exact h.heap m' hm' p hp'

theorem Layered.spawn {parent child : Nat} {p : Task} (hp : s.tasks parent = some p)
    (hc : s.tasks child = none) :
    Layered { s with tasks := Function.update s.tasks child (some (spawnThread p)) } := by
  apply @Layered.update child s p (spawnThread p) h s.vm (.inr hc)
  · intro hsome
    rw [hc] at hsome
    cases hsome
  · intro m hm q hq
    exact h.heap m hm q hq parent p hp

/-- **`sys_mmap`** by a task with recent marks. -/
theorem Layered.mmap (ht : s.tasks t = some task)
    (hrecent : ∀ u other, s.tasks u = some other → task.brkMax.toNat ≤ other.brkMax.toNat ∧
      other.brkCurrent.toNat ≤ task.brkCurrent.toNat)
    (hcall : sysMmap s.vm task 0#64 length args = some (r, task', vm')) :
    Layered { vm := vm', tasks := Function.update s.tasks t (some task'),
              maps := Vmm.addMapping s.maps length r } := by
  obtain ⟨hplaced, hok⟩ := sysMmap_null hcall
  have hmoved : Layered { s with vm := vm', tasks := Function.update s.tasks t (some task') } := by
    apply h.update vm' (.inl ht) (fun _ => hplaced.down)
    intro m hm p hp
    rw [hplaced.current]
    exact h.heap m hm p hp t task ht
  cases r with
  | error e => exact hmoved
  | ok addr =>
    obtain ⟨hmax, hcur, hfit⟩ := hok addr rfl
    apply hmoved.addMapping (update_self _ _ _) hmax (by omega)
    · -- all mappings lie at or above the lowest mark, which is the caller's
      intro m hm p hp
      obtain ⟨u, other, hu, hle⟩ := h.above m hm p hp
      have := (hrecent u other hu).1
      omega
    intro u other hu
    by_cases hut : u = t
    · simp only [hut, update_self, Option.some.injEq] at hu
      rw [← hu, hplaced.current]
      omega
    · simp only [update_of_ne hut] at hu
      have := (hrecent u other hu).2
      omega

/-- **`sys_brk`** by a task whose `brk_max` is recent. -/
theorem Layered.brk (ht : s.tasks t = some task)
    (hrecent : ∀ u other, s.tasks u = some other → task.brkMax.toNat ≤ other.brkMax.toNat)
    (hcall : sysBrk s.vm task newBrk = some (r, task', vm')) :
    Layered { s with vm := vm', tasks := Function.update s.tasks t (some task') } := by
  obtain ⟨hmax, hbrk⟩ := sysBrk_marks hcall
  apply h.update vm' (.inl ht)
  · intro _
    rw [hmax]
  intro m hm p hp
  rcases hbrk with hsame | hle
  · rw [hsame]
    exact h.heap m hm p hp t task ht
  · obtain ⟨u, other, hu, habove⟩ := h.above m hm p hp
    have := hrecent u other hu
    omega

/-- One call. -/
theorem Layered.perform {c : SpaceCall} (hc : Recent s c) (hstep : s.perform c = some s') :
    Layered s' := by
  cases c with
  | spawn parent child =>
    simp only [Space.perform] at hstep
    split at hstep
    · rename_i p hp hchild
      cases hstep
      exact h.spawn hp hchild
    · cases hstep
  | mmap t length args =>
    simp only [Space.perform] at hstep
    split at hstep
    · cases hstep
    · rename_i task ht
      obtain ⟨⟨r, task', vm'⟩, hcall, rfl⟩ := Option.map_eq_some_iff.mp hstep
      exact h.mmap ht (hc task ht) hcall
  | munmap t addr length =>
    simp only [Space.perform] at hstep
    split at hstep
    · cases hstep
    obtain ⟨⟨r, vm'⟩, _, rfl⟩ := Option.map_eq_some_iff.mp hstep
    by_cases hr : r = 0
    · simp only [hr, if_true]
      exact h.dropPages vm' (munmapPages addr length)
    · simp only [hr, if_false]
      exact ⟨h.maps, h.above, h.heap⟩
  | brk t newBrk =>
    simp only [Space.perform] at hstep
    split at hstep
    · cases hstep
    · rename_i task ht
      obtain ⟨⟨r, task', vm'⟩, hcall, rfl⟩ := Option.map_eq_some_iff.mp hstep
      exact h.brk ht (hc task ht) hcall

end

/-- **Mappings do not collide** in a run in which each `sys_mmap` and `sys_brk` is made by
    a task with the most recent marks. -/
theorem mappings_disjoint {s : Space} (h : (spaceSystem.restrict Recent).Reachable s) :
    MapsDisjoint s := by
  apply Layered.disjoint
  apply System.Reachable.induct _ _ h
  · intro s hinit
    have hnone : ∀ m, m ∉ s.maps := by simp [hinit.1]
    refine ⟨by rw [hinit.1]; exact .nil, ?_, ?_⟩
    · exact fun m hm => absurd hm (hnone m)
    · exact fun m hm => absurd hm (hnone m)
  · intro s c s' _ hs hstep
    exact hs.perform hstep.1 hstep.2

/-! ## Section 4: Two threads -/

/-- A task with an empty heap at 4 MiB, and a pagemap that maps nothing. -/
def oneTask : Space where
  vm := bootState 63
  tasks := Function.update (fun _ => none) 0
    (some ⟨true, pageSize * 512, 0x400000#64, 0x400000#64, 0x700000000000#64⟩)
  maps := []

/-- An anonymous mapping that can be read and written. -/
def anonymousArgs : MapArgs := ⟨true, false, true, false, BitVec.allOnes 64, .error 0⟩

/-- **Two threads are given the same page.** -/
theorem threads_share_a_range :
    ∃ s, spaceSystem.Reachable s ∧ s.maps = [[0x6FFFFFFFF000#64], [0x6FFFFFFFF000#64]] ∧
      ¬ MapsDisjoint s := by
  have hrun : (System.replay Space.perform oneTask [.spawn 0 1,
      .mmap 0 0x1000#64 anonymousArgs, .mmap 1 0x1000#64 anonymousArgs]).map Space.maps =
      some [[0x6FFFFFFFF000#64], [0x6FFFFFFFF000#64]] := by
    decide +kernel
  obtain ⟨s, hs, hmaps⟩ := Option.map_eq_some_iff.mp hrun
  have hinit : spaceSystem.Reachable oneTask := .init ⟨rfl, 0, _, rfl⟩
  refine ⟨s, hinit.replay (fun _ _ _ => id) hs, hmaps, ?_⟩
  intro hdisjoint
  have hpair := hdisjoint.maps
  rw [hmaps] at hpair
  exact rel_of_pairwise_cons hpair (mem_singleton_self _) (mem_singleton_self _)
    (mem_singleton_self _)

/-- Of two tasks the second has the most recent marks. -/
theorem recent_second {a b : Task} {length : BitVec 64}
    (hs : s.tasks = update (update (fun _ => none) 0 (some a)) 1 (some b))
    (hmax : b.brkMax.toNat ≤ a.brkMax.toNat) (hcur : a.brkCurrent.toNat ≤ b.brkCurrent.toNat) :
    Recent s (.mmap 1 length args) := by
  intro task ht u other hu
  rw [hs, update_self, Option.some.injEq] at ht
  subst ht
  rw [hs] at hu
  by_cases h1 : u = 1
  · rw [h1, update_self, Option.some.injEq] at hu
    rw [← hu]
    exact ⟨le_rfl, le_rfl⟩
  by_cases h0 : u = 0
  · rw [update_of_ne h1, h0, update_self, Option.some.injEq] at hu
    rw [← hu]
    exact ⟨hmax, hcur⟩
  · rw [update_of_ne h1, update_of_ne h0] at hu
    cases hu

/-- A task starts a thread, which maps two ranges. -/
theorem mappings_disjoint_two :
    ∃ s, s.maps = [[0x6FFFFFFFE000#64], [0x6FFFFFFFF000#64]] ∧ MapsDisjoint s := by
  have hrun : ((oneTask.perform (.spawn 0 1)).bind fun s =>
      (s.perform (.mmap 1 0x1000#64 anonymousArgs)).bind fun s =>
        s.perform (.mmap 1 0x1000#64 anonymousArgs)).map Space.maps =
      some [[0x6FFFFFFFE000#64], [0x6FFFFFFFF000#64]] := by
    decide +kernel
  obtain ⟨s2, hbind, hmaps⟩ := Option.map_eq_some_iff.mp hrun
  obtain ⟨s0, hspawn, hbind⟩ := Option.bind_eq_some_iff.mp hbind
  obtain ⟨s1, hfirst, hsecond⟩ := Option.bind_eq_some_iff.mp hbind
  have hreach0 : (spaceSystem.restrict Recent).Reachable s0 :=
    .step (.spawn 0 1) (.init ⟨rfl, 0, _, rfl⟩) ⟨trivial, hspawn⟩
  cases hspawn
  have hreach1 := hreach0.step _ ⟨recent_second rfl le_rfl le_rfl, hfirst⟩
  -- the mapping has moved the thread's mark down
  obtain ⟨⟨r, task, vm⟩, hcall, rfl⟩ := Option.map_eq_some_iff.mp hfirst
  have hplaced := (sysMmap_null hcall).1
  have hreach2 := hreach1.step _
    ⟨recent_second (update_idem _ _ _) hplaced.down (by rw [hplaced.current]; exact le_rfl),
      hsecond⟩
  exact ⟨s2, hmaps, mappings_disjoint hreach2⟩

end Cervus.Vmm
