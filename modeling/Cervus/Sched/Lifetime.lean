import Cervus.Sched.Task

/-! # How long a pagemap lives

    A pagemap is released with the task that has one of the two flags for it. Threads have
    the pagemap of their creator without a flag and without a count, so nothing keeps the
    creator from being reaped first, while they still use it.

    A step is `Orderly` when it destroys no task whose pagemap another task uses (and lets
    none of them leave its pagemap by `execve`). A step keeps the pagemaps that are used live
    exactly when it is orderly (`perform_live_iff`). -/

namespace Cervus.Sched

open Function Option

/-! ## Section 1: Who uses a pagemap -/

/-- What a task has to do with pagemaps: the one it uses, and whether it releases it. -/
def Task.space (task : Task) : Option Pagemap × Bool := (task.pagemap, task.owns)

/-- The same of a task that has not been destroyed. -/
def spaceOf (s : SchedState) (t : TaskId) : Option (Option Pagemap × Bool) :=
  (s.tasks t).map Task.space

/-- The task has not been destroyed, and has the pagemap. -/
def Uses (s : SchedState) (t : TaskId) (map : Pagemap) : Prop :=
  ∃ owns, spaceOf s t = some (some map, owns)

/-- The task releases the pagemap when it is destroyed. -/
def Owns (s : SchedState) (t : TaskId) (map : Pagemap) : Prop :=
  spaceOf s t = some (some map, true)

/-- No pagemap that is used has been released. -/
def PagemapsLive (s : SchedState) : Prop := ∀ t map, Uses s t map → s.live map = true

/-- No other task uses the pagemap that the task would release. -/
def Sole (s : SchedState) (t : TaskId) : Prop :=
  ∀ map, Owns s t map → ∀ u, u ≠ t → ¬ Uses s u map

/-- The condition on a step. -/
def Orderly (s : SchedState) : Call → Prop
  | .wait cpu pidArg _ copied => ∀ me ∈ s.current cpu, ∀ z ∈ reaped s me pidArg copied, Sole s z
  | .execve cpu _ => ∀ me ∈ s.current cpu, Sole s me
  | .deferredFree cpu => ∀ dead ∈ s.deferred cpu, Sole s dead
  | .reschedule cpu _ => ∀ dead ∈ s.deferred cpu, Sole s dead
  | _ => True

/-! ## Section 2: Steps that leave pagemaps alone -/

/-- Nothing has changed for pagemaps. -/
structure Same (s s' : SchedState) : Prop where
  space : ∀ t, spaceOf s' t = spaceOf s t
  live  : s'.live = s.live

theorem Same.refl (s : SchedState) : Same s s := ⟨fun _ => rfl, rfl⟩

variable {s s' : SchedState} {f : SchedState → TaskId → SchedState} {t : TaskId} {task : Task}
  {map : Pagemap} (pid : Nat)

theorem Same.trans {s1 s2 : SchedState} (h : Same s s1) (h' : Same s1 s2) : Same s s2 :=
  ⟨fun t => (h'.space t).trans (h.space t), h'.live.trans h.live⟩

theorem Same.uses_iff (h : Same s s') (t : TaskId) (map : Pagemap) :
    Uses s' t map ↔ Uses s t map := by
  unfold Uses
  rw [h.space]

theorem Same.live_iff (h : Same s s') : PagemapsLive s' ↔ PagemapsLive s := by
  unfold PagemapsLive
  simp only [h.uses_iff, h.live]

theorem Same.sole_iff (h : Same s s') (t : TaskId) : Sole s' t ↔ Sole s t := by
  unfold Sole Owns
  simp only [h.uses_iff, h.space]

/-- Other fields of one task are written. -/
theorem Same.modify (s : SchedState) (t : TaskId) {f : Task → Task}
    (hf : ∀ task, (f task).space = task.space) : Same s (s.modify t f) := by
  refine ⟨?_, rfl⟩
  intro u
  by_cases hu : u = t
  · rw [hu]
    simp only [spaceOf, SchedState.modify, update_self, map_map]
    congr 1
    exact funext hf
  · simp only [spaceOf, SchedState.modify, update_of_ne hu]

/-- A loop over tasks. -/
theorem Same.foldl (hf : ∀ s t, Same s (f s t)) (ts : List TaskId) (s : SchedState) :
    Same s (ts.foldl f s) := by
  induction ts generalizing s with
  | nil => exact .refl s
  | cons t ts ih => exact (hf s t).trans (ih (f s t))

section

variable (s) (me : TaskId)

theorem taskAllocPid_same : Same s (taskAllocPid s).2 := ⟨fun _ => rfl, rfl⟩

theorem pidRegister_same (t : TaskId) : Same s (pidRegister s pid t) := by
  unfold pidRegister
  split
  · exact ⟨fun _ => rfl, rfl⟩
  · exact .refl s

theorem pidUnregister_same : Same s (pidUnregister s pid) := by
  unfold pidUnregister
  split
  · exact ⟨fun _ => rfl, rfl⟩
  · exact .refl s

theorem addChild_same (parent t : TaskId) : Same s (addChild s parent t) :=
  .modify s parent fun _ => rfl

theorem taskReparent_same (child newParent : TaskId) : Same s (taskReparent s child newParent) := by
  unfold taskReparent
  split
  · exact .refl s
  · apply Same.trans _ (addChild_same _ _ _)
    exact .modify s child fun _ => rfl

theorem taskWakeupWaiters_same : Same s (taskWakeupWaiters s pid) := by
  apply Same.foldl
  intro s t
  exact .modify s t fun _ => rfl

theorem orphanChildren_same (children : List TaskId) :
    Same s (orphanChildren s me children) := by
  unfold orphanChildren
  split
  · exact .refl s
  split
  · exact .refl s
  · apply Same.trans _ (Same.foldl (fun s child => taskReparent_same s child _) children _)
    exact .modify s me fun _ => rfl

/-- **`task_exit`** keeps the pagemap of the task, until it is destroyed. -/
theorem taskExit_same : Same s (taskExit s me) := by
  unfold taskExit
  cases s.tasks me with
  | none => exact .refl s
  | some task =>
    apply Same.trans _ (taskWakeupWaiters_same _ _)
    apply (orphanChildren_same s me task.children).trans
    exact .modify _ me fun _ => rfl

theorem unlinkChild_same (z : TaskId) : Same s (unlinkChild s me z) := by
  have hlist : Same s (s.modify me fun p => { p with children := p.children.erase z }) :=
    .modify s me fun _ => rfl
  exact hlist.trans (.modify _ z fun _ => rfl)

theorem retire_same (cpu : Nat) (old : TaskId) : Same s (retire s cpu old) := by
  unfold retire
  split
  · exact .refl s
  split
  · split
    · exact ⟨fun _ => rfl, rfl⟩
    · exact .refl s
  · split
    · exact .modify s old fun _ => rfl
    · exact .refl s

end

theorem Same.onSome (t : Option TaskId) (hf : ∀ t, Same s (f s t)) : Same s (onSome s t f) := by
  cases t with
  | none => exact .refl s
  | some t => exact hf t

/-- **`sched_reschedule`** destroys the task that the CPU was left with, and does nothing
    else to pagemaps. -/
theorem schedReschedule_same (s : SchedState) (cpu : Nat) (next : Option TaskId) :
    Same (processDeferredFree s cpu) (schedReschedule s cpu next) := by
  unfold schedReschedule
  generalize processDeferredFree s cpu = s1
  simp only
  split
  · exact .refl s1
  generalize hs2 : onSome s1 (s1.current cpu) (fun s t => retire s cpu t) = s2
  generalize hs3 : onSome s2 next enterCpu = s3
  have hretire : Same s1 s2 := hs2 ▸ .onSome _ fun t => retire_same s1 cpu t
  have henter : Same s2 s3 := hs3 ▸ .onSome _ fun t => .modify s2 t fun _ => rfl
  have hcurrent : Same s3 { s3 with current := update s3.current cpu next } := ⟨fun _ => rfl, rfl⟩
  apply ((hretire.trans henter).trans hcurrent).trans
  exact .onSome _ fun t => .modify _ t fun _ => rfl

/-! ## Section 3: New tasks -/

theorem PagemapsLive.setTask (h : PagemapsLive s)
    (hlive : ∀ map, task.pagemap = some map → s.live map = true) :
    PagemapsLive (s.setTask t task) := by
  intro u map huses
  obtain ⟨owns, hspace⟩ := huses
  by_cases hu : u = t
  · rw [hu] at hspace
    simp only [spaceOf, SchedState.setTask, update_self, map_some, Task.space,
      some.injEq, Prod.mk.injEq] at hspace
    exact hlive map hspace.1
  · simp only [spaceOf, SchedState.setTask, update_of_ne hu] at hspace
    exact h u map ⟨owns, hspace⟩

theorem PagemapsLive.makePagemap (h : PagemapsLive s) : PagemapsLive (s.makePagemap map) := by
  intro t m huses
  show update s.live map true m = true
  by_cases hm : m = map
  · rw [hm, update_self]
  · rw [update_of_ne hm]
    exact h t m huses

theorem makePagemap_live (s : SchedState) (map : Pagemap) : (s.makePagemap map).live map = true :=
  update_self _ _ _

/-- A new pagemap that is released at once. -/
theorem makePagemap_free_same (h : s.live map = false) :
    Same s ((s.makePagemap map).vmmFreePagemap map) := by
  refine ⟨fun _ => rfl, ?_⟩
  show update (update s.live map true) map false = s.live
  rw [update_idem, ← h, update_eq_self]

theorem taskCreate_live (h : PagemapsLive s) (mem : Option TaskId) (stack : Bool) :
    PagemapsLive (taskCreate s mem stack).2 := by
  unfold taskCreate
  cases mem with
  | none => exact h
  | some t =>
    have hpid := (taskAllocPid_same s).live_iff.mpr h
    simp only
    split
    · exact hpid
    split
    · exact hpid
    · exact (pidRegister_same _ _ _).live_iff.mpr (hpid.setTask nofun)

theorem startUser_live (h : PagemapsLive s) (hfresh : s.live map = false) (mem : Option TaskId)
    (stack : Bool) : PagemapsLive (startUser s mem stack map) := by
  -- without a task the pagemap is gone again
  have hgone := (makePagemap_free_same hfresh).live_iff.mpr h
  unfold startUser taskCreateUser
  cases mem with
  | none => exact hgone
  | some t =>
    have hsame := taskAllocPid_same (s.makePagemap map)
    have hpid := hsame.live_iff.mpr h.makePagemap
    simp only
    by_cases h0 : (taskAllocPid (s.makePagemap map)).1 = 0
    · rw [if_pos h0]
      exact hgone
    rw [if_neg h0]
    cases stack with
    | false => exact hgone
    | true =>
      apply (pidRegister_same _ _ _).live_iff.mpr
      apply hpid.setTask
      intro m hm
      cases hm
      exact makePagemap_live s map

/-- A child is added and registered. -/
theorem PagemapsLive.child {parent : TaskId} (h : PagemapsLive s)
    (hlive : ∀ map, task.pagemap = some map → s.live map = true) :
    PagemapsLive (pidRegister (addChild (s.setTask t task) parent t) pid t) :=
  ((addChild_same _ _ _).trans (pidRegister_same _ _ _)).live_iff.mpr (h.setTask hlive)

/-- **`task_spawn_thread`** gives the new task a pagemap that its parent uses. -/
theorem taskSpawnThread_live (h : PagemapsLive s) (parent : TaskId) (mem : Option TaskId)
    (stack : Bool) : PagemapsLive (taskSpawnThread s parent mem stack).2 := by
  unfold taskSpawnThread
  cases hp : s.tasks parent with
  | none => exact h
  | some p =>
    have hsame := taskAllocPid_same s
    have hpid := hsame.live_iff.mpr h
    simp only
    cases hm : p.pagemap with
    | none => exact h
    | some map =>
      have huses : Uses s parent map := ⟨p.owns, by simp [spaceOf, hp, Task.space, hm]⟩
      cases mem with
      | none => exact h
      | some t =>
        simp only
        split
        · exact hpid
        split
        · exact hpid
        apply hpid.child
        intro m hm
        cases hm
        exact h parent map huses

/-- **`task_fork`** gives the new task a pagemap of its own. -/
theorem taskFork_live (h : PagemapsLive s) (parent : TaskId) (mem : Option TaskId)
    {clone : Option Pagemap} (hfresh : FreshMap s clone) (stack : Bool) :
    PagemapsLive (taskFork s parent mem clone stack).2 := by
  unfold taskFork
  cases s.tasks parent with
  | none => exact h
  | some p =>
    cases mem with
    | none => exact h
    | some t =>
      have hsame := taskAllocPid_same s
      have hpid := hsame.live_iff.mpr h
      simp only
      split
      · exact hpid
      cases p.pagemap with
      | none => exact hpid
      | some own =>
        cases clone with
        | none => exact hpid
        | some map =>
          cases stack with
          | false =>
            have hlive : (taskAllocPid s).2.live map = false := hfresh map rfl
            exact (makePagemap_free_same hlive).live_iff.mpr hpid
          | true =>
            apply hpid.makePagemap.child
            intro m hm
            cases hm
            exact makePagemap_live _ map

/-! ## Section 4: Destruction -/

theorem spaceOf_freeTask (s : SchedState) (t u : TaskId) :
    spaceOf (s.freeTask t) u = if u = t then none else spaceOf s u := by
  by_cases hu : u = t
  · simp only [hu, spaceOf, SchedState.freeTask, update_self, map_none, if_true]
  · simp only [hu, spaceOf, SchedState.freeTask, update_of_ne hu, if_false]

/-- What `task_destroy` and `execve` release. -/
theorem releaseOwn_live (s : SchedState) (task : Task) (map : Pagemap) :
    (releaseOwn s task).live map = true ↔ s.live map = true ∧ task.space ≠ (some map, true) := by
  unfold releaseOwn Task.space
  cases hm : task.pagemap with
  | none => simp
  | some own =>
    cases howns : task.owns with
    | false => simp
    | true =>
      show update s.live own false map = true ↔ _
      by_cases heq : map = own
      · rw [heq, update_self]
        simp
      · rw [update_of_ne heq]
        simp [Ne.symm heq]

theorem spaceOf_releaseOwn (s : SchedState) (task : Task) (u : TaskId) :
    spaceOf (releaseOwn s task) u = spaceOf s u := by
  unfold releaseOwn
  split
  · rfl
  split
  · rfl
  · rfl

theorem sole_of_none (ht : s.tasks t = none) : Sole s t := by
  intro map howns
  simp [Owns, spaceOf, ht] at howns

/-- A step that changes the pagemap of `t` alone and releases the one `t` owned. -/
theorem live_iff_sole (hspace : spaceOf s t = some task.space)
    (hother : ∀ u, u ≠ t → spaceOf s' u = spaceOf s u)
    (hlive : ∀ u map, Uses s u map → (s'.live map = true ↔ task.space ≠ (some map, true)))
    (hself : ∀ map, Uses s' t map → s'.live map = true) : PagemapsLive s' ↔ Sole s t := by
  have huses : ∀ u map, u ≠ t → (Uses s' u map ↔ Uses s u map) := by
    intro u map hu
    rw [Uses, hother u hu, Uses]
  constructor
  · intro hafter map howns u hu huse
    have hkept := (hlive u map huse).mp (hafter u map ((huses u map hu).mpr huse))
    exact hkept (some.inj (hspace.symm.trans howns))
  intro hsole u map huse
  by_cases hu : u = t
  · exact hself map (hu ▸ huse)
  · have huse := (huses u map hu).mp huse
    refine (hlive u map huse).mpr fun heq => ?_
    exact hsole map (by rw [Owns, hspace, heq]) u hu huse

section

variable (h : PagemapsLive s)
include h

/-- **`task_destroy`** leaves all pagemaps in use live exactly when no other task uses the
    one that it releases. -/
theorem taskDestroy_live_iff (t : TaskId) : PagemapsLive (taskDestroy s t) ↔ Sole s t := by
  unfold taskDestroy
  cases ht : s.tasks t with
  | none => exact iff_of_true h (sole_of_none ht)
  | some task =>
    have hsame := pidUnregister_same s task.pid
    refine live_iff_sole (by simp [spaceOf, ht] : spaceOf s t = some task.space) ?_ ?_ ?_
    · intro u hu
      simp [spaceOf_freeTask, spaceOf_releaseOwn, hsame.space, hu]
    · intro u map huse
      show (releaseOwn (pidUnregister s task.pid) task).live map = true ↔ _
      rw [releaseOwn_live, hsame.live]
      simp [h u map huse]
    · intro map huse
      simp [Uses, spaceOf_freeTask] at huse

theorem processDeferredFree_live_iff (cpu : Nat) :
    PagemapsLive (processDeferredFree s cpu) ↔ ∀ dead ∈ s.deferred cpu, Sole s dead := by
  unfold processDeferredFree
  cases s.deferred cpu with
  | none => exact iff_of_true h nofun
  | some dead =>
    have hsame : Same s { s with deferred := update s.deferred cpu none } := ⟨fun _ => rfl, rfl⟩
    simp only [mem_some_iff, forall_eq']
    rw [taskDestroy_live_iff (hsame.live_iff.mpr h), hsame.sole_iff]

/-- **`sys_wait`** -/
theorem sysWait_live_iff (me : TaskId) (pidArg : BitVec 64) (wnohang copied : Bool) :
    PagemapsLive (sysWait s me pidArg wnohang copied).2 ↔
      ∀ z ∈ reaped s me pidArg copied, Sole s z := by
  unfold sysWait reaped
  cases s.tasks me with
  | none => exact iff_of_true h nofun
  | some p =>
    simp only
    cases hfind : findZombie s pidArg p.children with
    | mk found still =>
      cases found with
      | some z =>
        cases copied with
        | false => exact iff_of_true h nofun
        | true =>
          have hsame := unlinkChild_same s me z
          simp only [Bool.not_true, Bool.false_eq_true, if_false, if_true, mem_some_iff,
            forall_eq']
          rw [taskDestroy_live_iff (hsame.live_iff.mpr h), hsame.sole_iff]
      | none =>
        -- nobody is destroyed, whether the caller returns, tries again or blocks
        have hnone : ∀ z ∈ (if copied then none else none : Option TaskId), Sole s z := by
          cases copied <;> exact nofun
        apply iff_of_true _ hnone
        cases still with
        | true => exact h
        | false =>
          cases wnohang with
          | true => exact h
          | false =>
            refine (Same.live_iff ?_).mpr h
            exact .modify s me fun _ => rfl

/-- **`execve`** leaves the old pagemap behind. -/
theorem execve_live_iff (hfresh : s.live map = false) (me : TaskId) :
    PagemapsLive (execve s me map) ↔ Sole s me := by
  unfold execve
  cases hme : s.tasks me with
  | none => exact iff_of_true h (sole_of_none hme)
  | some task =>
    have hspace : spaceOf s me = some task.space := by simp [spaceOf, hme]
    have hold : ∀ u m, Uses s u m → m ≠ map := by
      intro u m huse heq
      rw [← heq, h u m huse] at hfresh
      cases hfresh
    generalize hs' : (s.makePagemap map).modify me (fun t : Task =>
      { t with pagemap := some map, ownPagemap := true, isFork := false }) = s'
    have hself : spaceOf s' me = some (some map, true) := by
      rw [← hs']
      simp [spaceOf, SchedState.modify, SchedState.makePagemap, hme, Task.space, Task.owns]
    have hother : ∀ u, u ≠ me → spaceOf s' u = spaceOf s u := by
      intro u hu
      rw [← hs']
      simp only [spaceOf, SchedState.modify, update_of_ne hu, SchedState.makePagemap]
    have hlive : s'.live = update s.live map true := by rw [← hs']; rfl
    refine live_iff_sole hspace ?_ ?_ ?_
    · intro u hu
      rw [spaceOf_releaseOwn, hother u hu]
    · intro u m huse
      rw [releaseOwn_live, hlive, update_of_ne (hold u m huse)]
      simp [h u m huse]
    -- the task itself has the new pagemap
    rintro m ⟨owns, huse⟩
    rw [spaceOf_releaseOwn, hself] at huse
    cases huse
    rw [releaseOwn_live, hlive]
    refine ⟨update_self _ _ _, ?_⟩
    intro heq
    exact hold me map ⟨true, by rw [hspace, heq]⟩ rfl

/-! ## Section 5: Runs -/

/-- What one step does, made by the task of a CPU or by none. -/
theorem onTask_live_iff (cpu : Nat) {f : TaskId → SchedState} {ok : TaskId → Prop}
    (hf : ∀ t, PagemapsLive (f t) ↔ ok t) :
    PagemapsLive (onTask s cpu f) ↔ ∀ t ∈ s.current cpu, ok t := by
  unfold onTask
  cases s.current cpu with
  | none => exact iff_of_true h nofun
  | some t =>
    simp only [mem_some_iff, forall_eq']
    exact hf t

/-- A step keeps used pagemaps live exactly when it is orderly. -/
theorem perform_live_iff {c : Call} (he : Enabled s c) :
    PagemapsLive (perform s c) ↔ Orderly s c := by
  cases c with
  | create mem stack => exact iff_of_true (taskCreate_live h mem stack) trivial
  | createUser mem stack map =>
    exact iff_of_true (startUser_live h (he.2 map rfl) mem stack) trivial
  | spawnThread cpu mem stack =>
    have hkeeps := onTask_live_iff h cpu fun t =>
      iff_of_true (taskSpawnThread_live h t mem stack) trivial
    exact iff_of_true (hkeeps.mpr fun _ _ => trivial) trivial
  | fork cpu mem clone stack =>
    have hkeeps := onTask_live_iff h cpu fun t =>
      iff_of_true (taskFork_live h t mem he.2.2 stack) trivial
    exact iff_of_true (hkeeps.mpr fun _ _ => trivial) trivial
  | exit cpu =>
    have hkeeps := onTask_live_iff h cpu fun t =>
      iff_of_true ((taskExit_same s t).live_iff.mpr h) trivial
    exact iff_of_true (hkeeps.mpr fun _ _ => trivial) trivial
  | execve cpu map => exact onTask_live_iff h cpu fun t => execve_live_iff h (he.2 map rfl) t
  | wait cpu pidArg wnohang copied =>
    exact onTask_live_iff h cpu fun t => sysWait_live_iff h t pidArg wnohang copied
  | deferredFree cpu => exact processDeferredFree_live_iff h cpu
  | reschedule cpu next =>
    exact (schedReschedule_same s cpu next).live_iff.trans (processDeferredFree_live_iff h cpu)

end

end Cervus.Sched
