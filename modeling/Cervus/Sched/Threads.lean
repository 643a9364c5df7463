import Cervus.Sched.Lifetime

/-! # Threads and their creators

    A thread is a child of the task that has started it until it is reaped. If every task reaps
    the threads that it has started before it exits or leaves its pagemap by `execve`, the owner
    of a pagemap is the last to use it: each thread leads up, from creator to creator, to the
    owner, and none of those above it has exited. -/

namespace Cervus.Sched

open Function

/-! ## Section 1: The family of tasks -/

/-- What the tree of tasks is made of. -/
structure Kin where
  parent   : Option TaskId
  children : List TaskId
  pagemap  : Option Pagemap
  owns     : Bool
  zombie   : Bool
  onCpu    : Bool

def Task.kin (task : Task) : Kin where
  parent := task.parent
  children := task.children
  pagemap := task.pagemap
  owns := task.owns
  zombie := decide (task.state = .zombie)
  onCpu := task.onCpu

/-- The tasks that have not been destroyed. -/
abbrev Family := TaskId → Option Kin

def SchedState.family (s : SchedState) : Family := fun t => (s.tasks t).map Task.kin

/-- The task uses the pagemap, and is its owner or not. -/
def Family.Uses (k : Family) (t : TaskId) (map : Pagemap) (owns : Bool) : Prop :=
  ∃ kt, k t = some kt ∧ kt.pagemap = some map ∧ kt.owns = owns

/-- Children are there, know their parent, and are listed once. -/
structure Family.Linked (k : Family) : Prop where
  child : ∀ p kp, k p = some kp → ∀ c ∈ kp.children, ∃ kc, k c = some kc ∧ kc.parent = some p
  nodup : ∀ p kp, k p = some kp → kp.children.Nodup

/-- The way from a task up to the owner of its pagemap, through creators that have not exited. -/
inductive Family.Under (k : Family) (map : Pagemap) : TaskId → Prop where
  | owner {t : TaskId} : k.Uses t map true → Under k map t
  | thread {t p : TaskId} {kp : Kin} : k.Uses t map false → k p = some kp → t ∈ kp.children →
      kp.zombie = false → Under k map p → Under k map t

/-- Every thread is under the owner of its pagemap, and a pagemap has one owner. -/
structure Family.Rooted (k : Family) : Prop where
  under : ∀ t map owns, k.Uses t map owns → k.Under map t
  owner : ∀ t t' map, k.Uses t map true → k.Uses t' map true → t = t'

/-- No two CPUs have one task. -/
def Apart (f : Nat → Option TaskId) : Prop := ∀ cpu cpu' t, f cpu = some t → f cpu' = some t →
  cpu = cpu'

/-- Tasks that a CPU has, or has left and is about to destroy. -/
structure Placed (s : SchedState) : Prop where
  current  : ∀ cpu t, s.current cpu = some t → ∃ kt, s.family t = some kt ∧ kt.onCpu = true
  alone    : Apart s.current
  deferred : ∀ cpu t, s.deferred cpu = some t → ∃ kt, s.family t = some kt ∧ kt.zombie = true ∧
    kt.parent = none ∧ kt.onCpu = false
  once     : Apart s.deferred

/-- The threads that the task has started have been reaped: its children have pagemaps of their
    own, if any. -/
def Family.Joined (k : Family) (t : TaskId) : Prop :=
  ∀ kt ∈ k t, ∀ c ∈ kt.children, ∀ kc ∈ k c, kc.owns = true ∨ kc.pagemap = none

instance (k : Family) (t : TaskId) : Decidable (k.Joined t) :=
  inferInstanceAs (Decidable (∀ kt ∈ k t, ∀ c ∈ kt.children, ∀ kc ∈ k c,
    kc.owns = true ∨ kc.pagemap = none))

variable {k k' : Family} {t u p c : TaskId} {kt kt' kp : Kin} {map : Pagemap}

theorem Family.Joined.not_uses (h : k.Joined t) (ht : k t = some kt) (hc : c ∈ kt.children) :
    ¬ k.Uses c map false := by
  rintro ⟨kc, hkc, hmap, howns⟩
  rcases h kt ht c hc kc hkc with htrue | hnone
  · cases howns.symm.trans htrue
  · cases hmap.symm.trans hnone

/-! ## Section 2: Changes of the tree -/

/-- A way up is kept by a change that keeps the tasks on it and their children. -/
theorem Family.Under.of_kept {Kept : TaskId → Prop} (h : k.Under map t) (ht : Kept t)
    (huses : ∀ t map owns, Kept t → k.Uses t map owns → k'.Uses t map owns)
    (hedge : ∀ p kp c map, k p = some kp → kp.zombie = false → c ∈ kp.children → Kept c →
      k.Uses c map false → Kept p ∧ ∃ kp', k' p = some kp' ∧ kp'.zombie = false ∧
        c ∈ kp'.children) :
    k'.Under map t := by
  induction h with
  | owner hown => exact .owner (huses _ _ _ ht hown)
  | thread huse hp hmem hlive _ ih =>
    obtain ⟨hkept, kp', hp', hlive', hmem'⟩ := hedge _ _ _ _ hp hlive hmem ht huse
    exact .thread (huses _ _ _ ht huse) hp' hmem' hlive' (ih hkept)

/-- An owner that has exited, or has reaped its threads, is the only one to use its pagemap. -/
theorem Family.Rooted.sole (h : k.Rooted) (hown : k.Uses t map true)
    (hlast : ∀ kt, k t = some kt → kt.zombie = false → ∀ c ∈ kt.children, ¬ k.Uses c map false)
    {owns : Bool} (huse : k.Uses u map owns) : u = t := by
  have hunder := h.under u map owns huse
  clear huse
  induction hunder with
  | owner huse => exact h.owner _ _ _ huse hown
  | thread huse hp hmem hlive _ ih =>
    subst ih
    exact absurd huse (hlast _ hp hlive _ hmem)

theorem Family.uses_update_of_ne (h : u ≠ t) {owns : Bool} {kt : Option Kin} :
    Family.Uses (update k t kt) u map owns ↔ k.Uses u map owns := by
  unfold Family.Uses
  rw [update_of_ne h]

theorem Family.uses_update_self {owns : Bool} :
    Family.Uses (update k t (some kt)) t map owns ↔ kt.pagemap = some map ∧ kt.owns = owns := by
  unfold Family.Uses
  rw [update_self]
  simp

/-- Some fields of a task are written. -/
def Family.modify (k : Family) (t : TaskId) (f : Kin → Kin) : Family := update k t ((k t).map f)

theorem Family.modify_self (h : k t = some kt) (f : Kin → Kin) : k.modify t f t = some (f kt) := by
  unfold Family.modify
  rw [update_self, h]
  rfl

theorem Family.modify_of_ne (h : u ≠ t) (f : Kin → Kin) : k.modify t f u = k u := update_of_ne h _ _

/-- A field of the result, when the change keeps it or not. -/
theorem Family.modify_cases {f : Kin → Kin} (h : k.modify t f u = some kt') :
    ∃ ku, k u = some ku ∧ kt' = if u = t then f ku else ku := by
  by_cases hu : u = t
  · subst hu
    unfold Family.modify at h
    rw [update_self] at h
    obtain ⟨ku, hku, rfl⟩ := Option.map_eq_some_iff.mp h
    exact ⟨ku, hku, (if_pos rfl).symm⟩
  · rw [Family.modify_of_ne hu] at h
    exact ⟨kt', h, (if_neg hu).symm⟩

theorem Family.modify_some (h : k u = some kt) (f : Kin → Kin) :
    k.modify t f u = some (if u = t then f kt else kt) := by
  by_cases hu : u = t
  · subst hu
    rw [Family.modify_self h, if_pos rfl]
  · rw [Family.modify_of_ne hu, h, if_neg hu]

theorem Family.uses_modify {f : Kin → Kin} (hmap : ∀ kt, (f kt).pagemap = kt.pagemap)
    (howns : ∀ kt, (f kt).owns = kt.owns) {owns : Bool} :
    (k.modify t f).Uses u map owns ↔ k.Uses u map owns := by
  constructor
  · rintro ⟨ku, hku, hm, ho⟩
    obtain ⟨kt, hkt, rfl⟩ := Family.modify_cases hku
    refine ⟨kt, hkt, ?_, ?_⟩
    · rw [← hm]
      split
      · exact (hmap kt).symm
      · rfl
    · rw [← ho]
      split
      · exact (howns kt).symm
      · rfl
  · rintro ⟨ku, hku, hm, ho⟩
    refine ⟨_, Family.modify_some hku f, ?_, ?_⟩
    · split
      · rw [hmap, hm]
      · exact hm
    · split
      · rw [howns, ho]
      · exact ho

/-- A child more, or less. -/
def Kin.addChild (c : TaskId) (kp : Kin) : Kin := { kp with children := c :: kp.children }

@[inherit_doc Kin.addChild] def Kin.unlink (c : TaskId) (kp : Kin) : Kin :=
  { kp with children := kp.children.erase c }

/-- Nobody has the task in its list. -/
def Family.Unlisted (k : Family) (c : TaskId) : Prop := ∀ p kp, k p = some kp → c ∉ kp.children

/-- The task is in no list but that of its parent. -/
theorem Family.Linked.unlisted (h : k.Linked)
    (hc : ∀ kc, k c = some kc → ∀ p kp, kc.parent = some p → k p = some kp → c ∉ kp.children) :
    k.Unlisted c := by
  intro p kp hp hmem
  obtain ⟨kc, hkc, hpar⟩ := h.child p kp hp c hmem
  exact hc kc hkc p kp hpar hp hmem

/-- A new task, without children. -/
theorem Family.Linked.newcomer (h : k.Linked) (hfree : k t = none) (hkids : kt.children = []) :
    Family.Linked (update k t (some kt)) := by
  have hcase : ∀ p kp, update k t (some kt) p = some kp → kp.children = [] ∨ k p = some kp := by
    intro p kp hp
    by_cases hpt : p = t
    · subst hpt
      rw [update_self] at hp
      cases hp
      exact .inl hkids
    · rw [update_of_ne hpt] at hp
      exact .inr hp
  constructor
  · intro p kp hp c hc
    rcases hcase p kp hp with hnil | hp
    · rw [hnil] at hc
      cases hc
    · obtain ⟨kc, hkc, hpar⟩ := h.child p kp hp c hc
      have hne : c ≠ t := by
        rintro rfl
        cases hfree.symm.trans hkc
      exact ⟨kc, by rw [update_of_ne hne, hkc], hpar⟩
  · intro p kp hp
    rcases hcase p kp hp with hnil | hp
    · rw [hnil]
      exact .nil
    · exact h.nodup p kp hp

/-- A task that is in no list goes. -/
theorem Family.Linked.remove (h : k.Linked) (ht : k.Unlisted t) :
    Family.Linked (update k t none) := by
  have hcase : ∀ p kp, update k t none p = some kp → k p = some kp := by
    intro p kp hp
    by_cases hpt : p = t
    · subst hpt
      rw [update_self] at hp
      cases hp
    · rwa [update_of_ne hpt] at hp
  constructor
  · intro p kp hp c hc
    obtain ⟨kc, hkc, hpar⟩ := h.child p kp (hcase p kp hp) c hc
    have hne : c ≠ t := by
      rintro rfl
      exact ht p kp (hcase p kp hp) hc
    exact ⟨kc, by rw [update_of_ne hne, hkc], hpar⟩
  · exact fun p kp hp => h.nodup p kp (hcase p kp hp)

/-- A change that takes out children, and keeps the parent of a task that is listed. -/
theorem Family.Linked.modify (h : k.Linked) {f : Kin → Kin}
    (hkids : ∀ kt, k t = some kt → (f kt).children.Sublist kt.children)
    (hpar : ∀ kt, k t = some kt → (f kt).parent = kt.parent ∨ k.Unlisted t) :
    (k.modify t f).Linked := by
  have hcase : ∀ p kp, k.modify t f p = some kp → ∃ kp', k p = some kp' ∧
      kp.children.Sublist kp'.children := by
    intro p kp hp
    obtain ⟨kp', hkp', rfl⟩ := Family.modify_cases hp
    refine ⟨kp', hkp', ?_⟩
    split
    · next hpt => exact hkids kp' (hpt ▸ hkp')
    · exact .refl _
  constructor
  · intro p kp hp c hc
    obtain ⟨kp', hkp', hsub⟩ := hcase p kp hp
    obtain ⟨kc, hkc, hparent⟩ := h.child p kp' hkp' c (hsub.subset hc)
    refine ⟨_, Family.modify_some hkc f, ?_⟩
    split
    · next hct =>
      subst hct
      rcases hpar kc hkc with heq | hun
      · rw [heq, hparent]
      · exact absurd (hsub.subset hc) (hun p kp' hkp')
    · exact hparent
  · intro p kp hp
    obtain ⟨kp', hkp', hsub⟩ := hcase p kp hp
    exact (h.nodup p kp' hkp').sublist hsub

/-- A task that is in no list comes into that of its parent. -/
theorem Family.Linked.addChild (h : k.Linked) {kc : Kin} (hc : k c = some kc)
    (hpar : kc.parent = some p) (hun : k.Unlisted c) :
    (k.modify p (Kin.addChild c)).Linked := by
  constructor
  · intro q kq hq d hd
    obtain ⟨kq', hkq', rfl⟩ := Family.modify_cases hq
    have hparent : ∃ kd, k d = some kd ∧ kd.parent = some q := by
      split at hd
      · next hqp =>
        subst hqp
        rcases List.mem_cons.mp hd with rfl | hd
        · exact ⟨kc, hc, hpar⟩
        · exact h.child q kq' hkq' d hd
      · exact h.child q kq' hkq' d hd
    obtain ⟨kd, hkd, hpar'⟩ := hparent
    refine ⟨_, Family.modify_some hkd _, ?_⟩
    split <;> exact hpar'
  · intro q kq hq
    obtain ⟨kq', hkq', rfl⟩ := Family.modify_cases hq
    split
    · exact List.nodup_cons.mpr ⟨hun q kq' hkq', h.nodup q kq' hkq'⟩
    · exact h.nodup q kq' hkq'

/-- The owners stay, and so do the ways up to them. -/
theorem Family.Rooted.of_kept (h : k.Rooted) (Kept : TaskId → Prop)
    (hold : ∀ t map owns, k'.Uses t map owns → Kept t ∧ k.Uses t map owns)
    (huses : ∀ t map owns, Kept t → k.Uses t map owns → k'.Uses t map owns)
    (hedge : ∀ p kp c map, k p = some kp → kp.zombie = false → c ∈ kp.children → Kept c →
      k.Uses c map false → Kept p ∧ ∃ kp', k' p = some kp' ∧ kp'.zombie = false ∧
        c ∈ kp'.children) :
    k'.Rooted := by
  constructor
  · intro t map owns huse
    obtain ⟨hkept, hk⟩ := hold t map owns huse
    exact (h.under t map owns hk).of_kept hkept huses hedge
  · intro t t' map huse huse'
    exact h.owner t t' map (hold t map true huse).2 (hold t' map true huse').2

/-- A change that keeps pagemaps, and takes out no thread of a task that lives. -/
theorem Family.Rooted.modify (h : k.Rooted) {f : Kin → Kin}
    (hmap : ∀ kt, (f kt).pagemap = kt.pagemap) (howns : ∀ kt, (f kt).owns = kt.owns)
    (hkids : ∀ kt, k t = some kt → kt.zombie = false → ∀ c ∈ kt.children, ∀ map,
      k.Uses c map false → (f kt).zombie = false ∧ c ∈ (f kt).children) :
    (k.modify t f).Rooted := by
  refine h.of_kept (fun _ => True) ?_ ?_ ?_
  · exact fun t map owns huse => ⟨trivial, (Family.uses_modify hmap howns).mp huse⟩
  · exact fun t map owns _ huse => (Family.uses_modify hmap howns).mpr huse
  · intro p kp c map hp hlive hc _ huse
    refine ⟨trivial, _, Family.modify_some hp f, ?_⟩
    split
    · next hpt =>
      subst hpt
      exact hkids kp hp hlive c hc map huse
    · exact ⟨hlive, hc⟩

/-- A task that has exited goes, and is taken out of a list. -/
theorem Family.Rooted.destroy (h : k.Rooted) (ht : k t = some kt) (hzombie : kt.zombie = true)
    (p : TaskId) : Family.Rooted (update (k.modify p (Kin.unlink t)) t none) := by
  have huses : ∀ {u map owns}, (k.modify p (Kin.unlink t)).Uses u map owns ↔ k.Uses u map owns :=
    Family.uses_modify (f := Kin.unlink t) (fun _ => rfl) fun _ => rfl
  refine h.of_kept (· ≠ t) ?_ ?_ ?_
  · intro u map owns huse
    have hne : u ≠ t := by
      rintro rfl
      obtain ⟨ku, hku, -⟩ := huse
      rw [update_self] at hku
      cases hku
    rw [Family.uses_update_of_ne hne] at huse
    exact ⟨hne, huses.mp huse⟩
  · intro u map owns hne huse
    rw [Family.uses_update_of_ne hne]
    exact huses.mpr huse
  · intro q kq c map hq hlive hc hne _
    have hqt : q ≠ t := by
      rintro rfl
      cases ht.symm.trans hq
      rw [hzombie] at hlive
      cases hlive
    refine ⟨hqt, _, (update_of_ne hqt _ _).trans (Family.modify_some hq _), ?_⟩
    split
    · exact ⟨hlive, (List.mem_erase_of_ne hne).mpr hc⟩
    · exact ⟨hlive, hc⟩

/-- One task gets a pagemap, from a creator that lives or for its own. -/
theorem Family.Rooted.of_new (h : k.Rooted)
    (hold : ∀ u map owns, u ≠ t → (k'.Uses u map owns ↔ k.Uses u map owns))
    (hedge : ∀ p kp c map, k p = some kp → kp.zombie = false → c ∈ kp.children → c ≠ t →
      k.Uses c map false → p ≠ t ∧ ∃ kp', k' p = some kp' ∧ kp'.zombie = false ∧ c ∈ kp'.children)
    (hnew : ∀ map, k'.Uses t map true → ∀ u owns, u ≠ t → ¬ k.Uses u map owns)
    (hthread : ∀ map, k'.Uses t map false → ∃ p kp owns, k' p = some kp ∧ kp.zombie = false ∧
      t ∈ kp.children ∧ p ≠ t ∧ k.Uses p map owns) : k'.Rooted := by
  have hkeep : ∀ u map, k.Under map u → u ≠ t → k'.Under map u :=
    fun u map hunder hne => hunder.of_kept hne (fun u map owns hu => (hold u map owns hu).mpr) hedge
  constructor
  · intro u map owns huse
    by_cases hu : u = t
    · subst hu
      cases owns with
      | true => exact .owner huse
      | false =>
        obtain ⟨p, kp, owns, hp, hlive, hmem, hpt, hpuse⟩ := hthread map huse
        exact .thread huse hp hmem hlive (hkeep p map (h.under p map owns hpuse) hpt)
    · exact hkeep u map (h.under u map owns ((hold u map owns hu).mp huse)) hu
  · intro u u' map huse huse'
    by_cases hu : u = t
    · subst hu
      by_contra hne
      exact hnew map huse u' true (Ne.symm hne) ((hold u' map true (Ne.symm hne)).mp huse')
    by_cases hu' : u' = t
    · subst hu'
      exact absurd ((hold u map true hu).mp huse) (hnew map huse' u true hu)
    · exact h.owner u u' map ((hold u map true hu).mp huse) ((hold u' map true hu').mp huse')

/-! ## Section 3: States -/

/-- The tree and the CPUs of a state. -/
structure Sound (s : SchedState) : Prop where
  linked : s.family.Linked
  rooted : s.family.Rooted
  placed : Placed s

variable {s s' : SchedState} {task : Task}

/-- The tree is the same, and so are the CPUs. -/
structure SameTree (s s' : SchedState) : Prop where
  family   : s'.family = s.family
  current  : s'.current = s.current
  deferred : s'.deferred = s.deferred

theorem SameTree.refl (s : SchedState) : SameTree s s := ⟨rfl, rfl, rfl⟩

theorem SameTree.trans {s₁ s₂ : SchedState} (h : SameTree s s₁) (h' : SameTree s₁ s₂) :
    SameTree s s₂ :=
  ⟨h'.family.trans h.family, h'.current.trans h.current, h'.deferred.trans h.deferred⟩

theorem Sound.of_same (h : Sound s) (hs : SameTree s s') : Sound s' := by
  refine ⟨hs.family ▸ h.linked, hs.family ▸ h.rooted, ?_, ?_, ?_, ?_⟩
  · rw [hs.current, hs.family]
    exact h.placed.current
  · rw [hs.current]
    exact h.placed.alone
  · rw [hs.deferred, hs.family]
    exact h.placed.deferred
  · rw [hs.deferred]
    exact h.placed.once

theorem family_modify {f : Task → Task} {g : Kin → Kin} (h : ∀ task, (f task).kin = g task.kin) :
    (s.modify t f).family = s.family.modify t g := by
  funext u
  by_cases hu : u = t
  · subst hu
    simp only [SchedState.family, SchedState.modify, Family.modify, update_self, Option.map_map]
    congr 1
    exact funext h
  · simp only [SchedState.family, SchedState.modify, Family.modify, update_of_ne hu]

/-- Other fields of a task are written, or its state, when it has not exited. -/
theorem SameTree.modify {f : Task → Task}
    (h : ∀ task, s.tasks t = some task → (f task).kin = task.kin) : SameTree s (s.modify t f) := by
  refine ⟨?_, rfl, rfl⟩
  funext u
  by_cases hu : u = t
  · subst hu
    simp only [SchedState.family, SchedState.modify, update_self, Option.map_map]
    cases ht : s.tasks u with
    | none => rfl
    | some task => exact congrArg some (h task ht)
  · simp only [SchedState.family, SchedState.modify, update_of_ne hu]

theorem family_eq_some (h : s.tasks t = some task) : s.family t = some task.kin := by
  simp [SchedState.family, h]

theorem sameTree_pidRegister (s : SchedState) (pid : Nat) (t : TaskId) :
    SameTree s (pidRegister s pid t) := by
  unfold pidRegister
  split <;> exact ⟨rfl, rfl, rfl⟩

theorem sameTree_pidUnregister (s : SchedState) (pid : Nat) :
    SameTree s (pidUnregister s pid) := by
  unfold pidUnregister
  split <;> exact ⟨rfl, rfl, rfl⟩

theorem sameTree_releaseOwn (s : SchedState) (task : Task) : SameTree s (releaseOwn s task) := by
  unfold releaseOwn
  split
  · exact .refl s
  split <;> exact ⟨rfl, rfl, rfl⟩

/-- The tasks that are woken have not exited. -/
theorem sameTree_wakeup (s : SchedState) (pid : Nat) : SameTree s (taskWakeupWaiters s pid) := by
  have hblocked : ∀ t ∈ waiters s pid, ∀ task, s.tasks t = some task → task.state = .blocked := by
    intro t ht task htask
    have hwaits := (List.mem_filter.mp (List.mem_of_mem_take ht)).2
    simp only [htask, Bool.and_eq_true, decide_eq_true_eq] at hwaits
    exact hwaits.1
  have hloop : ∀ ts : List TaskId, (∀ t ∈ ts, t ∈ waiters s pid) → ∀ s₁, SameTree s s₁ →
      SameTree s (ts.foldl (fun s t => s.modify t fun task =>
        { task with waitForPid := 0, runnable := true, state := .ready }) s₁) := by
    intro ts
    induction ts with
    | nil => exact fun _ s₁ hs₁ => hs₁
    | cons t ts ih =>
      intro hts s₁ hs₁
      refine ih (fun u hu => hts u (.tail _ hu)) _ (hs₁.trans (.modify fun task htask => ?_))
      have hkin := congrFun hs₁.family t
      rw [family_eq_some htask] at hkin
      obtain ⟨old, hold, heq⟩ := Option.map_eq_some_iff.mp hkin.symm
      have hstate : decide (old.state = .zombie) = decide (task.state = .zombie) :=
        congrArg Kin.zombie heq
      rw [hblocked t (hts t (.head _)) old hold] at hstate
      simp only [Task.kin, Task.owns, Kin.mk.injEq, true_and, and_true]
      exact hstate
  exact hloop _ (fun _ ht => ht) s (.refl s)

theorem Placed.of_kin (h : Placed s) (hcurrent : s'.current = s.current)
    (hdeferred : s'.deferred = s.deferred)
    (hkin : ∀ t kt, s.family t = some kt → kt.onCpu = true ∨ (kt.zombie = true ∧ kt.parent = none) →
      ∃ kt', s'.family t = some kt' ∧ kt'.onCpu = kt.onCpu ∧
        (kt.zombie = true ∧ kt.parent = none → kt'.zombie = true ∧ kt'.parent = none)) :
    Placed s' := by
  refine ⟨?_, hcurrent ▸ h.alone, ?_, hdeferred ▸ h.once⟩
  · intro cpu t ht
    rw [hcurrent] at ht
    obtain ⟨kt, hkt, hon⟩ := h.current cpu t ht
    obtain ⟨kt', hkt', honCpu, -⟩ := hkin t kt hkt (.inl hon)
    exact ⟨kt', hkt', honCpu.trans hon⟩
  · intro cpu t ht
    rw [hdeferred] at ht
    obtain ⟨kt, hkt, hzombie, hparent, hon⟩ := h.deferred cpu t ht
    obtain ⟨kt', hkt', honCpu, hgone⟩ := hkin t kt hkt (.inr ⟨hzombie, hparent⟩)
    obtain ⟨hz, hp⟩ := hgone ⟨hzombie, hparent⟩
    exact ⟨kt', hkt', hz, hp, honCpu.trans hon⟩

/-- The change of one task leaves the CPUs as they are. -/
theorem Placed.modify (h : Placed s) {f : Kin → Kin} (hcurrent : s'.current = s.current)
    (hdeferred : s'.deferred = s.deferred) (hfamily : s'.family = s.family.modify t f)
    (hf : ∀ kt, s.family t = some kt → (f kt).onCpu = kt.onCpu ∧
      (kt.zombie = true ∧ kt.parent = none → (f kt).zombie = true ∧ (f kt).parent = none)) :
    Placed s' := by
  refine h.of_kin hcurrent hdeferred fun u ku hku _ => ?_
  rw [hfamily]
  refine ⟨_, Family.modify_some hku f, ?_⟩
  split
  · next hu =>
    subst hu
    exact hf ku hku
  · exact ⟨rfl, id⟩

/-! ## Section 4: New tasks -/

theorem family_setTask (s : SchedState) (t : TaskId) (task : Task) :
    (s.setTask t task).family = update s.family t (some task.kin) := by
  funext u
  by_cases hu : u = t
  · subst hu
    simp only [SchedState.family, SchedState.setTask, update_self, Option.map_some]
  · simp only [SchedState.family, SchedState.setTask, update_of_ne hu]

/-- A pagemap that nobody uses. -/
def Family.Unused (k : Family) (map : Pagemap) : Prop := ∀ u owns, ¬ k.Uses u map owns

theorem Sound.setTask (h : Sound s) (hfree : s.tasks t = none) (hkids : task.children = [])
    (hmap : ∀ map, task.pagemap = some map → task.owns = true ∧ s.family.Unused map) :
    Sound (s.setTask t task) := by
  have hnone : s.family t = none := by simp [SchedState.family, hfree]
  have hne : ∀ {u ku}, s.family u = some ku → u ≠ t := by
    rintro u ku hu rfl
    cases hnone.symm.trans hu
  have hfamily := family_setTask s t task
  refine ⟨?_, ?_, h.placed.of_kin rfl rfl fun u ku hu _ => ?_⟩
  · rw [hfamily]
    exact h.linked.newcomer hnone hkids
  · rw [hfamily]
    refine h.rooted.of_new (t := t) (fun u map owns hu => Family.uses_update_of_ne hu) ?_ ?_ ?_
    · intro p kp c map hp hlive hc _ _
      exact ⟨hne hp, kp, by rw [update_of_ne (hne hp), hp], hlive, hc⟩
    · intro map huse u owns _
      exact (hmap map (Family.uses_update_self.mp huse).1).2 u owns
    · intro map huse
      obtain ⟨hpagemap, howns⟩ := Family.uses_update_self.mp huse
      have htrue : task.kin.owns = true := (hmap map hpagemap).1
      rw [howns] at htrue
      cases htrue
  · refine ⟨ku, ?_, rfl, id⟩
    rw [hfamily, update_of_ne (hne hu), hu]

theorem sameTree_taskAllocPid (s : SchedState) : SameTree s (taskAllocPid s).2 := ⟨rfl, rfl, rfl⟩

/-- A thread or a child with a pagemap of its own. -/
theorem Sound.birth {parent : Task} (h : Sound s) (hfree : s.tasks t = none)
    (hp : s.tasks p = some parent) (hlive : parent.state ≠ .zombie) (hkids : task.children = [])
    (hparent : task.parent = some p)
    (hmap : ∀ map, task.pagemap = some map → (task.owns = true ∧ s.family.Unused map) ∨
      (task.owns = false ∧ parent.pagemap = some map)) :
    Sound (addChild (s.setTask t task) p t) := by
  have hnone : s.family t = none := by simp [SchedState.family, hfree]
  have hne : ∀ {u ku}, s.family u = some ku → u ≠ t := by
    rintro u ku hu rfl
    cases hnone.symm.trans hu
  have hkp := family_eq_some hp
  have hpt : p ≠ t := hne hkp
  have hfamily : (addChild (s.setTask t task) p t).family =
      Family.modify (update s.family t (some task.kin)) p (Kin.addChild t) := by
    rw [← family_setTask]
    exact family_modify fun _ => rfl
  have hself : update s.family t (some task.kin) t = some task.kin := update_self _ _ _
  have hother : ∀ {u ku}, s.family u = some ku →
      update s.family t (some task.kin) u = some ku :=
    fun hu => (update_of_ne (hne hu) _ _).trans hu
  refine ⟨?_, ?_, h.placed.of_kin rfl rfl fun u ku hu _ => ?_⟩
  · rw [hfamily]
    have hlinked : Family.Linked (update s.family t (some task.kin)) :=
      h.linked.newcomer hnone hkids
    refine hlinked.addChild hself hparent (hlinked.unlisted fun kc hkc q kq hq hkq hmem => ?_)
    -- the list of the parent is the old one
    rw [hself] at hkc
    cases hkc
    cases hparent.symm.trans hq
    rw [hother hkp] at hkq
    cases hkq
    obtain ⟨kc, hkc, -⟩ := h.linked.child p parent.kin hkp t hmem
    cases hnone.symm.trans hkc
  · rw [hfamily]
    have huses : ∀ {u map owns}, (Family.modify (update s.family t (some task.kin)) p
        (Kin.addChild t)).Uses u map owns ↔
        Family.Uses (update s.family t (some task.kin)) u map owns :=
      Family.uses_modify (f := Kin.addChild t) (fun _ => rfl) fun _ => rfl
    refine h.rooted.of_new (t := t) ?_ ?_ ?_ ?_
    · exact fun u map owns hu => huses.trans (Family.uses_update_of_ne hu)
    · intro q kq c map hq hq' hc _ _
      refine ⟨hne hq, _, Family.modify_some (hother hq) _, ?_⟩
      split
      · exact ⟨hq', .tail _ hc⟩
      · exact ⟨hq', hc⟩
    · intro map huse u owns _
      obtain ⟨hpagemap, howns⟩ := Family.uses_update_self.mp (huses.mp huse)
      rcases hmap map hpagemap with ⟨-, hunused⟩ | ⟨hfalse, -⟩
      · exact hunused u owns
      · cases hfalse.symm.trans howns
    · intro map huse
      obtain ⟨hpagemap, howns⟩ := Family.uses_update_self.mp (huses.mp huse)
      rcases hmap map hpagemap with ⟨htrue, -⟩ | ⟨-, hshared⟩
      · cases htrue.symm.trans howns
      · refine ⟨p, _, parent.owns, Family.modify_self (hother hkp) _, ?_, .head _, hpt, ?_⟩
        · exact decide_eq_false hlive
        · exact ⟨parent.kin, hkp, hshared, rfl⟩
  · rw [hfamily]
    refine ⟨_, Family.modify_some (hother hu) _, ?_⟩
    split
    · exact ⟨rfl, id⟩
    · exact ⟨rfl, id⟩

/-! ## Section 5: Exit -/

/-- A task of a CPU changes, and keeps its place, its parent and its pagemap. Threads among its
    children do not get lost. -/
theorem Sound.modify (h : Sound s) {f : Task → Task} {g : Kin → Kin}
    (hf : ∀ task, (f task).kin = g task.kin)
    (hkids : ∀ kt, (g kt).children.Sublist kt.children)
    (hkept : ∀ kt, (g kt).parent = kt.parent ∧ (g kt).pagemap = kt.pagemap ∧
      (g kt).owns = kt.owns ∧ (g kt).onCpu = kt.onCpu ∧ (kt.zombie = true → (g kt).zombie = true))
    (hthreads : s.family.Joined t) : Sound (s.modify t f) := by
  have hfamily := family_modify (s := s) (t := t) hf
  refine ⟨?_, ?_, h.placed.modify rfl rfl hfamily fun kt _ => ?_⟩
  · rw [hfamily]
    exact h.linked.modify (fun kt _ => hkids kt) fun kt _ => .inl (hkept kt).1
  · rw [hfamily]
    refine h.rooted.modify (fun kt => (hkept kt).2.1) (fun kt => (hkept kt).2.2.1) ?_
    exact fun kt hkt _ c hc map huse => absurd huse (hthreads.not_uses hkt hc)
  · obtain ⟨hparent, -, -, honCpu, hzombie⟩ := hkept kt
    exact ⟨honCpu, fun hgone => ⟨hzombie hgone.1, hparent.trans hgone.2⟩⟩

/-- Another parent. -/
def Kin.setParent (p : TaskId) (kc : Kin) : Kin := { kc with parent := some p }

theorem family_taskReparent {init : TaskId} {i : Task} (hinit : s.tasks init = some i) :
    (taskReparent s c init).family =
      (s.family.modify c (Kin.setParent init)).modify init (Kin.addChild c) := by
  have hfirst : (s.modify c fun t => { t with parent := some init, ppid := i.pid }).family =
      s.family.modify c (Kin.setParent init) := family_modify fun _ => rfl
  unfold taskReparent
  rw [hinit, ← hfirst]
  exact family_modify fun _ => rfl

/-- A child that is in no list any more gets a new parent. -/
theorem Sound.reparent (h : Sound s) (init : TaskId) {kc : Kin} (hc : s.family c = some kc)
    (hun : s.family.Unlisted c) (hparent : kc.parent ≠ none) : Sound (taskReparent s c init) := by
  cases hinit : s.tasks init with
  | none =>
    unfold taskReparent
    rw [hinit]
    exact h
  | some i =>
    have hfamily := family_taskReparent (c := c) hinit
    have hplaces : (taskReparent s c init).current = s.current ∧
        (taskReparent s c init).deferred = s.deferred := by
      unfold taskReparent
      rw [hinit]
      exact ⟨rfl, rfl⟩
    have hlinked : (s.family.modify c (Kin.setParent init)).Linked :=
      h.linked.modify (fun _ _ => .refl _) fun _ _ => .inr hun
    have hun' : (s.family.modify c (Kin.setParent init)).Unlisted c := by
      intro p kp hp
      obtain ⟨kp', hkp', rfl⟩ := Family.modify_cases hp
      split <;> exact hun p kp' hkp'
    have hrooted : (s.family.modify c (Kin.setParent init)).Rooted :=
      h.rooted.modify (fun _ => rfl) (fun _ => rfl) fun _ _ hlive d hd _ _ => ⟨hlive, hd⟩
    refine ⟨?_, ?_, h.placed.of_kin hplaces.1 hplaces.2 fun u ku hu hplace => ?_⟩
    · rw [hfamily]
      exact hlinked.addChild (Family.modify_self hc _) rfl hun'
    · rw [hfamily]
      exact hrooted.modify (fun _ => rfl) (fun _ => rfl) fun _ _ hlive d hd _ _ =>
        ⟨hlive, .tail _ hd⟩
    · rw [hfamily]
      refine ⟨_, Family.modify_some (Family.modify_some hu _) _, ?_⟩
      by_cases huc : u = c
      · subst huc
        cases hu.symm.trans hc
        refine ⟨?_, fun hgone => absurd hgone.2 hparent⟩
        split <;> split <;> rfl
      · rw [if_neg huc]
        split
        · exact ⟨rfl, id⟩
        · exact ⟨rfl, id⟩

/-- A task that waits for its new parent: it is in no list, and had a parent. -/
def Waits (s : SchedState) (c : TaskId) : Prop :=
  s.family.Unlisted c ∧ ∃ kc, s.family c = some kc ∧ kc.parent ≠ none

/-- What another task keeps when a child gets a new parent. -/
theorem taskReparent_kept {init u : TaskId} {ku : Kin}
    (hu : (taskReparent s c init).family u = some ku) : ∃ ku', s.family u = some ku' ∧
      (u ≠ init → ku.children = ku'.children) ∧ (u ≠ c → ku.parent = ku'.parent) ∧
      ∀ d ∈ ku.children, d ∈ ku'.children ∨ d = c := by
  cases hinit : s.tasks init with
  | none =>
    unfold taskReparent at hu
    rw [hinit] at hu
    exact ⟨ku, hu, fun _ => rfl, fun _ => rfl, fun d hd => .inl hd⟩
  | some i =>
    rw [family_taskReparent hinit] at hu
    obtain ⟨k₁, hk₁, rfl⟩ := Family.modify_cases hu
    obtain ⟨k₂, hk₂, rfl⟩ := Family.modify_cases hk₁
    refine ⟨k₂, hk₂, ?_, ?_, ?_⟩
    · intro hne
      rw [if_neg hne]
      split <;> rfl
    · intro hne
      rw [if_neg hne]
      split <;> rfl
    · intro d hd
      have hkids : (if u = c then Kin.setParent init k₂ else k₂).children = k₂.children := by
        split <;> rfl
      split at hd
      · rcases List.mem_cons.mp hd with hd | hd
        · exact .inr hd
        · exact .inl (hkids ▸ hd)
      · exact .inl (hkids ▸ hd)

theorem Waits.reparent {init d : TaskId} (h : Waits s d) (hne : d ≠ c) :
    Waits (taskReparent s c init) d := by
  obtain ⟨hun, kd, hkd, hparent⟩ := h
  refine ⟨fun p kp hp hmem => ?_, ?_⟩
  · obtain ⟨kp', hkp', -, -, hold⟩ := taskReparent_kept hp
    exact (hold d hmem).elim (hun p kp' hkp') hne
  · cases hinit : s.tasks init with
    | none =>
      unfold taskReparent
      rw [hinit]
      exact ⟨kd, hkd, hparent⟩
    | some i =>
      rw [family_taskReparent hinit]
      refine ⟨_, Family.modify_some (Family.modify_some hkd _) _, ?_⟩
      rw [if_neg hne]
      split <;> exact hparent

/-- The loop of `task_exit` over the children. -/
theorem Sound.reparents {init me : TaskId} (hne : me ≠ init) {cs : List TaskId}
    (hnodup : cs.Nodup) : ∀ {s : SchedState}, Sound s → (∀ c ∈ cs, Waits s c) →
      (∀ kt, s.family me = some kt → kt.children = []) →
      Sound (cs.foldl (fun s child => taskReparent s child init) s) ∧
      ∀ kt, (cs.foldl (fun s child => taskReparent s child init) s).family me = some kt →
        kt.children = [] := by
  induction cs with
  | nil => exact fun h _ hme => ⟨h, hme⟩
  | cons c cs ih =>
    intro s h hwaits hme
    obtain ⟨hc, hcs⟩ := List.nodup_cons.mp hnodup
    obtain ⟨hun, kc, hkc, hparent⟩ := hwaits c (.head _)
    refine ih hcs (h.reparent init hkc hun hparent) ?_ ?_
    · intro d hd
      exact (hwaits d (.tail _ hd)).reparent fun heq => hc (heq ▸ hd)
    · intro kt hkt
      obtain ⟨kt', hkt', hkids, -⟩ := taskReparent_kept hkt
      exact (hkids hne).trans (hme kt' hkt')

theorem Sound.orphanChildren {me : TaskId} (h : Sound s) (htask : s.tasks me = some task)
    (hjoined : s.family.Joined me) : Sound (orphanChildren s me task.children) ∧
      (orphanChildren s me task.children).family.Joined me := by
  unfold Sched.orphanChildren
  split
  · exact ⟨h, hjoined⟩
  next init _ =>
  split
  · exact ⟨h, hjoined⟩
  next hne =>
  have hkme := family_eq_some htask
  -- the list is empty first
  have hcleared : Sound (s.modify me fun t => { t with children := [] }) :=
    h.modify (g := fun kt => { kt with children := [] }) (fun _ => rfl)
      (fun _ => List.nil_sublist _) (fun _ => ⟨rfl, rfl, rfl, rfl, id⟩) hjoined
  have hfamily : (s.modify me fun t => { t with children := [] }).family =
      s.family.modify me fun kt => { kt with children := [] } := family_modify fun _ => rfl
  have hempty : ∀ kt, (s.modify me fun t => { t with children := [] }).family me = some kt →
      kt.children = [] := by
    intro kt hkt
    rw [hfamily, Family.modify_self hkme] at hkt
    cases hkt
    rfl
  have hwaits : ∀ c ∈ task.children, Waits (s.modify me fun t => { t with children := [] }) c := by
    intro c hc
    obtain ⟨kc, hkc, hparent⟩ := h.linked.child me task.kin hkme c hc
    have hkc' := hfamily ▸ Family.modify_some (t := me) hkc fun kt => { kt with children := [] }
    have hparent' : (if c = me then { kc with children := [] } else kc).parent = some me := by
      split <;> exact hparent
    refine ⟨hcleared.linked.unlisted fun k hk p kp hp hkp => ?_, _, hkc', by rw [hparent']; simp⟩
    cases hkc'.symm.trans hk
    cases hparent'.symm.trans hp
    rw [hempty kp hkp]
    exact List.not_mem_nil
  obtain ⟨hsound, hkids⟩ := Sound.reparents (Ne.symm hne) (h.linked.nodup me task.kin hkme)
    hcleared hwaits hempty
  refine ⟨hsound, fun kt hkt c hc => ?_⟩
  rw [hkids kt hkt] at hc
  cases hc

/-- **`task_exit`** of a task that has reaped its threads. -/
theorem Sound.taskExit {me : TaskId} (h : Sound s) (hjoined : s.family.Joined me) :
    Sound (taskExit s me) := by
  unfold Sched.taskExit
  cases htask : s.tasks me with
  | none => exact h
  | some task =>
    obtain ⟨hsound, hjoined'⟩ := h.orphanChildren htask hjoined
    have hexit := hsound.modify (t := me) (g := fun kt => { kt with zombie := true })
      (f := fun t => { t with runnable := false, state := .zombie }) (fun _ => rfl)
      (fun _ => .refl _) (fun _ => ⟨rfl, rfl, rfl, rfl, fun _ => rfl⟩) hjoined'
    exact hexit.of_same (sameTree_wakeup _ _)

/-! ## Section 6: Destruction -/

theorem taskDestroy_family (s : SchedState) (t : TaskId) :
    (taskDestroy s t).family = update s.family t none ∧ (taskDestroy s t).current = s.current ∧
      (taskDestroy s t).deferred = s.deferred := by
  unfold taskDestroy
  cases ht : s.tasks t with
  | none =>
    have hnone : s.family t = none := by simp [SchedState.family, ht]
    exact ⟨by rw [← hnone, update_eq_self], rfl, rfl⟩
  | some task =>
    have hsame := (sameTree_pidUnregister s task.pid).trans (sameTree_releaseOwn _ task)
    refine ⟨?_, hsame.current, hsame.deferred⟩
    rw [← hsame.family]
    funext u
    by_cases hu : u = t
    · subst hu
      simp only [SchedState.family, SchedState.freeTask, update_self, Option.map_none]
    · simp only [SchedState.family, SchedState.freeTask, update_of_ne hu]

/-- A zombie that is on no CPU and about to be destroyed by nobody else goes. -/
theorem Sound.destroy (h : Sound s) (ht : s.family t = some kt) (hzombie : kt.zombie = true)
    (hcpu : kt.onCpu = false) (hlist : ∀ q kq, kt.parent = some q → s.family q = some kq →
      t ∈ kq.children → q = p)
    (hfamily : s'.family = update (s.family.modify p (Kin.unlink t)) t none)
    (hcurrent : s'.current = s.current)
    (hdeferred : ∀ cpu d, s'.deferred cpu = some d → s.deferred cpu = some d ∧ d ≠ t) :
    Sound s' := by
  have hlinked : (s.family.modify p (Kin.unlink t)).Linked :=
    h.linked.modify (fun _ _ => List.erase_sublist) fun _ _ => .inl rfl
  refine ⟨?_, ?_, ?_, ?_, ?_, ?_⟩
  · rw [hfamily]
    refine hlinked.remove fun q kq hq hmem => ?_
    -- it was in the list of `p` alone, and once
    obtain ⟨kq', hkq', rfl⟩ := Family.modify_cases hq
    have hold : t ∈ kq'.children := by
      split at hmem
      · exact List.mem_of_mem_erase hmem
      · exact hmem
    obtain ⟨k, hk, hparent⟩ := h.linked.child q kq' hkq' t hold
    cases ht.symm.trans hk
    rw [if_pos (hlist q kq' hparent hkq' hold)] at hmem
    exact (h.linked.nodup q kq' hkq').not_mem_erase hmem
  · rw [hfamily]
    exact h.rooted.destroy ht hzombie p
  · intro cpu u hu
    rw [hcurrent] at hu
    obtain ⟨ku, hku, hon⟩ := h.placed.current cpu u hu
    have hne : u ≠ t := by
      rintro rfl
      cases ht.symm.trans hku
      rw [hcpu] at hon
      cases hon
    rw [hfamily, update_of_ne hne]
    refine ⟨_, Family.modify_some hku _, ?_⟩
    split <;> exact hon
  · rw [hcurrent]
    exact h.placed.alone
  · intro cpu d hd
    obtain ⟨hd, hne⟩ := hdeferred cpu d hd
    obtain ⟨kd, hkd, hz, hpar, hon⟩ := h.placed.deferred cpu d hd
    rw [hfamily, update_of_ne hne]
    refine ⟨_, Family.modify_some hkd _, ?_⟩
    split <;> exact ⟨hz, hpar, hon⟩
  · intro cpu cpu' d hd hd'
    exact h.placed.once cpu cpu' d (hdeferred cpu d hd).1 (hdeferred cpu' d hd').1

/-- The zombie that `sys_wait` stops at is a child that has left its CPU. -/
theorem findZombie_spec {pidArg : BitVec 64} {cs : List TaskId} {z : TaskId}
    (h : (findZombie s pidArg cs).1 = some z) :
    z ∈ cs ∧ ∃ task, s.tasks z = some task ∧ task.state = .zombie ∧ task.onCpu = false := by
  induction cs with
  | nil => cases h
  | cons c cs ih =>
    unfold findZombie at h
    cases hc : s.tasks c with
    | none =>
      rw [hc] at h
      obtain ⟨hmem, htask⟩ := ih h
      exact ⟨.tail _ hmem, htask⟩
    | some task =>
      rw [hc] at h
      dsimp only at h
      split at h
      · next hmatch =>
        simp only [Bool.and_eq_true, decide_eq_true_eq] at hmatch
        split at h
        · obtain ⟨hmem, htask⟩ := ih h
          exact ⟨.tail _ hmem, htask⟩
        · next hcpu =>
          cases h
          exact ⟨.head _, task, hc, hmatch.2, by simpa using hcpu⟩
      · obtain ⟨hmem, htask⟩ := ih h
        exact ⟨.tail _ hmem, htask⟩

/-- **`sys_wait`** of a task that runs. -/
theorem Sound.sysWait {me : TaskId} (h : Sound s) (hruns : ∀ task, s.tasks me = some task →
      task.state ≠ .zombie) (pidArg : BitVec 64) (wnohang copied : Bool) :
    Sound (sysWait s me pidArg wnohang copied).2 := by
  unfold Sched.sysWait
  cases hme : s.tasks me with
  | none => exact h
  | some task =>
    dsimp only
    split
    · next z _ hfind =>
      split
      · exact h
      have hfound : (findZombie s pidArg task.children).1 = some z := by rw [hfind]
      obtain ⟨hmem, zombie, hz, hstate, hcpu⟩ := findZombie_spec hfound
      have hkz := family_eq_some hz
      have hkme := family_eq_some hme
      obtain ⟨kz, hkz', hparent⟩ := h.linked.child me task.kin hkme z hmem
      cases hkz.symm.trans hkz'
      obtain ⟨hfamily, hcurrent, hdeferred⟩ := taskDestroy_family (unlinkChild s me z) z
      have hunlink : (unlinkChild s me z).family =
          (s.family.modify me (Kin.unlink z)).modify z fun kc => { kc with parent := none } := by
        have hfirst : (s.modify me fun p => { p with children := p.children.erase z }).family =
            s.family.modify me (Kin.unlink z) := family_modify fun _ => rfl
        rw [← hfirst]
        exact family_modify fun _ => rfl
      refine h.destroy (p := me) hkz (decide_eq_true hstate) hcpu ?_ ?_ hcurrent ?_
      · intro q kq hq _ _
        exact (Option.some.inj (hparent.symm.trans hq)).symm
      · rw [hfamily, hunlink]
        unfold Family.modify
        rw [update_idem]
      · intro cpu d hd
        rw [hdeferred] at hd
        refine ⟨hd, ?_⟩
        rintro rfl
        obtain ⟨kd, hkd, -, hnone, -⟩ := h.placed.deferred cpu d hd
        cases hkz.symm.trans hkd
        cases hparent.symm.trans hnone
    · exact h
    · split
      · exact h
      · refine h.of_same (.modify fun t ht => ?_)
        have hlive := hruns t ht
        simp [Task.kin, Task.owns, hlive]

/-- **`process_deferred_free`** -/
theorem Sound.processDeferredFree (h : Sound s) (cpu : Nat) : Sound (processDeferredFree s cpu) ∧
    ∀ u ku, s.family u = some ku → ku.zombie = false →
      (processDeferredFree s cpu).family u = some ku := by
  unfold Sched.processDeferredFree
  cases hd : s.deferred cpu with
  | none => exact ⟨h, fun u ku hu _ => hu⟩
  | some d =>
    obtain ⟨kd, hkd, hzombie, hparent, hcpu⟩ := h.placed.deferred cpu d hd
    obtain ⟨hfamily, hcurrent, hdeferred⟩ :=
      taskDestroy_family { s with deferred := update s.deferred cpu none } d
    have hgone : (taskDestroy { s with deferred := update s.deferred cpu none } d).family =
        update s.family d none := hfamily
    have hdeferred : (taskDestroy { s with deferred := update s.deferred cpu none } d).deferred =
        update s.deferred cpu none := hdeferred
    refine ⟨h.destroy (p := d) hkd hzombie hcpu ?_ ?_ hcurrent ?_, ?_⟩
    · intro q kq hq
      cases hparent.symm.trans hq
    · rw [hgone]
      unfold Family.modify
      rw [update_idem]
    · intro cpu' d' hd'
      rw [hdeferred] at hd'
      by_cases hne : cpu' = cpu
      · subst hne
        rw [update_self] at hd'
        cases hd'
      · have hold : s.deferred cpu' = some d' := by rwa [update_of_ne hne] at hd'
        refine ⟨hold, ?_⟩
        rintro rfl
        exact hne (h.placed.once cpu' cpu d' hold hd)
    · intro u ku hu hlive
      have hne : u ≠ d := by
        rintro rfl
        cases hkd.symm.trans hu
        rw [hzombie] at hlive
        cases hlive
      rw [hgone, update_of_ne hne, hu]

/-! ## Section 7: Switching and `execve` -/

/-- On a CPU, or off it. -/
def Kin.setCpu (b : Bool) (kt : Kin) : Kin := { kt with onCpu := b }

/-- The CPU takes up `next` and leaves `old`. -/
def Family.switch (k : Family) (old next : Option TaskId) : Family :=
  let k := next.elim k fun t => k.modify t (Kin.setCpu true)
  old.elim k fun t => k.modify t (Kin.setCpu false)

/-- What a change of `on_cpu` keeps, a switch keeps. -/
theorem Family.switch_keeps {P : Family → Prop} (h : P k)
    (hset : ∀ {k t b}, P k → P (k.modify t (Kin.setCpu b))) (old next : Option TaskId) :
    P (k.switch old next) := by
  cases old <;> cases next <;> simp only [Family.switch, Option.elim]
  · exact h
  · exact hset h
  · exact hset h
  · exact hset (hset h)

theorem Family.switch_some (h : k t = some kt) (old next : Option TaskId) :
    k.switch old next t = some { kt with
      onCpu := if old = some t then false else if next = some t then true else kt.onCpu } := by
  have hset : ∀ {k : Family} {kt}, k t = some kt → ∀ (o : Option TaskId) b,
      (o.elim k fun u => k.modify u (Kin.setCpu b)) t =
        some { kt with onCpu := if o = some t then b else kt.onCpu } := by
    intro k kt hkt o b
    cases o with
    | none => simpa using hkt
    | some u =>
      simp only [Option.elim, Family.modify_some hkt, Option.some.injEq]
      by_cases hu : t = u
      · simp [hu, Kin.setCpu]
      · simp [hu, Ne.symm hu]
  exact hset (hset h next true) old false

/-- The task that leaves the CPU is to be destroyed when it is a zombie without a parent. -/
theorem retire_spec (s : SchedState) (cpu : Nat) (old : TaskId) :
    (retire s cpu old).family = s.family ∧ (retire s cpu old).current = s.current ∧
      ((retire s cpu old).deferred = s.deferred ∨
        ((retire s cpu old).deferred = update s.deferred cpu (some old) ∧
          ∃ kt, s.family old = some kt ∧ kt.zombie = true ∧ kt.parent = none)) := by
  unfold retire
  cases hold : s.tasks old with
  | none => exact ⟨rfl, rfl, .inl rfl⟩
  | some task =>
    dsimp only
    split
    · next hzombie =>
      split
      · next hparent =>
        exact ⟨rfl, rfl, .inr ⟨rfl, _, family_eq_some hold, decide_eq_true hzombie, hparent⟩⟩
      · exact ⟨rfl, rfl, .inl rfl⟩
    · next hlive =>
      split
      · have hsame : SameTree s (s.modify old fun t => { t with state := .ready }) := by
          refine .modify fun t ht => ?_
          cases hold.symm.trans ht
          simp [Task.kin, Task.owns, hlive]
        exact ⟨hsame.family, hsame.current, .inl hsame.deferred⟩
      · exact ⟨rfl, rfl, .inl rfl⟩

/-- The tasks and the CPUs after a switch. -/
theorem schedReschedule_spec (s : SchedState) (cpu : Nat) (next : Option TaskId)
    (hne : (processDeferredFree s cpu).current cpu ≠ next)
    (hlive : ∀ t ∈ next, ∀ kt, (processDeferredFree s cpu).family t = some kt →
      kt.zombie = false) :
    let s₁ := processDeferredFree s cpu
    let s' := schedReschedule s cpu next
    s'.family = s₁.family.switch (s₁.current cpu) next ∧
      s'.current = update s₁.current cpu next ∧ (s'.deferred = s₁.deferred ∨
        ∃ t kt, s₁.current cpu = some t ∧ s'.deferred = update s₁.deferred cpu (some t) ∧
          s₁.family t = some kt ∧ kt.zombie = true ∧ kt.parent = none) := by
  intro s₁ s'
  have hs' : s' = onSome { onSome (onSome s₁ (s₁.current cpu) fun s t => retire s cpu t) next
      enterCpu with current := update (onSome (onSome s₁ (s₁.current cpu) fun s t =>
        retire s cpu t) next enterCpu).current cpu next } (s₁.current cpu) leaveCpu := by
    show schedReschedule s cpu next = _
    unfold schedReschedule
    exact if_neg hne
  -- the old task, if there is one
  obtain ⟨s₂, hs₂, hfamily₂, hcurrent₂, hdeferred₂⟩ : ∃ s₂,
      onSome s₁ (s₁.current cpu) (fun s t => retire s cpu t) = s₂ ∧ s₂.family = s₁.family ∧
      s₂.current = s₁.current ∧ (s₂.deferred = s₁.deferred ∨
        ∃ t kt, s₁.current cpu = some t ∧ s₂.deferred = update s₁.deferred cpu (some t) ∧
          s₁.family t = some kt ∧ kt.zombie = true ∧ kt.parent = none) := by
    cases hold : s₁.current cpu with
    | none => exact ⟨s₁, rfl, rfl, rfl, .inl rfl⟩
    | some t =>
      obtain ⟨hfamily, hcurrent, hdeferred⟩ := retire_spec s₁ cpu t
      refine ⟨_, rfl, hfamily, hcurrent, hdeferred.imp_right ?_⟩
      rintro ⟨hd, kt, hkt, hzombie, hparent⟩
      exact ⟨t, kt, rfl, hd, hkt, hzombie, hparent⟩
  -- the next one is not a zombie, so it only comes to its CPU
  have hfamily₃ : (onSome s₂ next enterCpu).family =
      next.elim s₁.family fun t => s₁.family.modify t (Kin.setCpu true) := by
    cases next with
    | none => exact hfamily₂
    | some t =>
      have henter : (enterCpu s₂ t).family = s₂.family.modify t (Kin.setCpu true) := by
        funext u
        by_cases hu : u = t
        · subst hu
          cases htask : s₂.tasks u with
          | none =>
            simp [enterCpu, SchedState.family, SchedState.modify, Family.modify, htask]
          | some task =>
            have hz := hlive u rfl task.kin (hfamily₂ ▸ family_eq_some htask)
            have hstate : task.state ≠ .zombie := of_decide_eq_false hz
            simp [enterCpu, SchedState.family, SchedState.modify, Family.modify, htask, Task.kin,
              Task.owns, Kin.setCpu, hstate]
        · simp [enterCpu, SchedState.family, SchedState.modify, Family.modify, hu]
      show (enterCpu s₂ t).family = s₁.family.modify t (Kin.setCpu true)
      rw [henter, hfamily₂]
  have hsame₃ : (onSome s₂ next enterCpu).current = s₂.current ∧
      (onSome s₂ next enterCpu).deferred = s₂.deferred := by
    cases next <;> exact ⟨rfl, rfl⟩
  rw [hs₂] at hs'
  have hleave : ∀ (s : SchedState) (o : Option TaskId), (onSome s o leaveCpu).family =
      (o.elim s.family fun t => s.family.modify t (Kin.setCpu false)) ∧
      (onSome s o leaveCpu).current = s.current ∧ (onSome s o leaveCpu).deferred = s.deferred := by
    intro s o
    cases o with
    | none => exact ⟨rfl, rfl, rfl⟩
    | some t => exact ⟨family_modify fun _ => rfl, rfl, rfl⟩
  obtain ⟨hfamily, hcurrent, hdeferred⟩ := hleave { onSome s₂ next enterCpu with
    current := update (onSome s₂ next enterCpu).current cpu next } (s₁.current cpu)
  rw [← hs'] at hfamily hcurrent hdeferred
  have hfam : ({ onSome s₂ next enterCpu with
      current := update (onSome s₂ next enterCpu).current cpu next } : SchedState).family =
      (onSome s₂ next enterCpu).family := rfl
  refine ⟨?_, ?_, ?_⟩
  · rw [hfamily, hfam, hfamily₃]
    rfl
  · rw [hcurrent]
    show update (onSome s₂ next enterCpu).current cpu next = _
    rw [hsame₃.1, hcurrent₂]
  · have hd : s'.deferred = s₂.deferred := hdeferred.trans hsame₃.2
    rw [hd]
    exact hdeferred₂

/-- A CPU takes a task that no other has. -/
theorem Apart.update {f : Nat → Option TaskId} (h : Apart f) {cpu : Nat} {next : Option TaskId}
    (hnew : ∀ t ∈ next, ∀ c, c ≠ cpu → f c ≠ some t) : Apart (update f cpu next) := by
  intro c c' t ht ht'
  by_cases hc : c = cpu <;> by_cases hc' : c' = cpu
  · rw [hc, hc']
  · rw [hc, update_self] at ht
    rw [update_of_ne hc'] at ht'
    exact absurd ht' (hnew t ht c' hc')
  · rw [hc', update_self] at ht'
    rw [update_of_ne hc] at ht
    exact absurd ht (hnew t ht' c hc)
  · rw [update_of_ne hc] at ht
    rw [update_of_ne hc'] at ht'
    exact h c c' t ht ht'

/-- **`sched_reschedule`** -/
theorem Sound.schedReschedule (h : Sound s) (cpu : Nat) (next : Option TaskId)
    (hnext : ∀ t ∈ next, CanRun s t) : Sound (schedReschedule s cpu next) := by
  obtain ⟨h₁, hstays⟩ := h.processDeferredFree cpu
  by_cases hne : (Sched.processDeferredFree s cpu).current cpu = next
  · unfold Sched.schedReschedule
    rw [if_pos hne]
    exact h₁
  -- the task that is taken up is on no CPU
  have hready : ∀ t ∈ next, ∃ kt, (Sched.processDeferredFree s cpu).family t = some kt ∧
      kt.zombie = false ∧ kt.onCpu = false := by
    intro t ht
    obtain ⟨task, htask, -, hlive, -, hcpu⟩ := hnext t ht
    have hz : task.kin.zombie = false := decide_eq_false hlive
    exact ⟨task.kin, hstays t _ (family_eq_some htask) hz, hz, hcpu⟩
  obtain ⟨hfamily, hcurrent, hdeferred⟩ := schedReschedule_spec s cpu next hne fun t ht kt hkt => by
    obtain ⟨kt', hkt', hz, -⟩ := hready t ht
    cases hkt'.symm.trans hkt
    exact hz
  generalize Sched.schedReschedule s cpu next = s' at *
  generalize Sched.processDeferredFree s cpu = s₁ at *
  refine ⟨?_, ?_, ?_, ?_, ?_, ?_⟩
  · rw [hfamily]
    exact Family.switch_keeps h₁.linked
      (fun h => h.modify (fun _ _ => .refl _) fun _ _ => .inl rfl) _ _
  · rw [hfamily]
    exact Family.switch_keeps h₁.rooted (fun h => h.modify (fun _ => rfl) (fun _ => rfl)
      fun _ _ hlive _ hc _ _ => ⟨hlive, hc⟩) _ _
  · intro cpu' t ht
    rw [hcurrent] at ht
    rw [hfamily]
    by_cases hcpu : cpu' = cpu
    · subst hcpu
      rw [update_self] at ht
      obtain ⟨kt, hkt, -⟩ := hready t ht
      refine ⟨_, Family.switch_some hkt _ _, ?_⟩
      rw [if_neg (ht ▸ hne), if_pos ht]
    · rw [update_of_ne hcpu] at ht
      obtain ⟨kt, hkt, hon⟩ := h₁.placed.current cpu' t ht
      refine ⟨_, Family.switch_some hkt _ _, ?_⟩
      rw [if_neg fun hold => hcpu (h₁.placed.alone cpu' cpu t ht hold)]
      split
      · rfl
      · exact hon
  · -- nobody else has the task that is taken up
    rw [hcurrent]
    refine h₁.placed.alone.update fun t ht c _ hcur => ?_
    obtain ⟨kt, hkt, -, hoff⟩ := hready t ht
    obtain ⟨kt', hkt', hon⟩ := h₁.placed.current c t hcur
    cases hkt.symm.trans hkt'
    rw [hoff] at hon
    cases hon
  · -- those that wait to be destroyed, and the old task if it is one of them
    have hkept : ∀ c d, s₁.deferred c = some d → ∃ kt, s'.family d = some kt ∧
        kt.zombie = true ∧ kt.parent = none ∧ kt.onCpu = false := by
      intro c d hd
      obtain ⟨kd, hkd, hz, hp, hoff⟩ := h₁.placed.deferred c d hd
      rw [hfamily]
      refine ⟨_, Family.switch_some hkd _ _, hz, hp, ?_⟩
      split
      · rfl
      · rw [if_neg, hoff]
        intro hn
        obtain ⟨kt, hkt, hlive, -⟩ := hready d hn
        cases hkd.symm.trans hkt
        rw [hz] at hlive
        cases hlive
    intro c d hd
    rcases hdeferred with heq | ⟨t, kt, hold, heq, hkt, hz, hp⟩
    · exact hkept c d (heq ▸ hd)
    · rw [heq] at hd
      by_cases hc : c = cpu
      · rw [hc, update_self] at hd
        cases hd
        rw [hfamily]
        exact ⟨_, Family.switch_some hkt _ _, hz, hp, if_pos hold⟩
      · rw [update_of_ne hc] at hd
        exact hkept c d hd
  · rcases hdeferred with heq | ⟨t, kt, hold, heq, -⟩
    · rw [heq]
      exact h₁.placed.once
    · -- the old task was on its CPU, so no other is about to destroy it
      rw [heq]
      refine h₁.placed.once.update fun t' ht' c _ hdt => ?_
      cases ht'
      obtain ⟨kd, hkd, -, -, hoff⟩ := h₁.placed.deferred c t hdt
      obtain ⟨kt', hkt', hon⟩ := h₁.placed.current cpu t hold
      cases hkd.symm.trans hkt'
      rw [hoff] at hon
      cases hon

theorem family_uses_iff {owns : Bool} :
    s.family.Uses t map owns ↔ spaceOf s t = some (some map, owns) := by
  unfold Family.Uses SchedState.family spaceOf
  cases s.tasks t with
  | none => simp
  | some task => simp [Task.kin, Task.space]

/-- A pagemap that is not made is used by nobody. -/
theorem unused_of_fresh (hlive : PagemapsLive s) (hfresh : s.live map = false) :
    s.family.Unused map := by
  intro u owns huse
  have := hlive u map ⟨owns, family_uses_iff.mp huse⟩
  rw [hfresh] at this
  cases this

/-- **`execve`** of a task that has reaped its threads. -/
theorem Sound.execve {me : TaskId} (h : Sound s) (hunused : s.family.Unused map)
    (hjoined : s.family.Joined me) : Sound (execve s me map) := by
  unfold Sched.execve
  cases hme : s.tasks me with
  | none => exact h
  | some task =>
    dsimp only
    refine Sound.of_same ?_ (sameTree_releaseOwn _ task)
    have hsame : SameTree s (s.makePagemap map) := ⟨rfl, rfl, rfl⟩
    have hfamily : ((s.makePagemap map).modify me fun t =>
        { t with pagemap := some map, ownPagemap := true, isFork := false }).family =
        s.family.modify me fun kt => { kt with pagemap := some map, owns := true } := by
      rw [← hsame.family]
      exact family_modify fun _ => rfl
    have hkme := family_eq_some hme
    refine ⟨?_, ?_, h.placed.modify rfl rfl hfamily fun _ _ => ⟨rfl, id⟩⟩
    · rw [hfamily]
      exact h.linked.modify (fun _ _ => .refl _) fun _ _ => .inl rfl
    · rw [hfamily]
      refine h.rooted.of_new (t := me) ?_ ?_ ?_ ?_
      · intro u m owns hu
        unfold Family.Uses
        rw [Family.modify_of_ne hu]
      · intro p kp c m hp hlive hc _ huse
        have hne : p ≠ me := by
          rintro rfl
          exact hjoined.not_uses hp hc huse
        exact ⟨hne, kp, by rw [Family.modify_of_ne hne, hp], hlive, hc⟩
      · rintro m ⟨kt, hkt, hm, -⟩ u owns _
        rw [Family.modify_self hkme] at hkt
        cases hkt
        cases hm
        exact hunused u owns
      · rintro m ⟨kt, hkt, -, howns⟩
        rw [Family.modify_self hkme] at hkt
        cases hkt
        cases howns

/-! ## Section 8: Runs -/

/-- The condition on calls: a task exits, or calls `execve`, when it has reaped the threads that
    it has started. -/
def JoinsFirst (s : SchedState) : Call → Prop
  | .exit cpu => ∀ me ∈ s.current cpu, s.family.Joined me
  | .execve cpu _ => ∀ me ∈ s.current cpu, s.family.Joined me
  | _ => True

section

variable (h : Sound s) (hlive : PagemapsLive s)
include h

/-- A zombie that owns its pagemap is the last to use it, and so is a task that has reaped its
    threads. -/
theorem Sound.sole (ht : ∀ kt, s.family t = some kt → kt.zombie = true ∨ s.family.Joined t) :
    Sole s t := by
  rintro m howns u hne ⟨owns, huse⟩
  refine hne (h.rooted.sole (family_uses_iff.mpr howns) ?_ (family_uses_iff.mpr huse))
  intro kt hkt hlive c hc
  rcases ht kt hkt with hz | hjoined
  · rw [hz] at hlive
    cases hlive
  · exact hjoined.not_uses hkt hc

/-- Then every step releases only pagemaps that are not used any more. -/
theorem Sound.orderly {call : Call} (hjoins : JoinsFirst s call) : Orderly s call := by
  have hdead : ∀ cpu, ∀ dead ∈ s.deferred cpu, Sole s dead := by
    intro cpu dead hd
    obtain ⟨kt, hkt, hz, -⟩ := h.placed.deferred cpu dead hd
    refine h.sole fun kt' hkt' => ?_
    cases hkt.symm.trans hkt'
    exact .inl hz
  cases call with
  | execve cpu map => exact fun me hme => h.sole fun _ _ => .inr (hjoins me hme)
  | wait cpu pidArg wnohang copied =>
    intro me hme z hz
    unfold reaped at hz
    cases htask : s.tasks me with
    | none =>
      rw [htask] at hz
      cases hz
    | some task =>
      rw [htask] at hz
      dsimp only at hz
      split at hz
      · obtain ⟨-, zombie, hzombie, hstate, -⟩ := findZombie_spec hz
        refine h.sole fun kt hkt => ?_
        cases (family_eq_some hzombie).symm.trans hkt
        exact .inl (decide_eq_true hstate)
      · cases hz
  | deferredFree cpu => exact hdead cpu
  | reschedule cpu next => exact hdead cpu
  | _ => exact trivial

theorem Sound.taskCreate {mem : Option TaskId} (hfresh : FreshTask s mem) (stack : Bool) :
    Sound (taskCreate s mem stack).2 := by
  unfold Sched.taskCreate
  cases mem with
  | none => exact h
  | some t =>
    have hpid := h.of_same (sameTree_taskAllocPid s)
    dsimp only
    split
    · exact hpid
    split
    · exact hpid
    · refine Sound.of_same ?_ (sameTree_pidRegister _ _ _)
      exact hpid.setTask (hfresh t rfl) rfl nofun

theorem Sound.taskSpawnThread {mem : Option TaskId} {parent : TaskId}
    (hfresh : FreshTask s mem) (hruns : ∀ p, s.tasks parent = some p → p.state ≠ .zombie)
    (stack : Bool) : Sound (taskSpawnThread s parent mem stack).2 := by
  unfold Sched.taskSpawnThread
  cases hp : s.tasks parent with
  | none => exact h
  | some p =>
    have hpid := h.of_same (sameTree_taskAllocPid s)
    dsimp only
    cases hm : p.pagemap with
    | none => exact h
    | some m =>
      cases mem with
      | none => exact h
      | some t =>
        dsimp only
        split
        · exact hpid
        split
        · exact hpid
        · refine Sound.of_same ?_ (sameTree_pidRegister _ _ _)
          refine hpid.birth (hfresh t rfl) hp (hruns p hp) rfl rfl fun m' hm' => .inr ⟨rfl, ?_⟩
          cases hm'
          exact hm

include hlive

theorem Sound.startUser {mem : Option TaskId} (hfresh : FreshTask s mem)
    (hmap : s.live map = false) (stack : Bool) : Sound (startUser s mem stack map) := by
  have hunused := unused_of_fresh hlive hmap
  have hmade : Sound (s.makePagemap map) := h.of_same ⟨rfl, rfl, rfl⟩
  have hpid := hmade.of_same (sameTree_taskAllocPid _)
  have hfree : ∀ {s : SchedState}, Sound s → Sound (s.vmmFreePagemap map) :=
    fun h => h.of_same ⟨rfl, rfl, rfl⟩
  unfold Sched.startUser taskCreateUser
  cases mem with
  | none => exact hfree hmade
  | some t =>
    dsimp only
    by_cases h0 : (taskAllocPid (s.makePagemap map)).1 = 0
    · rw [if_pos h0]
      exact hfree hpid
    rw [if_neg h0]
    cases stack with
    | false => exact hfree hpid
    | true =>
      refine Sound.of_same ?_ (sameTree_pidRegister _ _ _)
      refine hpid.setTask (hfresh t rfl) rfl fun m hm => ⟨rfl, ?_⟩
      cases hm
      exact hunused

theorem Sound.taskFork {mem : Option TaskId} {parent : TaskId} {clone : Option Pagemap}
    (hfresh : FreshTask s mem) (hmap : FreshMap s clone)
    (hruns : ∀ p, s.tasks parent = some p → p.state ≠ .zombie) (stack : Bool) :
    Sound (taskFork s parent mem clone stack).2 := by
  unfold Sched.taskFork
  cases hp : s.tasks parent with
  | none => exact h
  | some p =>
    cases mem with
    | none => exact h
    | some t =>
      have hpid := h.of_same (sameTree_taskAllocPid s)
      dsimp only
      split
      · exact hpid
      cases p.pagemap with
      | none => exact hpid
      | some own =>
        cases clone with
        | none => exact hpid
        | some m =>
          have hmade : Sound ((taskAllocPid s).2.makePagemap m) := hpid.of_same ⟨rfl, rfl, rfl⟩
          have hunused := unused_of_fresh hlive (hmap m rfl)
          cases stack with
          | false => exact hmade.of_same ⟨rfl, rfl, rfl⟩
          | true =>
            refine Sound.of_same ?_ (sameTree_pidRegister _ _ _)
            refine hmade.birth (hfresh t rfl) hp (hruns p hp) rfl rfl fun m' hm' => .inl ⟨rfl, ?_⟩
            cases hm'
            exact hunused

/-- **Step.** Every call keeps the tree, if a task that exits or calls `execve` has reaped its
    threads. -/
theorem Sound.perform {call : Call} (he : Enabled s call) (hjoins : JoinsFirst s call) :
    Sound (perform s call) := by
  have hruns : ∀ {cpu t}, Runs s cpu → s.current cpu = some t → ∀ task, s.tasks t = some task →
      task.state ≠ .zombie := by
    rintro cpu t ⟨u, hu, task, htask, hrun⟩ ht task' htask'
    cases hu.symm.trans ht
    cases htask.symm.trans htask'
    rw [hrun]
    decide
  -- a call is made by the task of a CPU, or by none
  have hcalls : ∀ {cpu} {f : TaskId → SchedState}, (∀ t, s.current cpu = some t → Sound (f t)) →
      Sound (onTask s cpu f) := by
    intro cpu f hf
    unfold onTask
    cases hcur : s.current cpu with
    | none => exact h
    | some t => exact hf t hcur
  cases call with
  | create mem stack => exact h.taskCreate he stack
  | createUser mem stack map => exact h.startUser hlive he.1 (he.2 map rfl) stack
  | spawnThread cpu mem stack =>
    exact hcalls fun t ht => h.taskSpawnThread he.2 (hruns he.1 ht) stack
  | fork cpu mem clone stack =>
    exact hcalls fun t ht => h.taskFork hlive he.2.1 he.2.2 (hruns he.1 ht) stack
  | execve cpu map =>
    exact hcalls fun t ht => h.execve (unused_of_fresh hlive (he.2 map rfl)) (hjoins t ht)
  | exit cpu => exact hcalls fun t ht => h.taskExit (hjoins t ht)
  | wait cpu pidArg wnohang copied =>
    exact hcalls fun t ht => h.sysWait (hruns he ht) pidArg wnohang copied
  | deferredFree cpu => exact (h.processDeferredFree cpu).1
  | reschedule cpu next => exact h.schedReschedule cpu next he

end

theorem sound_init : Sound schedInit := by
  have huses : ∀ t map owns, ¬ schedInit.family.Uses t map owns := by
    rintro t map owns ⟨kt, hkt, -⟩
    cases hkt
  refine ⟨⟨?_, ?_⟩, ⟨?_, ?_⟩, ?_, ?_, ?_, ?_⟩
  · intro p kp hp
    cases hp
  · intro p kp hp
    cases hp
  · exact fun t map owns huse => absurd huse (huses t map owns)
  · exact fun t t' map huse => absurd huse (huses t map true)
  all_goals
    intro cpu
    intros
    contradiction

/-- **The life of a pagemap.** In every run in which tasks reap the threads that they have started
    before they exit or call `execve`, no task that has not been destroyed uses a pagemap that has
    been released. -/
theorem pagemap_lifetime {s : SchedState} (h : (taskSystem.restrict JoinsFirst).Reachable s) :
    PagemapsLive s := by
  have hinv : Sound s ∧ PagemapsLive s := by
    induction h with
    | init hinit =>
      subst hinit
      refine ⟨sound_init, ?_⟩
      rintro t map ⟨owns, hspace⟩
      cases hspace
    | step call _ hstep ih =>
      obtain ⟨hjoins, he, rfl⟩ := hstep
      exact ⟨ih.1.perform ih.2 he hjoins,
        (perform_live_iff ih.2 he).mpr (ih.1.orderly hjoins)⟩
  exact hinv.2

instance (call : Call) : Decidable (JoinsFirst s call) := by
  apply Call.casesOn (motive := fun call => Decidable (JoinsFirst s call)) call <;> intros <;>
    unfold JoinsFirst <;> infer_instance

/-- A call that can be made. -/
def attempt (s : SchedState) (call : Call) : Option SchedState :=
  if Enabled s call then some (perform s call) else none

theorem attempt_step {call : Call} (h : attempt s call = some s') :
    taskSystem.step s call s' := by
  obtain ⟨he, hs⟩ := Option.ite_none_right_eq_some.mp h
  exact ⟨he, (Option.some.inj hs).symm⟩

/-- `init` forks a child on another CPU, which starts a thread on a third one. -/
def startThread : List Call :=
  [.createUser (some 0) true 100, .reschedule 0 (some 0), .fork 0 (some 1) (some 101) true,
    .reschedule 1 (some 1), .spawnThread 1 (some 2) true, .reschedule 2 (some 2)]

/-- The thread exits and is reaped by its creator, and then the creator by `init`. -/
def joinThread : List Call :=
  startThread ++ [.exit 2, .reschedule 2 none, .wait 1 (BitVec.allOnes 64) false true, .exit 1,
    .reschedule 1 none, .wait 0 (BitVec.allOnes 64) false true]

/-- The pagemap is released with its owner, when the thread is gone. -/
theorem pagemap_lifetime_joined : ∃ s, PagemapsLive s ∧ s.live 101 = false ∧
    s.live 100 = true ∧ s.tasks 1 = none ∧ s.tasks 2 = none := by
  have hrun : (System.replay (fun s call => if JoinsFirst s call then attempt s call else none)
      schedInit joinThread).map (fun s => (s.live 101, s.live 100, s.tasks 1, s.tasks 2)) =
      some (false, true, none, none) := by
    decide +kernel
  obtain ⟨s, hs, hend⟩ := Option.map_eq_some_iff.mp hrun
  simp only [Prod.mk.injEq] at hend
  refine ⟨s, pagemap_lifetime ?_, hend⟩
  exact System.Reachable.replay_restrict (fun _ _ _ => attempt_step) (.init rfl) hs

/-- The creator exits first. The thread is up next on its CPU, and `init` reaps the creator. -/
def orphanThread : List Call :=
  startThread ++ [.exit 1, .reschedule 1 none, .wait 0 (BitVec.allOnes 64) false true]

/-- **A thread runs on a released pagemap.** -/
theorem thread_loses_pagemap : ∃ s task, taskSystem.Reachable s ∧ s.current 2 = some 2 ∧
    s.tasks 2 = some task ∧ task.state = .running ∧ task.pagemap = some 101 ∧
    s.live 101 = false := by
  have hrun : (System.replay attempt schedInit orphanThread).map (fun s => (s.current 2,
      (s.tasks 2).map fun task => (task.state, task.pagemap), s.live 101)) =
      some (some 2, some (.running, some 101), false) := by
    decide +kernel
  obtain ⟨s, hs, hend⟩ := Option.map_eq_some_iff.mp hrun
  simp only [Prod.mk.injEq] at hend
  obtain ⟨hcpu, htask, hlive⟩ := hend
  obtain ⟨task, htask, hfields⟩ := Option.map_eq_some_iff.mp htask
  simp only [Prod.mk.injEq] at hfields
  exact ⟨s, task, System.Reachable.replay (fun _ _ _ => attempt_step) (.init rfl) hs, hcpu, htask,
    hfields.1, hfields.2, hlive⟩

end Cervus.Sched
