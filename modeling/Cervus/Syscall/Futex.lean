import Cervus.Framework.System
import Cervus.Framework.Word
import Mathlib.Data.List.Count
import Mathlib.Data.List.Forall2

/-! # Futexes (`syscall/mem/futex.c`)

    A waiter compares the word with the value it expects, and takes a slot of the table and blocks,
    in one section under `g_futex_lock`. A wake marks waiters on the same physical word and
    unblocks them in another section. The slot is given back in a third one, by the waiter.

    The words are in physical memory; the tables of a task, which translate its addresses, do not
    change here. Timeouts, signals and the exit of a waiting task are left out. -/

namespace Cervus.Futex

open Function List Option

/-! ## Section 1: Model -/

def eagain : Int := 11
def enomem : Int := 12
def efault : Int := 14
def einval : Int := 22

/-- `FUTEX_WAITERS_MAX` -/
def waitersMax : Nat := 128

/-- `futex_waiter_t` -/
structure Slot where
  used  : Bool
  key   : Nat
  task  : Option Nat
  woken : Bool
  deriving DecidableEq

/-- Where a task is: outside, queued in a slot (blocked, or unblocked and on its way back), or back
    with a result. -/
inductive Waiter where
  | idle
  | waiting (key slot : Nat) (blocked : Bool)
  | returned (result : Int)
  deriving DecidableEq

structure State where
  words     : Nat → Nat
  /-- `vmm_virt_to_phys` of a task, on addresses of pages. -/
  translate : Nat → Nat → Option Nat
  slots     : List Slot
  tasks     : Nat → Waiter

/-- `futex_key`, after the checks of the address. -/
def futexKey (s : State) (t uaddr : Nat) : Except Int Nat :=
  if uaddr % 4 ≠ 0 then .error (-einval)
  else match s.translate t (uaddr - uaddr % 4096) with
    | none => .error (-efault)
    | some phys => .ok (phys ||| uaddr % 4096)

/-- `task_unblock` -/
def Waiter.unblock : Waiter → Waiter
  | .waiting key slot _ => .waiting key slot false
  | w => w

def State.setTask (s : State) (t : Nat) (w : Waiter) : State :=
  { s with tasks := Function.update s.tasks t w }

/-- The first section of `sys_futex_wait`, for a word at `key`. -/
def waitSection (s : State) (t key expected : Nat) : State :=
  if s.words key ≠ u32 expected then s.setTask t (.returned (-eagain))
  else match s.slots.findIdx? (fun a => !a.used) with
    | none => s.setTask t (.returned (-enomem))
    | some i =>
      { s with
        slots := s.slots.set i ⟨true, key, some t, false⟩
        tasks := Function.update s.tasks t (.waiting key i true) }

def futexWait (s : State) (t uaddr expected : Nat) : State :=
  match futexKey s t uaddr with
  | .error e => s.setTask t (.returned e)
  | .ok key => waitSection s t key expected

/-- The last section of `sys_futex_wait`; the wait was neither interrupted nor timed. -/
def releaseSlot (s : State) (t slot : Nat) : State :=
  { s with
    slots := s.slots.modify slot fun a => { a with used := false, task := none }
    tasks := Function.update s.tasks t (.returned 0) }

/-- A waiter on the word that has not been woken. -/
def Slot.queuedOn (key : Nat) (a : Slot) : Bool := a.used && a.key == key && !a.woken

def unblockTask (tasks : Nat → Waiter) : Option Nat → Nat → Waiter
  | none => tasks
  | some t => Function.update tasks t (tasks t).unblock

/-- The loop of `sys_futex_wake` over the table. -/
def wakeLoop (key count : Nat) :
    List Slot → Nat → (Nat → Waiter) → List Slot × Nat × (Nat → Waiter)
  | [], woken, tasks => ([], woken, tasks)
  | a :: rest, woken, tasks =>
    if ¬ woken < count then (a :: rest, woken, tasks)
    else if a.queuedOn key then
      let r := wakeLoop key count rest (woken + 1) (unblockTask tasks a.task)
      ({ a with woken := true } :: r.1, r.2)
    else
      let r := wakeLoop key count rest woken tasks
      (a :: r.1, r.2)

/-- `sys_futex_wake`, with its result. -/
def futexWake (s : State) (t uaddr count : Nat) : State × Int :=
  match futexKey s t uaddr with
  | .error e => (s, e)
  | .ok key =>
    let r := wakeLoop key (if count = 0 then 1 else count) s.slots 0 s.tasks
    ({ s with slots := r.1, tasks := r.2.2 }, r.2.1)

/-! ## Section 2: Runs -/

inductive Label where
  | wait (t uaddr expected : Nat)
  | release (t : Nat)
  | wake (t uaddr count : Nat)
  /-- The word gets another value. -/
  | store (key value : Nat)

/-- The task is not in `sys_futex_wait`. -/
def Waiter.outside : Waiter → Bool
  | .waiting .. => false
  | _ => true

inductive Step : State → Label → State → Prop where
  | wait {s : State} {t uaddr expected : Nat} : (s.tasks t).outside = true →
      Step s (.wait t uaddr expected) (futexWait s t uaddr expected)
  | release {s : State} {t key slot : Nat} : s.tasks t = .waiting key slot false →
      Step s (.release t) (releaseSlot s t slot)
  | wake {s : State} {t uaddr count : Nat} : (s.tasks t).outside = true →
      Step s (.wake t uaddr count) (futexWake s t uaddr count).1
  | store {s : State} {key value : Nat} :
      Step s (.store key value) { s with words := Function.update s.words key value }

def futexSystem : System State Label where
  init s := s.slots = List.replicate waitersMax ⟨false, 0, none, false⟩ ∧ ∀ t, s.tasks t = .idle
  step := Step

/-! ## Section 3: What a wake does -/

/-- The number of waiters on the word that have not been woken. -/
def State.queued (s : State) (key : Nat) : Nat := s.slots.countP (Slot.queuedOn key)

/-- A slot is left alone, or it is a queued waiter on the word and is marked. -/
def Marked (key : Nat) (a b : Slot) : Prop :=
  b = a ∨ a.queuedOn key = true ∧ b = { a with woken := true }

variable {key count woken i t : Nat} {a : Slot} {s s' : State} {w : Waiter} {l : Label}

/-- The turns of the loop. -/
theorem wakeLoop_done (h : ¬ woken < count) (l : List Slot) (tasks : Nat → Waiter) :
    wakeLoop key count l woken tasks = (l, woken, tasks) := by
  cases l with
  | nil => rfl
  | cons a rest => rw [wakeLoop, if_pos h]

theorem wakeLoop_mark (h : woken < count) (hq : a.queuedOn key = true) (rest : List Slot)
    (tasks : Nat → Waiter) : wakeLoop key count (a :: rest) woken tasks =
      ({ a with woken := true } ::
        (wakeLoop key count rest (woken + 1) (unblockTask tasks a.task)).1,
        (wakeLoop key count rest (woken + 1) (unblockTask tasks a.task)).2) := by
  rw [wakeLoop, if_neg (not_not_intro h), if_pos hq]

theorem wakeLoop_skip (h : woken < count) (hq : ¬ a.queuedOn key = true) (rest : List Slot)
    (tasks : Nat → Waiter) : wakeLoop key count (a :: rest) woken tasks =
      (a :: (wakeLoop key count rest woken tasks).1, (wakeLoop key count rest woken tasks).2) := by
  rw [wakeLoop, if_neg (not_not_intro h), if_neg hq]

@[simp] theorem unblock_unblock (w : Waiter) : w.unblock.unblock = w.unblock := by cases w <;> rfl

theorem unblockTask_cases (tasks : Nat → Waiter) (w : Option Nat) (t : Nat) :
    unblockTask tasks w t = tasks t ∧ w ≠ some t ∨
      unblockTask tasks w t = (tasks t).unblock ∧ w = some t := by
  cases w with
  | none => exact .inl ⟨rfl, nofun⟩
  | some u =>
    by_cases h : t = u
    · subst h
      exact .inr ⟨update_self .., rfl⟩
    · exact .inl ⟨update_of_ne h .., fun he => h (some.inj he).symm⟩

section

variable (key count : Nat) (l : List Slot) (woken : Nat) (tasks : Nat → Waiter)

/-- The loop marks waiters on the word, as many as it may and as there are. -/
theorem wakeLoop_slots (h : woken ≤ count) : (wakeLoop key count l woken tasks).2.1 =
        woken + min (count - woken) (l.countP (Slot.queuedOn key)) ∧
      (wakeLoop key count l woken tasks).1.countP (Slot.queuedOn key) +
        (wakeLoop key count l woken tasks).2.1 = l.countP (Slot.queuedOn key) + woken ∧
      List.Forall₂ (Marked key) l (wakeLoop key count l woken tasks).1 := by
  induction l generalizing woken tasks with
  | nil => simp [wakeLoop]
  | cons a rest ih =>
    by_cases hmore : woken < count
    · by_cases hq : a.queuedOn key = true
      · obtain ⟨hres, hcount, hmarked⟩ := ih (woken + 1) (unblockTask tasks a.task) hmore
        rw [wakeLoop_mark hmore hq, countP_cons_of_pos hq,
          countP_cons_of_neg (by simp [Slot.queuedOn])]
        dsimp only
        exact ⟨by omega, by omega, .cons (.inr ⟨hq, rfl⟩) hmarked⟩
      · obtain ⟨hres, hcount, hmarked⟩ := ih woken tasks h
        rw [wakeLoop_skip hmore hq, countP_cons_of_neg hq, countP_cons_of_neg hq]
        exact ⟨hres, hcount, .cons (.inl rfl) hmarked⟩
    · rw [wakeLoop_done hmore]
      dsimp only
      exact ⟨by omega, rfl, forall₂_same.mpr fun _ _ => .inl rfl⟩

/-- A task none of whose slots is marked is left alone, and the task of a marked slot is
    unblocked. -/
theorem wakeLoop_tasks (t : Nat) : ((∀ (i : Nat) (a : Slot), l[i]? = some a → a.task = some t →
        (wakeLoop key count l woken tasks).1[i]? = some a) →
      (wakeLoop key count l woken tasks).2.2 t = tasks t) ∧
    ∀ (i : Nat) (a : Slot), l[i]? = some a → a.task = some t →
      (wakeLoop key count l woken tasks).1[i]? ≠ some a →
        (wakeLoop key count l woken tasks).2.2 t = (tasks t).unblock := by
  induction l generalizing woken tasks with
  | nil => exact ⟨fun _ => rfl, nofun⟩
  | cons a rest ih =>
    by_cases hmore : woken < count
    · by_cases hq : a.queuedOn key = true
      · rw [wakeLoop_mark hmore hq]
        have hne : ({ a with woken := true } : Slot) ≠ a := by
          intro he
          have : a.woken = true := (congrArg Slot.woken he).symm
          simp [Slot.queuedOn, this] at hq
        obtain ⟨hkept, hmarked⟩ := ih (woken + 1) (unblockTask tasks a.task)
        constructor
        · intro hall
          have hother : a.task ≠ some t := fun ht => hne (some.inj (hall 0 a rfl ht))
          obtain ⟨he, -⟩ | ⟨-, he⟩ := unblockTask_cases tasks a.task t
          · rw [hkept fun i b hb ht => hall (i + 1) b hb ht, he]
          · exact absurd he hother
        intro i b hb ht hnot
        obtain ⟨he, hw⟩ | ⟨he, -⟩ := unblockTask_cases tasks a.task t
        · cases i with
          | zero =>
            cases hb
            exact absurd ht hw
          | succ i => rw [hmarked i b hb ht hnot, he]
        -- the task is unblocked by this turn, and later turns do not change that
        by_cases hall : ∀ (k : Nat) (c : Slot), rest[k]? = some c → c.task = some t →
            (wakeLoop key count rest (woken + 1) (unblockTask tasks a.task)).1[k]? = some c
        · rw [hkept hall, he]
        · push Not at hall
          obtain ⟨k, c, hc, hct, hck⟩ := hall
          rw [hmarked k c hc hct hck, he, unblock_unblock]
      rw [wakeLoop_skip hmore hq]
      obtain ⟨hkept, hmarked⟩ := ih woken tasks
      constructor
      · intro hall
        exact hkept fun i b hb ht => hall (i + 1) b hb ht
      intro i b hb ht hnot
      cases i with
      | zero => exact absurd hb hnot
      | succ i => exact hmarked i b hb ht hnot
    · rw [wakeLoop_done hmore]
      exact ⟨fun _ => rfl, fun i b hb _ hnot => absurd hb hnot⟩

end

/-! ## Section 4: Waiters and slots -/

/-- The slots in use and the waiting tasks name each other, and a task is blocked until its slot
    is marked. -/
structure Inv (s : State) : Prop where
  queued : ∀ t key i b, s.tasks t = .waiting key i b →
    s.slots[i]? = some ⟨true, key, some t, !b⟩
  owners : ∀ (i : Nat) (a : Slot), s.slots[i]? = some a → a.used = true →
    ∃ t, a.task = some t ∧ s.tasks t = .waiting a.key i (!a.woken)
  unused : ∀ (i : Nat) (a : Slot), s.slots[i]? = some a → a.used = false → a.task = none

theorem Inv.waiting (h : Inv s) (ha : s.slots[i]? = some a) (ht : a.task = some t) :
    s.tasks t = .waiting a.key i (!a.woken) := by
  have hused : a.used = true := by
    by_contra hno
    rw [h.unused i a ha (by simpa using hno)] at ht
    nomatch ht
  obtain ⟨u, hu, htask⟩ := h.owners i a ha hused
  rw [ht, some.injEq] at hu
  rwa [hu]

/-- What `sys_futex_wake` does with the waiters on a word, and what it returns. -/
structure ExactWake (s s' : State) (key count : Nat) (r : Int) : Prop where
  result : r = min count (s.queued key)
  /-- The number of slots marked. -/
  marked : s'.queued key + r = s.queued key
  slots  : List.Forall₂ (Marked key) s.slots s'.slots
  /-- A task is unblocked exactly when its slot is marked. -/
  tasks  : ∀ (i : Nat) (a : Slot) (t : Nat), s.slots[i]? = some a → a.task = some t →
    s'.slots[i]? = some a ∧ s'.tasks t = s.tasks t ∨
    a.queuedOn key = true ∧ s'.slots[i]? = some { a with woken := true } ∧
      s.tasks t = .waiting key i true ∧ s'.tasks t = .waiting key i false
  others : ∀ t, (s.tasks t).outside = true → s'.tasks t = s.tasks t

theorem forall₂_getElem? {R : Slot → Slot → Prop} {l l' : List Slot} (h : List.Forall₂ R l l')
    (ha : l[i]? = some a) : ∃ b, l'[i]? = some b ∧ R a b := by
  induction h generalizing i with
  | nil => nomatch ha
  | @cons x y _ _ hxy _ ih =>
    cases i with
    | zero =>
      cases ha
      exact ⟨y, rfl, hxy⟩
    | succ i => exact ih ha

/-- The wake section, from a state in which slots and tasks agree. -/
theorem exactWake_of_inv (h : Inv s)
    (hr : wakeLoop key count s.slots 0 s.tasks = (s'.slots, woken, s'.tasks)) :
    ExactWake s s' key count woken := by
  obtain ⟨hres, hcount, hmarked⟩ := wakeLoop_slots key count s.slots 0 s.tasks (Nat.zero_le _)
  have htask := wakeLoop_tasks key count s.slots 0 s.tasks
  rw [hr] at hres hcount hmarked htask
  simp only [Nat.sub_zero, Nat.zero_add, Nat.add_zero] at hres hcount htask
  refine ⟨congrArg Nat.cast hres, by exact_mod_cast hcount, hmarked, ?_, ?_⟩
  · intro i a t ha hat
    have hwaiting := h.waiting ha hat
    obtain ⟨b, hb, rfl | ⟨hq, rfl⟩⟩ := forall₂_getElem? hmarked ha
    · refine .inl ⟨hb, (htask t).1 fun j c hc hct => ?_⟩
      -- the task has no other slot
      have hsame := hwaiting.symm.trans (h.waiting hc hct)
      simp only [Waiter.waiting.injEq] at hsame
      rw [← hsame.2.1] at hc ⊢
      exact (ha.symm.trans hc) ▸ hb
    have hfields : (a.used = true ∧ a.key = key) ∧ a.woken = false := by
      simpa [Slot.queuedOn] using hq
    rw [hfields.1.2, hfields.2] at hwaiting
    refine .inr ⟨hq, hb, hwaiting, ?_⟩
    rw [(htask t).2 i a ha hat, hwaiting]
    · rfl
    rw [hb]
    intro he
    have := congrArg Slot.woken (some.inj he)
    rw [hfields.2] at this
    nomatch this
  intro t ht
  apply (htask t).1
  intro i a ha hat
  rw [h.waiting ha hat] at ht
  nomatch ht

theorem Inv.exactWake (h : Inv s) {r : Int} (hw : ExactWake s s' key count r) : Inv s' := by
  have hback : ∀ (i : Nat) (b : Slot), s'.slots[i]? = some b →
      ∃ a, s.slots[i]? = some a ∧ Marked key a b := fun i b hb =>
    forall₂_getElem? hw.slots.flip hb
  refine ⟨?_, ?_, ?_⟩
  · intro t key' i b ht
    cases hold : s.tasks t with
    | waiting key0 i0 b0 =>
      have hslot := h.queued t key0 i0 b0 hold
      obtain ⟨hkept, hsame⟩ | ⟨-, hmark, hblocked, hfree⟩ := hw.tasks i0 _ t hslot rfl
      · rw [hsame, hold] at ht
        cases ht
        exact hkept
      rw [hold] at hblocked
      cases hblocked
      rw [hfree] at ht
      cases ht
      exact hmark
    | idle =>
      rw [hw.others t (by rw [hold]; rfl), hold] at ht
      nomatch ht
    | returned _ =>
      rw [hw.others t (by rw [hold]; rfl), hold] at ht
      nomatch ht
  · intro i b hb hused
    obtain ⟨a, ha, hmark⟩ := hback i b hb
    have hsame : b.used = a.used ∧ b.task = a.task ∧ b.key = a.key := by
      obtain rfl | ⟨-, rfl⟩ := hmark <;> exact ⟨rfl, rfl, rfl⟩
    obtain ⟨t, ht, hwaiting⟩ := h.owners i a ha (hsame.1 ▸ hused)
    refine ⟨t, hsame.2.1.trans ht, ?_⟩
    obtain ⟨hkept, htask⟩ | ⟨hq, hmarked, hblocked, hfree⟩ := hw.tasks i a t ha ht
    · have hba : b = a := some.inj (hb.symm.trans hkept)
      rw [htask, hwaiting, hba]
    · have hba : b = { a with woken := true } := some.inj (hb.symm.trans hmarked)
      rw [hwaiting, Waiter.waiting.injEq] at hblocked
      rw [hfree, hba, ← hblocked.1]
      rfl
  intro i b hb hused
  obtain ⟨a, ha, hmark⟩ := hback i b hb
  obtain rfl | ⟨hq, rfl⟩ := hmark
  · exact h.unused i _ ha hused
  · exact h.unused i a ha hused

/-- A task outside the queue gets another record that is outside it. -/
theorem Inv.setTask (h : Inv s) (ht : (s.tasks t).outside = true) (hw : w.outside = true) :
    Inv (s.setTask t w) := by
  refine ⟨?_, ?_, h.unused⟩
  · intro u key i b hu
    by_cases hut : u = t
    · subst hut
      simp only [State.setTask, update_self] at hu
      rw [hu] at hw
      nomatch hw
    · simp only [State.setTask, update_of_ne hut] at hu
      exact h.queued u key i b hu
  intro i a ha hused
  obtain ⟨u, hu, hwaiting⟩ := h.owners i a ha hused
  have hut : u ≠ t := by
    intro he
    rw [← he, hwaiting] at ht
    nomatch ht
  refine ⟨u, hu, ?_⟩
  simp only [State.setTask, update_of_ne hut]
  exact hwaiting

/-- A slot and a task change together; the slot was the task's, or free, and is so afterwards. -/
theorem Inv.setSlot (h : Inv s) (hi : i < s.slots.length)
    (hother : ∀ (j : Nat) (b : Slot), j ≠ i → s.slots[j]? = some b → b.task ≠ some t)
    (hself : ∀ (u : Nat) (b : Slot), s.slots[i]? = some b → b.task = some u → u = t)
    (hw : ∀ key j b, w = .waiting key j b → j = i ∧ a = ⟨true, key, some t, !b⟩)
    (hused : a.used = true → a.task = some t ∧ w = .waiting a.key i (!a.woken))
    (hfree : a.used = false → a.task = none) :
    Inv { s with slots := s.slots.set i a, tasks := update s.tasks t w } := by
  refine ⟨?_, ?_, ?_⟩
  · intro u key j b hu
    by_cases hut : u = t
    · subst hut
      simp only [update_self] at hu
      obtain ⟨rfl, rfl⟩ := hw key j b hu
      simp only [List.getElem?_set_self hi]
    simp only [update_of_ne hut] at hu
    have hslot := h.queued u key j b hu
    have hji : i ≠ j := by
      rintro rfl
      exact hut (hself u _ hslot rfl)
    simp only [List.getElem?_set_ne hji]
    exact hslot
  · intro j c hc hcused
    by_cases hji : i = j
    · subst hji
      simp only [List.getElem?_set_self hi, some.injEq] at hc
      subst hc
      obtain ⟨htask, hwait⟩ := hused hcused
      exact ⟨t, htask, by simp only [update_self]; exact hwait⟩
    simp only [List.getElem?_set_ne hji] at hc
    obtain ⟨u, hu, hwaiting⟩ := h.owners j c hc hcused
    have hut : u ≠ t := by
      rintro rfl
      exact hother j c (Ne.symm hji) hc hu
    refine ⟨u, hu, ?_⟩
    simp only [update_of_ne hut]
    exact hwaiting
  intro j c hc hcfree
  by_cases hji : i = j
  · subst hji
    simp only [List.getElem?_set_self hi, some.injEq] at hc
    subst hc
    exact hfree hcfree
  · simp only [List.getElem?_set_ne hji] at hc
    exact h.unused j c hc hcfree

theorem Inv.step (h : Inv s) (hstep : Step s l s') : Inv s' := by
  cases hstep with
  | @wait t uaddr expected ht =>
    unfold futexWait
    split
    · exact h.setTask ht rfl
    unfold waitSection
    split
    · exact h.setTask ht rfl
    split
    · exact h.setTask ht rfl
    rename_i i hfind
    obtain ⟨hi, hunused, -⟩ := findIdx?_eq_some_iff_getElem.mp hfind
    have hslot : s.slots[i]? = some s.slots[i] := List.getElem?_eq_getElem hi
    refine h.setSlot hi ?_ ?_ ?_ (fun _ => ⟨rfl, rfl⟩) nofun
    · -- the task was outside, so it has no slot
      intro j b _ hb hbt
      rw [h.waiting hb hbt] at ht
      nomatch ht
    · intro u b hb hbu
      cases hslot.symm.trans hb
      rw [h.unused i _ hslot (by simpa using hunused)] at hbu
      nomatch hbu
    · intro key j b hw
      cases hw
      exact ⟨rfl, rfl⟩
  | @release t key i ht =>
    have hslot := h.queued t key i false ht
    have hi : i < s.slots.length := (List.getElem?_eq_some_iff.mp hslot).1
    unfold releaseSlot
    rw [modify_eq_set_getElem?, hslot]
    refine h.setSlot hi ?_ ?_ nofun nofun (fun _ => rfl)
    · intro j b hj hb hbt
      have hsame := ht.symm.trans (h.waiting hb hbt)
      simp only [Waiter.waiting.injEq] at hsame
      exact hj hsame.2.1.symm
    · intro u b hb hbu
      cases hslot.symm.trans hb
      exact (some.inj hbu).symm
  | @wake t uaddr count _ =>
    unfold futexWake
    split
    · exact h
    · exact h.exactWake (exactWake_of_inv h rfl)
  | store => exact ⟨h.queued, h.owners, h.unused⟩

theorem inv_of_reachable (h : futexSystem.Reachable s) : Inv s := by
  refine @System.Reachable.induct _ _ _ Inv ?_ ?_ _ h
  · rintro s ⟨hslots, htasks⟩
    have hfree : ∀ (i : Nat) (a : Slot), s.slots[i]? = some a → a = ⟨false, 0, none, false⟩ := by
      intro i a ha
      rw [hslots] at ha
      exact eq_of_mem_replicate (mem_of_getElem? ha)
    refine ⟨?_, ?_, ?_⟩
    · intro t key i b ht
      rw [htasks] at ht
      nomatch ht
    · intro i a ha hused
      rw [hfree i a ha] at hused
      nomatch hused
    · intro i a ha _
      rw [hfree i a ha]
  · intro s l s' _ hs hstep
    exact hs.step hstep

/-! ## Section 5: Exact wake-ups -/

/-- Wake-ups are exact: a wake marks and unblocks as many queued waiters on its word as it may; a
    waiter that sees the expected value is queued in the same section, and stays blocked and queued
    until a wake on its word marks it. -/
structure Exact (s : State) : Prop where
  wake  : ∀ t uaddr count key, futexKey s t uaddr = .ok key → 1 ≤ count →
    ExactWake s (futexWake s t uaddr count).1 key count (futexWake s t uaddr count).2
  enter : ∀ t uaddr expected key, futexKey s t uaddr = .ok key → s.words key = u32 expected →
    (∃ a ∈ s.slots, a.used = false) →
    ∃ i, (futexWait s t uaddr expected).tasks t = .waiting key i true ∧
      (futexWait s t uaddr expected).slots[i]? = some ⟨true, key, some t, false⟩
  queue : ∀ t key i, s.tasks t = .waiting key i true →
    s.slots[i]? = some ⟨true, key, some t, false⟩
  stays : ∀ t key i, s.tasks t = .waiting key i true → ∀ l s', Step s l s' →
    s'.tasks t = .waiting key i true ∨ ∃ u uaddr count, l = .wake u uaddr count ∧
      futexKey s u uaddr = .ok key ∧ s'.tasks t = .waiting key i false

theorem enter_queues {uaddr expected : Nat} (hkey : futexKey s t uaddr = .ok key)
    (hword : s.words key = u32 expected) (hroom : ∃ a ∈ s.slots, a.used = false) :
    ∃ i, (futexWait s t uaddr expected).tasks t = .waiting key i true ∧
      (futexWait s t uaddr expected).slots[i]? = some ⟨true, key, some t, false⟩ := by
  simp only [futexWait, hkey, waitSection, hword, ne_eq, not_true_eq_false, if_false]
  split
  · rename_i hnone
    rw [findIdx?_eq_none_iff] at hnone
    obtain ⟨a, ha, hfree⟩ := hroom
    have := hnone a ha
    rw [hfree] at this
    nomatch this
  · rename_i i hfind
    obtain ⟨hi, -, -⟩ := findIdx?_eq_some_iff_getElem.mp hfind
    exact ⟨i, update_self .., List.getElem?_set_self hi⟩

/-- Only a wake on its word unblocks a waiter. -/
theorem blocked_stays (h : Inv s) (ht : s.tasks t = .waiting key i true) (hstep : Step s l s') :
    s'.tasks t = .waiting key i true ∨ ∃ u uaddr count, l = .wake u uaddr count ∧
      futexKey s u uaddr = .ok key ∧ s'.tasks t = .waiting key i false := by
  have hother : ∀ (u : Nat) (w : Waiter), s.tasks u ≠ .waiting key i true →
      update s.tasks u w t = .waiting key i true := by
    intro u w hu
    have htu : t ≠ u := by
      rintro rfl
      exact hu ht
    rw [update_of_ne htu, ht]
  cases hstep with
  | @wait u uaddr expected hout =>
    have hu : s.tasks u ≠ .waiting key i true := by
      intro he
      rw [he] at hout
      nomatch hout
    refine .inl ?_
    unfold futexWait
    split
    · exact hother u _ hu
    unfold waitSection
    split
    · exact hother u _ hu
    · split
      · exact hother u _ hu
      · exact hother u _ hu
  | @release u key' j hu => exact .inl (hother u _ (by rw [hu]; simp))
  | @wake u uaddr count _ =>
    unfold futexWake
    cases hkey : futexKey s u uaddr with
    | error e => exact .inl ht
    | ok k =>
      obtain ⟨r, hr⟩ : ∃ r, r = wakeLoop k (if count = 0 then 1 else count) s.slots 0 s.tasks :=
        ⟨_, rfl⟩
      have hw : ExactWake s { s with slots := r.1, tasks := r.2.2 } k _ r.2.1 :=
        exactWake_of_inv h hr.symm
      dsimp only
      rw [← hr]
      obtain ⟨-, hsame⟩ | ⟨-, -, hblocked, hfree⟩ := hw.tasks i _ t (h.queued t key i true ht) rfl
      · exact .inl (hsame.trans ht)
      · rw [ht, Waiter.waiting.injEq] at hblocked
        obtain ⟨rfl, -⟩ := hblocked
        exact .inr ⟨u, uaddr, count, rfl, hkey, hfree⟩
  | store => exact .inl ht

theorem futex_wake_exact {s : State} (h : futexSystem.Reachable s) : Exact s where
  wake t uaddr count key hkey hcount := by
    have hinv := inv_of_reachable h
    simp only [futexWake, hkey, if_neg (by omega : ¬ count = 0)]
    exact exactWake_of_inv hinv rfl
  enter _ _ _ _ hkey hword hroom := enter_queues hkey hword hroom
  queue t key i ht := (inv_of_reachable h).queued t key i true ht
  stays _ _ _ ht _ _ hstep := blocked_stays (inv_of_reachable h) ht hstep

/-- Every address is on the page at 4096, and no task waits. -/
def noWaiter : State :=
  ⟨fun _ => 0, fun _ _ => some 4096, List.replicate waitersMax ⟨false, 0, none, false⟩,
    fun _ => .idle⟩

/-- Tasks 1 and 2 wait for the first word of the page to change from 0, task 3 for the second. -/
def threeWaiters : State := futexWait (futexWait (futexWait noWaiter 1 0 0) 2 0 0) 3 4 0

theorem waiters_of_word_woken : Exact threeWaiters ∧ threeWaiters.queued 4096 = 2 ∧
    (futexWake threeWaiters 4 0 1).2 = 1 ∧ (futexWake threeWaiters 4 0 5).2 = 2 := by
  have hinit : futexSystem.Reachable noWaiter := .init ⟨rfl, fun _ => rfl⟩
  have hone := hinit.step (Label.wait 1 0 0) (Step.wait rfl)
  have htwo := hone.step (Label.wait 2 0 0) (Step.wait rfl)
  have hthree := htwo.step (Label.wait 3 4 0) (Step.wait rfl)
  refine ⟨futex_wake_exact hthree, ?_⟩
  decide +kernel

end Cervus.Futex
