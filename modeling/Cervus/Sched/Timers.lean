import Cervus.Framework.Word
import Cervus.Sched.Task

/-! # Timeouts of blocked tasks

    A task that sleeps has a deadline, and `sched.c` keeps the earliest deadline of all of them
    beside the table of tasks, so that most ticks can return at once. `sched_wakeup_sleepers` wakes
    at most 64 tasks in one scan, and computes the earliest deadline of the others.

    The paths that block a task with a deadline are `task_sleep_ns`, which announces the deadline
    after the task is blocked, `sys_sleep_ns`, which announces it before, and `sys_futex_wait`,
    which does not announce it. A tick can come between the two halves of the first two. Other
    paths block a task and leave its deadline as it is, or clear it. -/

namespace Cervus.Sched

/-! ## Section 1: The scan -/

/-- The fields of `task_t` that the timers use. -/
structure Sleeper where
  state         : TaskState
  wakeupTime    : Nat
  alarmAt       : Nat
  alarmInterval : Nat

/-- The entries of `pid_table` from index 1 on, `g_earliest_wakeup_ns`, `g_earliest_alarm_ns`.
    The last two fields are not in the source: the tasks between the two halves of
    `task_sleep_ns`, and those that have announced their deadline in `sys_sleep_ns` since the last
    scan of the table. -/
structure Timers where
  table         : List (Option Sleeper)
  earliest      : Nat
  earliestAlarm : Nat
  noting        : List Nat
  announced     : List Nat

def uint64Max : Nat := 2 ^ 64 - 1

/-- `sched_note_wakeup` and `note_alarm`; the loop around the exchange computes a minimum. -/
def note (earliest deadline : Nat) : Nat :=
  if deadline = 0 then earliest else if deadline < earliest then deadline else earliest

/-- The local variables of the scan. -/
structure Scan where
  wakeCount    : Nat := 0
  alarmCount   : Nat := 0
  nextEarliest : Nat := uint64Max
  nextAlarm    : Nat := uint64Max

def scanAlarm (now : Nat) (acc : Scan) (t : Sleeper) : Scan × Sleeper :=
  if t.alarmAt = 0 then (acc, t)
  else if now ≥ t.alarmAt ∧ acc.alarmCount < 16 then
    let next := if t.alarmInterval ≠ 0 then u64 (now + t.alarmInterval) else 0
    ({ acc with
        alarmCount := acc.alarmCount + 1
        nextAlarm := note acc.nextAlarm next },
      { t with alarmAt := next })
  else ({ acc with nextAlarm := note acc.nextAlarm t.alarmAt }, t)

def scanSleep (now : Nat) (acc : Scan) (t : Sleeper) : Scan × Sleeper :=
  if t.state ≠ .blocked ∨ t.wakeupTime = 0 then (acc, t)
  else if now ≥ t.wakeupTime ∧ acc.wakeCount < 64 then
    ({ acc with wakeCount := acc.wakeCount + 1 }, { t with wakeupTime := 0, state := .ready })
  -- the batch is full, or the task sleeps on
  else ({ acc with nextEarliest := note acc.nextEarliest t.wakeupTime }, t)

def scanTask (now : Nat) (acc : Scan) (t : Sleeper) : Scan × Sleeper :=
  let alarm := scanAlarm now acc t
  scanSleep now alarm.1 alarm.2

/-- The loop over the table. -/
def scan (now : Nat) : Scan → List (Option Sleeper) → Scan × List (Option Sleeper)
  | acc, [] => (acc, [])
  | acc, none :: rest =>
    let r := scan now acc rest
    (r.1, none :: r.2)
  | acc, some t :: rest =>
    let one := scanTask now acc t
    let r := scan now one.1 rest
    (r.1, some one.2 :: r.2)

/-- The test for the early return. -/
def tooEarly (s : Timers) (now : Nat) : Prop :=
  now < if s.earliestAlarm < s.earliest then s.earliestAlarm else s.earliest

instance (s : Timers) (now : Nat) : Decidable (tooEarly s now) :=
  inferInstanceAs (Decidable (_ < _))

def schedWakeupSleepers (s : Timers) (now : Nat) : Timers :=
  if tooEarly s now then s
  else
    let r := scan now {} s.table
    { s with
      table := r.2, earliest := r.1.nextEarliest, earliestAlarm := r.1.nextAlarm, announced := [] }

/-! ## Section 2: Runs -/

/-- The calls; `i` is the position of the task in the table. -/
inductive TimerCall where
  /-- `task_sleep_ns` up to where the task is blocked. -/
  | taskSleepNs (i now ns : Nat)
  /-- The call of `sched_note_wakeup` in it, with the deadline that the task has by then. -/
  | noteSleep (i : Nat)
  /-- The first half of `sys_sleep_ns`, before the task is blocked. -/
  | announceSleep (i now ns : Nat)
  /-- The task blocks with the deadline it has: the second half of `sys_sleep_ns`, and the paths
      that wait for something else. -/
  | block (i : Nat)
  | futexWait (i now timeout : Nat)
  /-- The deadline is cleared, as `sys_futex_wake`, `task_kill` and `wait_for_char` do. -/
  | clear (i : Nat)
  /-- The task gets another state: it is unblocked, scheduled, or ends. -/
  | setState (i : Nat) (state : TaskState)
  | setItimer (i now value interval : Nat)
  | tick (now : Nat)
  /-- A task is entered into the table. -/
  | create (i : Nat)
  | remove (i : Nat)

/-- `timeout_ns ? (sched_now_ns() + timeout_ns) : 0` -/
def deadline (now timeout : Nat) : Nat := if timeout ≠ 0 then u64 (now + timeout) else 0

/-- The task at position `i` is changed. -/
def Timers.put (s : Timers) (i : Nat) (t : Sleeper) : Timers :=
  { s with table := s.table.set i (some t) }

/-- What a call does to its task and to the two minima. A task between the two halves of
    `task_sleep_ns` calls nothing else. -/
inductive TimerStep : Timers → TimerCall → Timers → Prop where
  | taskSleepNs {s : Timers} {i now ns : Nat} {t : Sleeper} : s.table[i]? = some (some t) →
      ns ≠ 0 → i ∉ s.noting →
      TimerStep s (.taskSleepNs i now ns)
        { s.put i { t with wakeupTime := u64 (now + ns), state := .blocked } with
          noting := i :: s.noting
          announced := s.announced.filter (· ≠ i) }
  | noteSleep {s : Timers} {i : Nat} {t : Sleeper} : s.table[i]? = some (some t) →
      i ∈ s.noting →
      TimerStep s (.noteSleep i)
        { s with
          earliest := note s.earliest t.wakeupTime
          noting := s.noting.filter (· ≠ i) }
  | announceSleep {s : Timers} {i now ns : Nat} {t : Sleeper} : s.table[i]? = some (some t) →
      ns ≠ 0 → i ∉ s.noting →
      TimerStep s (.announceSleep i now ns)
        { s.put i { t with wakeupTime := u64 (now + ns) } with
          earliest := note s.earliest (u64 (now + ns))
          announced := i :: s.announced }
  | block {s : Timers} {i : Nat} {t : Sleeper} : s.table[i]? = some (some t) → i ∉ s.noting →
      TimerStep s (.block i) (s.put i { t with state := .blocked })
  | futexWait {s : Timers} {i now timeout : Nat} {t : Sleeper} : s.table[i]? = some (some t) →
      i ∉ s.noting →
      TimerStep s (.futexWait i now timeout)
        { s.put i { t with wakeupTime := deadline now timeout, state := .blocked } with
          announced := s.announced.filter (· ≠ i) }
  | clear {s : Timers} {i : Nat} {t : Sleeper} : s.table[i]? = some (some t) →
      TimerStep s (.clear i) (s.put i { t with wakeupTime := 0 })
  | setState {s : Timers} {i : Nat} {state : TaskState} {t : Sleeper} :
      s.table[i]? = some (some t) → state ≠ .blocked →
      TimerStep s (.setState i state) (s.put i { t with state := state })
  | setItimer {s : Timers} {i now value interval : Nat} {t : Sleeper} :
      s.table[i]? = some (some t) →
      TimerStep s (.setItimer i now value interval)
        { s.put i { t with
            alarmInterval := if value ≠ 0 then interval else 0
            alarmAt := deadline now value } with
          earliestAlarm := note s.earliestAlarm (deadline now value) }
  | tick {s : Timers} {now : Nat} : TimerStep s (.tick now) (schedWakeupSleepers s now)
  | create {s : Timers} {i : Nat} : TimerStep s (.create i) (s.put i ⟨.ready, 0, 0, 0⟩)
  | remove {s : Timers} {i : Nat} :
      TimerStep s (.remove i) { s with table := s.table.set i none }

/-- No task, and no deadline. -/
def timerSystem : System Timers TimerCall where
  init s := (∀ t, some t ∉ s.table) ∧ s.earliest = uint64Max ∧ s.earliestAlarm = uint64Max ∧
    s.noting = [] ∧ s.announced = []
  step := TimerStep

/-! ## Section 3: The earliest deadline -/

/-- The minimum is not after the deadline of the task. -/
def Covers (earliest : Nat) (t : Sleeper) : Prop :=
  t.state = .blocked → t.wakeupTime ≠ 0 → earliest ≤ t.wakeupTime

/-- Every sleeping task is covered, unless it is about to announce its deadline, and a tick at or
    after its deadline scans the table. -/
def NoMissedTimer (s : Timers) : Prop :=
  ∀ i t, s.table[i]? = some (some t) → t.state = .blocked → t.wakeupTime ≠ 0 → i ∉ s.noting →
    s.earliest ≤ t.wakeupTime ∧ ∀ now ≥ t.wakeupTime, ¬ tooEarly s now

/-- The condition on calls: nobody waits on a futex with a timeout, and a task that blocks with
    the deadline it has is in `sys_sleep_ns` with no scan since the deadline was announced, or has
    no deadline. -/
def InOrder (s : Timers) : TimerCall → Prop
  | .futexWait _ _ timeout => timeout = 0
  | .block i => i ∈ s.announced ∨ ∀ t, s.table[i]? = some (some t) → t.wakeupTime = 0
  | _ => True

/-- A task that sleeps, or is about to, is covered. -/
def Covered (s : Timers) (i : Nat) (t : Sleeper) : Prop :=
  (i ∈ s.announced → t.wakeupTime ≠ 0 → s.earliest ≤ t.wakeupTime) ∧
  (i ∉ s.noting → Covers s.earliest t)

/-- All tasks are. -/
def AllCovered (s : Timers) : Prop := ∀ i t, s.table[i]? = some (some t) → Covered s i t

theorem note_le (earliest d : Nat) : note earliest d ≤ earliest := by
  unfold note
  split
  · exact le_rfl
  · split <;> omega

theorem note_le_of_ne {d : Nat} (h : d ≠ 0) (earliest : Nat) : note earliest d ≤ d := by
  unfold note
  rw [if_neg h]
  split <;> omega

theorem Covers.mono {e e' : Nat} {t : Sleeper} (h : Covers e t) (hle : e' ≤ e) : Covers e' t :=
  fun hb hw => hle.trans (h hb hw)

section

variable (now : Nat) (acc : Scan) (t : Sleeper)

/-- The part about alarms does not touch the deadlines. -/
theorem scanAlarm_sleep :
    (scanAlarm now acc t).1.nextEarliest = acc.nextEarliest ∧
      (scanAlarm now acc t).2.state = t.state ∧
      (scanAlarm now acc t).2.wakeupTime = t.wakeupTime := by
  unfold scanAlarm
  split
  · exact ⟨rfl, rfl, rfl⟩
  · split <;> exact ⟨rfl, rfl, rfl⟩

/-- A task of the scan is woken or counted. -/
theorem scanSleep_covers :
    (scanSleep now acc t).1.nextEarliest ≤ acc.nextEarliest ∧
      Covers (scanSleep now acc t).1.nextEarliest (scanSleep now acc t).2 := by
  unfold scanSleep
  split
  · rename_i hout
    exact ⟨le_rfl, fun hb hw => (hout.elim (fun hne => hne hb) hw).elim⟩
  · split
    · exact ⟨le_rfl, fun hb => nomatch hb⟩
    · exact ⟨note_le _ _, fun _ hw => note_le_of_ne hw _⟩

theorem scanTask_covers :
    (scanTask now acc t).1.nextEarliest ≤ acc.nextEarliest ∧
      Covers (scanTask now acc t).1.nextEarliest (scanTask now acc t).2 := by
  obtain ⟨hle, hcovers⟩ := scanSleep_covers now (scanAlarm now acc t).1 (scanAlarm now acc t).2
  exact ⟨hle.trans_eq (scanAlarm_sleep now acc t).1, hcovers⟩

end

/-- The scan computes a minimum that covers every task it leaves asleep, those beyond the batch
    included. -/
theorem scan_covers (now : Nat) (acc : Scan) (table : List (Option Sleeper)) :
    (scan now acc table).1.nextEarliest ≤ acc.nextEarliest ∧
      ∀ t, some t ∈ (scan now acc table).2 → Covers (scan now acc table).1.nextEarliest t := by
  induction table generalizing acc with
  | nil => exact ⟨le_rfl, nofun⟩
  | cons entry rest ih =>
    cases entry with
    | none =>
      obtain ⟨hle, hcovers⟩ := ih acc
      refine ⟨hle, ?_⟩
      intro t ht
      exact hcovers t (by simpa [scan] using ht)
    | some t0 =>
      obtain ⟨hle0, hcovers0⟩ := scanTask_covers now acc t0
      obtain ⟨hle, hcovers⟩ := ih (scanTask now acc t0).1
      refine ⟨hle.trans hle0, ?_⟩
      intro t ht
      obtain heq | hmem := List.mem_cons.mp ht
      · cases heq
        exact hcovers0.mono hle
      · exact hcovers t hmem

/-- A call on one task: the others are still covered, the minimum being no later. -/
theorem AllCovered.put {s s' : Timers} {i : Nat} {t : Sleeper} (h : AllCovered s)
    (htable : s'.table = (s.put i t).table) (he : s'.earliest ≤ s.earliest)
    (hother : ∀ j ≠ i, (j ∈ s'.announced → j ∈ s.announced) ∧ (j ∉ s'.noting → j ∉ s.noting))
    (ht : Covered s' i t) : AllCovered s' := by
  intro j u hu
  rw [htable, Timers.put, List.getElem?_set] at hu
  split at hu
  · next hij =>
    subst hij
    split at hu
    · cases hu
      exact ht
    · cases hu
  · next hij =>
    obtain ⟨hann, hnoting⟩ := hother j (Ne.symm hij)
    obtain ⟨h1, h2⟩ := h j u hu
    exact ⟨fun hj hw => he.trans (h1 (hann hj) hw), fun hj => (h2 (hnoting hj)).mono he⟩

theorem allCovered_step {s s' : Timers} {c : TimerCall} (h : AllCovered s) (hok : InOrder s c)
    (hstep : TimerStep s c s') : AllCovered s' := by
  cases hstep with
  | taskSleepNs ht _ _ =>
    refine h.put rfl le_rfl (fun j hj => ⟨fun hann => (List.mem_filter.mp hann).1, ?_⟩) ⟨?_, ?_⟩
    · exact fun hnot hmem => hnot (.tail _ hmem)
    · exact fun hann => absurd rfl (of_decide_eq_true (List.mem_filter.mp hann).2)
    · exact fun hnot => absurd (.head _) hnot
  | @noteSleep i t ht _ =>
    -- the deadline counts from now on
    intro j u hu
    obtain ⟨h1, h2⟩ := h j u hu
    refine ⟨fun hj hw => (note_le _ _).trans (h1 hj hw), fun hj => ?_⟩
    by_cases hji : j = i
    · subst hji
      cases hu.symm.trans ht
      exact fun _ hw => note_le_of_ne hw _
    · have hnot : j ∉ s.noting := fun hmem =>
        hj (List.mem_filter.mpr ⟨hmem, decide_eq_true hji⟩)
      exact (h2 hnot).mono (note_le _ _)
  | announceSleep ht _ _ =>
    refine h.put rfl (note_le _ _) (fun j hj => ⟨fun hann => ?_, id⟩) ⟨?_, ?_⟩
    · exact (List.mem_cons.mp hann).resolve_left hj
    · exact fun _ hw => note_le_of_ne hw _
    · exact fun _ _ hw => note_le_of_ne hw _
  | @block i t ht hnot =>
    refine h.put rfl le_rfl (fun j _ => ⟨id, id⟩) ⟨(h i t ht).1, fun _ _ hw => ?_⟩
    exact hok.elim (fun hann => (h i t ht).1 hann hw) fun hzero => absurd (hzero t ht) hw
  | futexWait ht _ =>
    obtain rfl : _ = 0 := hok
    refine h.put rfl le_rfl (fun j _ => ⟨fun hann => (List.mem_filter.mp hann).1, id⟩) ⟨?_, ?_⟩
    · exact fun _ hw => absurd rfl hw
    · exact fun _ _ hw => absurd rfl hw
  | clear _ =>
    exact h.put rfl le_rfl (fun j _ => ⟨id, id⟩)
      ⟨fun _ hw => absurd rfl hw, fun _ _ hw => absurd rfl hw⟩
  | @setState i state t ht hne =>
    exact h.put rfl le_rfl (fun j _ => ⟨id, id⟩) ⟨(h i t ht).1, fun _ hb => absurd hb hne⟩
  | @setItimer i _ _ _ t ht => exact h.put rfl le_rfl (fun j _ => ⟨id, id⟩) (h i t ht)
  | @tick now =>
    unfold schedWakeupSleepers
    split
    · exact h
    · exact fun i t ht => ⟨fun hann => absurd hann List.not_mem_nil,
        fun _ => (scan_covers now {} s.table).2 t (List.mem_of_getElem? ht)⟩
  | create =>
    exact h.put rfl le_rfl (fun j _ => ⟨id, id⟩)
      ⟨fun _ hw => absurd rfl hw, fun _ _ hw => absurd rfl hw⟩
  | @remove i =>
    intro j u hu
    rw [List.getElem?_set] at hu
    split at hu
    · split at hu <;> cases hu
    · exact h j u hu

/-- **No missed timer**, where every deadline is announced: the earliest deadline is at most the
    deadline of each sleeping task, and a tick at or after it does not return early. -/
theorem no_missed_timer {s : Timers} (h : (timerSystem.restrict InOrder).Reachable s) :
    NoMissedTimer s := by
  have hcovers : AllCovered s := by
    refine System.Reachable.induct ?_ ?_ h
    · intro s hinit i t ht
      exact absurd (List.mem_of_getElem? ht) (hinit.1 t)
    · intro s c s' _ hs hstep
      exact allCovered_step hs hstep.1 hstep.2
  intro i t ht hb hw hnot
  have hle := (hcovers i t ht).2 hnot hb hw
  refine ⟨hle, fun now hnow => ?_⟩
  unfold tooEarly
  split <;> omega

/-- No task yet, in a table with room for three. -/
def noTasks : Timers := ⟨[none, none, none], uint64Max, uint64Max, [], []⟩

theorem noTasks_init : timerSystem.init noTasks := ⟨by simp [noTasks], rfl, rfl, rfl, rfl⟩

/-- A task that runs, and one that sleeps. -/
def awake : Sleeper := ⟨.ready, 0, 0, 0⟩

@[inherit_doc awake] def asleep (wakeupTime : Nat) : Sleeper := ⟨.blocked, wakeupTime, 0, 0⟩

/-- The first task has slept until 15 and was woken, the second sleeps until 30, and the third
    waits on a futex. -/
def sleeping : Timers := ⟨[some awake, some (asleep 30), some (asleep 0)], 30, uint64Max, [], []⟩

/-- The second task blocks while the first has yet to announce its deadline. -/
theorem sleeping_not_missed : NoMissedTimer sleeping := by
  let Reached (s : Timers) : Prop := (timerSystem.restrict InOrder).Reachable s
  have h0 : Reached { noTasks with table := [some awake, some awake, some awake] } :=
    .step (.create 2) (.step (.create 1) (.step (.create 0) (.init noTasks_init)
      ⟨trivial, .create⟩) ⟨trivial, .create⟩) ⟨trivial, .create⟩
  have h1 : Reached ⟨[some (asleep 15), some awake, some awake], uint64Max, uint64Max, [0], []⟩ :=
    .step (.taskSleepNs 0 10 5) h0 ⟨trivial, .taskSleepNs (t := awake) rfl (by decide) (by decide)⟩
  have h2 : Reached ⟨[some (asleep 15), some { awake with wakeupTime := 30 }, some awake], 30,
      uint64Max, [0], [1]⟩ :=
    .step (.announceSleep 1 10 20) h1
      ⟨trivial, .announceSleep (t := awake) rfl (by decide) (by decide)⟩
  have h3 : Reached ⟨[some (asleep 15), some (asleep 30), some awake], 30, uint64Max, [0], [1]⟩ :=
    .step (.block 1) h2
      ⟨.inl (.head _), .block (t := { awake with wakeupTime := 30 }) rfl (by decide)⟩
  have h4 : Reached ⟨[some (asleep 15), some (asleep 30), some awake], 15, uint64Max, [], [1]⟩ :=
    .step (.noteSleep 0) h3 ⟨trivial, .noteSleep (t := asleep 15) rfl (.head _)⟩
  have h5 : Reached
      ⟨[some (asleep 15), some (asleep 30), some (asleep 0)], 15, uint64Max, [], [1]⟩ :=
    .step (.futexWait 2 10 0) h4 ⟨rfl, .futexWait (t := awake) rfl (by decide)⟩
  exact no_missed_timer (.step (.tick 15) h5 ⟨trivial, .tick⟩)

/-- The only task waits on a futex until 15; no later tick looks at it. -/
def forgotten : Timers := ⟨[some (asleep 15)], uint64Max, uint64Max, [], []⟩

theorem futex_timeout_missed : timerSystem.Reachable forgotten ∧ ¬ NoMissedTimer forgotten ∧
    tooEarly forgotten 15 := by
  have hinit : timerSystem.Reachable ⟨[none], uint64Max, uint64Max, [], []⟩ :=
    .init ⟨by simp, rfl, rfl, rfl, rfl⟩
  refine ⟨.step (.futexWait 0 10 5) (.step (.create 0) hinit .create) ?_, ?_, by decide⟩
  · exact .futexWait (t := awake) rfl List.not_mem_nil
  · intro h
    have := (h 0 (asleep 15) rfl rfl (by decide) List.not_mem_nil).1
    exact absurd this (by decide)

end Cervus.Sched
