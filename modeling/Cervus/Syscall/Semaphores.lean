import Mathlib.Data.Int.DivMod
import Mathlib.Data.List.Basic
import Cervus.Framework.System

/-! # Semaphore sets (`syscall/mem/sem.c`)

    `sys_semop` takes a vector of operations. Under the lock it tests every one of them against the
    values as they are, and if all tests pass it applies them all; otherwise it sleeps and tries
    again.

    The tests do not see the effect of the operations before them, so that a vector that takes twice
    from one semaphore can leave it negative (`double_decrement_negative`). If no vector takes
    twice from a semaphore, tests one for zero after an increment, or overflows, then every call
    is atomic and no value is negative (`semop_atomic`). -/

namespace Cervus.Sem

open Function

/-! ## Section 1: Sets and operations -/

def semMax : Nat := 32

/-- `SEM_NSEMS_MAX` -/
def nsemsMax : Nat := 32

def einval : Int := 22
def efbig : Int := 27
def eagain : Int := 11
def eintr : Int := 4
def efault : Int := 14

def intMax : Int := 2 ^ 31 - 1

/-- The result of a C addition of type `int`. -/
def wrapInt (z : Int) : Int := (z + 2 ^ 31) % 2 ^ 32 - 2 ^ 31

/-- `struct k_sembuf`; of `sem_flg` only IPC_NOWAIT is used. `sem_op` is a `short`. -/
structure SemBuf where
  num    : Nat
  op     : Int
  nowait : Bool
  short  : -2 ^ 15 ≤ op ∧ op < 2 ^ 15

/-- The fields of a `sem_set_t` that `sys_semop` uses. -/
structure SemSet where
  used  : Bool
  id    : Int
  nsems : Nat
  val   : Nat → Int

/-- `g_sems` -/
abbrev Sets := Nat → SemSet

def setById (sets : Sets) (id : Int) : Option Nat :=
  (List.range semMax).find? fun i => (sets i).used && (sets i).id = id

/-- The test of one operation against a value fails. -/
def fails (v : Int) (o : SemBuf) : Bool :=
  decide (o.op < 0 ∧ wrapInt (v + o.op) < 0) || decide (o.op = 0 ∧ v ≠ 0)

/-- The first loop of `sys_semop`: `ok` and `nowait`, or none if a number is out of range. -/
def check (s : SemSet) : List SemBuf → Bool → Bool → Option (Bool × Bool)
  | [], ok, nowait => some (ok, nowait)
  | o :: rest, ok, nowait =>
    if o.num ≥ s.nsems then none
    else if fails (s.val o.num) o then check s rest false (nowait || o.nowait)
    else check s rest ok nowait

/-- The second loop. -/
def applyOps : List SemBuf → (Nat → Int) → Nat → Int
  | [], v => v
  | o :: rest, v => applyOps rest (Function.update v o.num (wrapInt (v o.num + o.op)))

/-- A turn of the loop of `sys_semop`: the sets after it, and what it returns unless it sleeps and
    tries again. -/
def attempt (sets : Sets) (id : Int) (ops : List SemBuf) (pendingKill : Bool) : Sets × Option Int :=
  match setById sets id with
  | none => (sets, some (-einval))
  | some i =>
    match check (sets i) ops true false with
    | none => (sets, some (-efbig))
    | some (true, _) =>
      (Function.update sets i { sets i with val := applyOps ops (sets i).val }, some 0)
    | some (false, true) => (sets, some (-eagain))
    | some (false, false) => (sets, if pendingKill then some (-eintr) else none)

/-! ## Section 2: Tasks -/

/-- Where a task is in `sys_semop`. -/
inductive Call where
  | idle
  | trying (id : Int) (ops : List SemBuf)
  | done (result : Int)

structure State where
  sets   : Sets
  calls  : Nat → Call
  killed : Nat → Bool

inductive Label where
  /-- A task calls `sys_semop`; `mapped` says if the vector can be read. -/
  | enter (t : Nat) (id : Int) (ops : List SemBuf) (mapped : Bool)
  /-- A turn of the loop. -/
  | turn (t : Nat)
  | kill (t : Nat)

/-- The checks before the loop. -/
def enterCall (id : Int) (ops : List SemBuf) (mapped : Bool) : Call :=
  if ops.length = 0 ∨ ops.length > nsemsMax then .done (-einval)
  else if mapped then .trying id ops else .done (-efault)

inductive Step : State → Label → State → Prop where
  | enter {s : State} {t : Nat} {id : Int} {ops : List SemBuf} {mapped : Bool} :
      (∀ id' ops', s.calls t ≠ .trying id' ops') →
      Step s (.enter t id ops mapped)
        { s with calls := Function.update s.calls t (enterCall id ops mapped) }
  | retry {s : State} {t : Nat} {id : Int} {ops : List SemBuf} : s.calls t = .trying id ops →
      (attempt s.sets id ops (s.killed t)).2 = none →
      Step s (.turn t) { s with sets := (attempt s.sets id ops (s.killed t)).1 }
  | leave {s : State} {t : Nat} {id r : Int} {ops : List SemBuf} : s.calls t = .trying id ops →
      (attempt s.sets id ops (s.killed t)).2 = some r →
      Step s (.turn t) ⟨(attempt s.sets id ops (s.killed t)).1,
        Function.update s.calls t (.done r), s.killed⟩
  | kill {s : State} {t : Nat} :
      Step s (.kill t) { s with killed := Function.update s.killed t true }

/-- The state after a step, if it can be taken. -/
def State.next (s : State) : Label → Option State
  | .enter t id ops mapped =>
    match s.calls t with
    | .trying _ _ => none
    | _ => some { s with calls := Function.update s.calls t (enterCall id ops mapped) }
  | .turn t =>
    match s.calls t with
    | .trying id ops =>
      let r := attempt s.sets id ops (s.killed t)
      some ⟨r.1, r.2.elim s.calls fun ret => Function.update s.calls t (.done ret), s.killed⟩
    | _ => none
  | .kill t => some { s with killed := Function.update s.killed t true }

/-- The values start non-negative, and no call is under way. -/
def semSystem : System State Label where
  init s := (∀ i n, 0 ≤ (s.sets i).val n ∧ (s.sets i).val n ≤ intMax) ∧ ∀ t, s.calls t = .idle
  step := Step

/-! ## Section 3: What the calls are for -/

/-- One operation by itself: it blocks if it would make the value negative, or if it tests for
    zero and the value is not. -/
def performOne (o : SemBuf) (v : Nat → Int) : Option (Nat → Int) :=
  if o.op < 0 ∧ v o.num + o.op < 0 ∨ o.op = 0 ∧ v o.num ≠ 0 then none
  else some (Function.update v o.num (v o.num + o.op))

/-- The operations one after the other. -/
def perform : List SemBuf → (Nat → Int) → Option (Nat → Int)
  | [], v => some v
  | o :: rest, v => (performOne o v).bind (perform rest)

/-- A step of a call is atomic: if the call returns 0, it has performed its operations one after
    the other on one set, and otherwise nothing has changed. -/
structure Atomic (s : State) (l : Label) (s' : State) : Prop where
  success : ∀ t id ops, l = .turn t → s.calls t = .trying id ops → s'.calls t = .done 0 →
    ∃ i v, setById s.sets id = some i ∧ perform ops (s.sets i).val = some v ∧
      s'.sets = Function.update s.sets i { s.sets i with val := v }
  failure : (∀ t id ops, l = .turn t → s.calls t = .trying id ops → s'.calls t ≠ .done 0) →
    s'.sets = s.sets

def NonNegative (s : State) : Prop := ∀ i n, 0 ≤ (s.sets i).val n

/-- What the operations add to a semaphore at most. -/
def increments : List SemBuf → Nat → Int
  | [], _ => 0
  | o :: rest, n => (if o.num = n ∧ 0 < o.op then o.op else 0) + increments rest n

/-- The tests of the vector do not depend on the operations before them: no semaphore is taken
    from twice, or tested for zero after an increment. -/
def Independent (ops : List SemBuf) : Prop :=
  ops.Pairwise fun a b => a.num = b.num → ¬ (a.op < 0 ∧ b.op < 0) ∧ ¬ (0 < a.op ∧ b.op = 0)

/-- The vector of a turn is independent and does not overflow. -/
def Orderly (s : State) : Label → Prop
  | .turn t => ∀ id ops, s.calls t = .trying id ops → Independent ops ∧
      ∀ i, setById s.sets id = some i → ∀ n, (s.sets i).val n + increments ops n ≤ intMax
  | _ => True

/-! ## Section 4: Vectors -/

section

variable {s : SemSet} {ops : List SemBuf} {v : Nat → Int} {o : SemBuf}

theorem wrapInt_of_range {z : Int} (hlow : -2 ^ 31 ≤ z) (hhigh : z ≤ intMax) : wrapInt z = z := by
  unfold intMax at hhigh
  unfold wrapInt
  omega

/-- What the tests of a vector say when all pass. -/
theorem check_ok : ∀ {ops : List SemBuf} {ok nowait nowait' : Bool},
    check s ops ok nowait = some (true, nowait') →
    ok = true ∧ ∀ o ∈ ops, o.num < s.nsems ∧ fails (s.val o.num) o = false
  | [], ok, nowait, nowait', h => by
    rw [check, Option.some.injEq, Prod.mk.injEq] at h
    exact ⟨h.1, fun o ho => nomatch ho⟩
  | o :: rest, ok, nowait, nowait', h => by
    rw [check] at h
    by_cases hnum : o.num ≥ s.nsems
    · rw [if_pos hnum] at h
      cases h
    rw [if_neg hnum] at h
    by_cases hfails : fails (s.val o.num) o = true
    · rw [if_pos hfails] at h
      cases (check_ok h).1
    rw [if_neg hfails] at h
    obtain ⟨hok, hrest⟩ := check_ok h
    exact ⟨hok, List.forall_mem_cons.mpr ⟨⟨Nat.not_le.mp hnum, Bool.not_eq_true _ ▸ hfails⟩, hrest⟩⟩

theorem increments_nonneg (n : Nat) : ∀ ops : List SemBuf, 0 ≤ increments ops n
  | [] => Int.le_refl _
  | o :: rest => by
    have hrest := increments_nonneg n rest
    rw [increments]
    split <;> omega

/-- The values are in range, also after all increments. -/
def InRange (v : Nat → Int) (ops : List SemBuf) : Prop :=
  ∀ n, 0 ≤ v n ∧ v n + increments ops n ≤ intMax

theorem fails_eq_false (hv : 0 ≤ v o.num) (hmax : v o.num ≤ intMax)
    (h : fails (v o.num) o = false) :
    (o.op < 0 → 0 ≤ v o.num + o.op) ∧ (o.op = 0 → v o.num = 0) := by
  have hshort := o.short
  rw [fails, Bool.or_eq_false_iff, decide_eq_false_iff_not, decide_eq_false_iff_not] at h
  obtain ⟨hneg, hzero⟩ := h
  refine ⟨fun hlt => ?_, fun heq => ?_⟩
  · rw [wrapInt_of_range (by omega) (by omega)] at hneg
    omega
  · by_contra hne
    exact hzero ⟨heq, hne⟩

/-- A vector whose tests are independent of each other has the effect of its operations one after
    the other. -/
theorem perform_eq : ∀ {ops : List SemBuf} {v : Nat → Int}, Independent ops → InRange v ops →
    (∀ o ∈ ops, (o.op < 0 → 0 ≤ v o.num + o.op) ∧ (o.op = 0 → v o.num = 0)) →
    perform ops v = some (applyOps ops v) ∧ InRange (applyOps ops v) []
  | [], v, _, hrange, _ => ⟨rfl, hrange⟩
  | o :: rest, v, hind, hrange, htests => by
    obtain ⟨hfirst, hrest⟩ := List.pairwise_cons.mp hind
    obtain ⟨hdec, hzero⟩ := htests o (.head _)
    obtain ⟨hv, hmax⟩ := hrange o.num
    have hinc := increments_nonneg o.num rest
    rw [increments] at hmax
    have hsum : 0 ≤ v o.num + o.op ∧ v o.num + o.op + increments rest o.num ≤ intMax := by
      by_cases hpos : 0 < o.op
      · rw [if_pos ⟨rfl, hpos⟩] at hmax
        omega
      · rw [if_neg fun h => hpos h.2] at hmax
        omega
    have hwrap : wrapInt (v o.num + o.op) = v o.num + o.op := wrapInt_of_range (by omega) (by omega)
    have hone : performOne o v = some (update v o.num (v o.num + o.op)) := by
      rw [performOne, if_neg]
      rintro (⟨hneg, hlt⟩ | ⟨heq, hne⟩)
      · exact absurd (hdec hneg) (Int.not_le.mpr hlt)
      · exact hne (hzero heq)
    rw [perform, hone, applyOps, hwrap]
    refine perform_eq hrest (fun n => ?_) fun b hb => ?_
    · by_cases hn : n = o.num
      · rw [hn, update_self]
        exact hsum
      have hother := hrange n
      rw [increments, if_neg fun h => hn h.1.symm, Int.zero_add] at hother
      rw [update_of_ne hn]
      exact hother
    -- a later operation on the same semaphore
    obtain ⟨hbdec, hbzero⟩ := htests b (.tail _ hb)
    by_cases hsame : b.num = o.num
    · obtain ⟨hnotwice, hnozero⟩ := hfirst b hb hsame.symm
      rw [hsame] at hbdec hbzero
      rw [hsame, update_self]
      refine ⟨fun hneg => ?_, fun heq => ?_⟩
      · have := hbdec hneg
        omega
      · have := hbzero heq
        omega
    · rw [update_of_ne hsame]
      exact ⟨hbdec, hbzero⟩

end

/-! ## Section 5: Runs -/

section

variable {s s' : State} {l : Label}

/-- A turn of the loop applies the operations and returns 0, or changes nothing. -/
theorem attempt_cases (sets : Sets) (id : Int) (ops : List SemBuf) (pendingKill : Bool) :
    (∃ i nowait, setById sets id = some i ∧ check (sets i) ops true false = some (true, nowait) ∧
      attempt sets id ops pendingKill =
        (update sets i { sets i with val := applyOps ops (sets i).val }, some 0)) ∨
    (attempt sets id ops pendingKill).1 = sets ∧ (attempt sets id ops pendingKill).2 ≠ some 0 := by
  cases hset : setById sets id with
  | none =>
    have heq : attempt sets id ops pendingKill = (sets, some (-einval)) := by
      simp only [attempt, hset]
    rw [heq]
    exact .inr ⟨rfl, (by decide : some (-einval) ≠ some 0)⟩
  | some i =>
    cases hcheck : check (sets i) ops true false with
    | none =>
      have heq : attempt sets id ops pendingKill = (sets, some (-efbig)) := by
        simp only [attempt, hset, hcheck]
      rw [heq]
      exact .inr ⟨rfl, (by decide : some (-efbig) ≠ some 0)⟩
    | some r =>
      obtain ⟨ok, nowait⟩ := r
      cases ok with
      | true => exact .inl ⟨i, nowait, rfl, hcheck, by simp only [attempt, hset, hcheck]⟩
      | false =>
        -- the call fails with -EAGAIN or -EINTR, or it sleeps
        have heq : attempt sets id ops pendingKill = (sets, if nowait then some (-eagain) else
            if pendingKill then some (-eintr) else none) := by
          cases nowait <;> simp only [attempt, hset, hcheck, Bool.false_eq_true, if_false, if_true]
        have hret : ∀ a b : Bool, (if a then some (-eagain) else
            if b then some (-eintr) else none) ≠ some 0 := by decide
        rw [heq]
        exact .inr ⟨rfl, hret nowait pendingKill⟩

/-- The values of all sets are in range. -/
def Sane (s : State) : Prop := ∀ i, InRange (s.sets i).val []

/-- A turn with an orderly vector. -/
theorem Sane.attempt (h : Sane s) {id : Int} {ops : List SemBuf} (k : Bool) (hind : Independent ops)
    (hfit : ∀ i, setById s.sets id = some i → ∀ n, (s.sets i).val n + increments ops n ≤ intMax) :
    (∃ i v, setById s.sets id = some i ∧ perform ops (s.sets i).val = some v ∧
      attempt s.sets id ops k =
        (update s.sets i { s.sets i with val := v }, some 0) ∧ InRange v []) ∨
    (attempt s.sets id ops k).1 = s.sets ∧ (attempt s.sets id ops k).2 ≠ some 0 := by
  rcases attempt_cases s.sets id ops k with ⟨i, nowait, hset, hcheck, heq⟩ | hnothing
  · have htests := (check_ok hcheck).2
    have hrange : InRange (s.sets i).val ops := fun n => ⟨(h i n).1, hfit i hset n⟩
    have hpass : ∀ o ∈ ops, (o.op < 0 → 0 ≤ (s.sets i).val o.num + o.op) ∧
        (o.op = 0 → (s.sets i).val o.num = 0) := by
      intro o ho
      have hmax := (h i o.num).2
      rw [increments, Int.add_zero] at hmax
      exact fails_eq_false (h i o.num).1 hmax (htests o ho).2
    obtain ⟨hperform, hrange'⟩ := perform_eq hind hrange hpass
    exact .inl ⟨i, _, hset, hperform, heq, hrange'⟩
  · exact .inr hnothing

theorem Sane.step (h : Sane s) (hok : Orderly s l) (hstep : Step s l s') :
    Sane s' ∧ Atomic s l s' := by
  cases hstep with
  | enter hidle =>
    refine ⟨h, ⟨?_, fun _ => rfl⟩⟩
    intro t id ops hl
    cases hl
  | kill =>
    refine ⟨h, ⟨?_, fun _ => rfl⟩⟩
    intro t id ops hl
    cases hl
  | @retry t id ops hcall hnone =>
    obtain ⟨hind, hfit⟩ := hok id ops hcall
    rcases h.attempt (s.killed t) hind hfit with ⟨i, v, -, -, heq, -⟩ | ⟨hsame, -⟩
    · rw [heq] at hnone
      cases hnone
    rw [hsame]
    refine ⟨h, ⟨?_, fun _ => rfl⟩⟩
    intro t' id' ops' hl hcall' hdone
    obtain rfl : t = t' := by
      cases hl
      rfl
    rw [hcall] at hdone
    cases hdone
  | @leave t id r ops hcall hsome =>
    obtain ⟨hind, hfit⟩ := hok id ops hcall
    rcases h.attempt (s.killed t) hind hfit with ⟨i, v, hset, hperform, heq, hrange⟩ | ⟨hsame, hne⟩
    · rw [heq] at hsome ⊢
      obtain rfl : 0 = r := Option.some.inj hsome
      refine ⟨fun j => ?_, ⟨?_, fun hnot => ?_⟩⟩
      · by_cases hj : j = i
        · simp only [hj, update_self]
          exact hrange
        · simp only [update_of_ne hj]
          exact h j
      · intro t' id' ops' hl hcall' _
        obtain rfl : t = t' := by
          cases hl
          rfl
        rw [hcall] at hcall'
        cases hcall'
        exact ⟨i, v, hset, hperform, rfl⟩
      · exact absurd (update_self t _ s.calls) (hnot t id ops rfl hcall)
    rw [hsame]
    refine ⟨h, ⟨?_, fun _ => rfl⟩⟩
    intro t' id' ops' hl _ hdone
    obtain rfl : t = t' := by
      cases hl
      rfl
    simp only [update_self] at hdone
    cases hdone
    exact absurd hsome hne

/-- If all vectors are orderly, calls are atomic and no value is negative. -/
theorem semop_atomic (s : State) (h : (semSystem.restrict Orderly).Reachable s) :
    NonNegative s ∧ ∀ l s', Orderly s l → semSystem.step s l s' → Atomic s l s' := by
  have hsane : Sane s := by
    refine @System.Reachable.induct _ _ _ Sane ?_ ?_ _ h
    · intro s hinit i n
      rw [increments, Int.add_zero]
      exact hinit.1 i n
    · intro s l s' _ hs ⟨hok, hstep⟩
      exact (hs.step hok hstep).1
  exact ⟨fun i n => (hsane i n).1, fun l s' hok hstep => (hsane.step hok hstep).2⟩

theorem State.next_step (h : s.next l = some s') : semSystem.step s l s' := by
  cases l with
  | enter t id ops mapped =>
    cases hcall : s.calls t with
    | trying id' ops' =>
      rw [State.next, hcall] at h
      cases h
    | _ =>
      rw [State.next, hcall] at h
      cases h
      exact .enter fun id' ops' htry => by rw [htry] at hcall; cases hcall
  | turn t =>
    cases hcall : s.calls t with
    | trying id ops =>
      rw [State.next, hcall] at h
      cases hret : (attempt s.sets id ops (s.killed t)).2 with
      | none =>
        simp only [hret, Option.elim, Option.some.injEq] at h
        exact h ▸ .retry hcall hret
      | some r =>
        simp only [hret, Option.elim, Option.some.injEq] at h
        exact h ▸ .leave hcall hret
    | _ =>
      rw [State.next, hcall] at h
      cases h
  | kill t =>
    cases h
    exact .kill

/-! ## Section 6: Two tasks, and a vector that takes twice -/

/-- One set with two semaphores, of values 1 and 0; no call is under way. -/
def twoSems : State :=
  ⟨fun i => ⟨i = 0, 1, 2, fun n => if i = 0 ∧ n = 0 then 1 else 0⟩, fun _ => .idle, fun _ => false⟩

theorem twoSems_init : semSystem.init twoSems := by
  refine ⟨fun i n => ?_, fun _ => rfl⟩
  simp only [twoSems]
  split <;> decide

def take : SemBuf := ⟨0, -1, false, by decide⟩

/-- Takes from the first semaphore, gives one to the second, and gives two to the first. -/
def exchange : List SemBuf := [take, ⟨1, 1, false, by decide⟩, ⟨0, 2, false, by decide⟩]

/-- Takes from both semaphores. -/
def collect : List SemBuf := [⟨1, -1, false, by decide⟩, take]

/-- Task 1 has to wait for task 0. -/
def waitingCalls : List Label :=
  [.enter 0 1 exchange true, .enter 1 1 collect true, .turn 1, .turn 0, .turn 1]

/-- The state after the first calls. -/
def waitingRun (n : Nat) : State :=
  (System.replay State.next twoSems (waitingCalls.take n)).getD twoSems

/-- A turn is orderly when the values and the increments are small. -/
theorem orderly_of_small {t : Nat} {ops : List SemBuf} (hcall : s.calls t = .trying 1 ops)
    (hind : Independent ops) (hset : setById s.sets 1 = some 0)
    (hval : ∀ n, (s.sets 0).val n ≤ 2) (hinc : ∀ n, increments ops n ≤ 3) :
    Orderly s (.turn t) := by
  intro id ops' hcall'
  rw [hcall] at hcall'
  cases hcall'
  refine ⟨hind, fun i hi n => ?_⟩
  cases hi.symm.trans hset
  have := hval n
  have := hinc n
  unfold intMax
  omega

theorem exchange_collect_atomic :
    (semSystem.restrict Orderly).Reachable (waitingRun 5) ∧ NonNegative (waitingRun 5) ∧
      Atomic (waitingRun 4) (.turn 1) (waitingRun 5) ∧
      (waitingRun 3).calls 1 = .trying 1 collect ∧ (waitingRun 5).calls 1 = .done 0 ∧
      ((waitingRun 5).sets 0).val 0 = 1 ∧ ((waitingRun 5).sets 0).val 1 = 0 := by
  have hcollect : Independent collect ∧ ∀ n, increments collect n ≤ 3 := by
    refine ⟨by simp [Independent, collect, take], fun n => ?_⟩
    simp [increments, collect, take]
  have hexchange : Independent exchange ∧ ∀ n, increments exchange n ≤ 3 := by
    refine ⟨by simp [Independent, exchange, take], fun n => ?_⟩
    simp only [increments, exchange, take]
    split <;> split <;> split <;> omega
  have hold : ∀ n, ((waitingRun 2).sets 0).val n ≤ 2 := by
    intro n
    show (if 0 = 0 ∧ n = 0 then (1 : Int) else 0) ≤ 2
    split <;> decide
  have hnew : ∀ n, ((waitingRun 4).sets 0).val n ≤ 2 := by
    intro n
    by_cases hn : n = 0 ∨ n = 1
    · obtain rfl | rfl := hn <;> decide
    · show applyOps exchange ((waitingRun 2).sets 0).val n ≤ 2
      simp only [exchange, take, applyOps, update_of_ne (show n ≠ 0 by omega),
        update_of_ne (show n ≠ 1 by omega)]
      exact hold n
  have h0 : (semSystem.restrict Orderly).Reachable (waitingRun 0) := .init twoSems_init
  have h1 : (semSystem.restrict Orderly).Reachable (waitingRun 1) :=
    .step (.enter 0 1 exchange true) h0 ⟨trivial, State.next_step rfl⟩
  have h2 : (semSystem.restrict Orderly).Reachable (waitingRun 2) :=
    .step (.enter 1 1 collect true) h1 ⟨trivial, State.next_step rfl⟩
  have h3 : (semSystem.restrict Orderly).Reachable (waitingRun 3) :=
    .step (.turn 1) h2
      ⟨orderly_of_small rfl hcollect.1 (by decide) hold hcollect.2, State.next_step rfl⟩
  have h4 : (semSystem.restrict Orderly).Reachable (waitingRun 4) :=
    .step (.turn 0) h3
      ⟨orderly_of_small rfl hexchange.1 (by decide) hold hexchange.2, State.next_step rfl⟩
  have hlast : Orderly (waitingRun 4) (.turn 1) :=
    orderly_of_small rfl hcollect.1 (by decide) hnew hcollect.2
  have hstep : semSystem.step (waitingRun 4) (.turn 1) (waitingRun 5) := State.next_step rfl
  have h5 : (semSystem.restrict Orderly).Reachable (waitingRun 5) :=
    .step (.turn 1) h4 ⟨hlast, hstep⟩
  exact ⟨h5, (semop_atomic _ h5).1, (semop_atomic _ h4).2 _ _ hlast hstep, rfl, rfl,
    by decide, by decide⟩

/-- A vector that takes twice from a semaphore of value 1 returns 0 and leaves it at -1. -/
theorem double_decrement_negative :
    ∃ s, semSystem.Reachable s ∧ s.calls 0 = .done 0 ∧ (s.sets 0).val 0 = -1 := by
  let s := (System.replay State.next twoSems [.enter 0 1 [take, take] true, .turn 0]).get
    (by decide)
  have hs : semSystem.Reachable s :=
    (System.Reachable.init twoSems_init).replay (fun _ _ _ => State.next_step)
      (Option.some_get _).symm
  exact ⟨s, hs, rfl, by decide⟩

end

end Cervus.Sem
