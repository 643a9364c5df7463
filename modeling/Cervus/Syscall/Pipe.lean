import Cervus.Framework.Ring
import Cervus.Framework.System

/-! # Pipes (`syscall/io/pipe.c`)

    A pipe is a ring of 4096 bytes of which one stays empty, and two slots for a task that waits:
    one for a reader, one for a writer. A call moves bytes in several sections under the lock of
    the pipe, and blocks in between; each section is one step here. Tasks may be woken from outside
    (by a signal), and then go on with the loop.

    Beside the pipe the state keeps the bytes that were inserted and removed, each with the number
    of the call that did it. `free` of the shared part is left out. -/

namespace Cervus.Pipes

open Function List

/-! ## Section 1: The ring -/

/-- `PIPE_BUFSZ` -/
def bufSize : Nat := 4096

def eintr : Int := 4
def epipe : Int := 32

/-- `pipe_shared_t`; the waiters are numbers of tasks. -/
structure Pipe where
  buf         : Nat → UInt8
  head        : Nat
  tail        : Nat
  readers     : Nat
  writers     : Nat
  readWaiter  : Option Nat
  writeWaiter : Option Nat

/-- The inner loop of `pipe_read_op`: at most `n` bytes are taken out. -/
def popBytes : Nat → Pipe → List UInt8 × Pipe
  | 0, p => ([], p)
  | n + 1, p =>
    if p.head = p.tail then ([], p)
    else
      let rest := popBytes n { p with head := (p.head + 1) % bufSize }
      (p.buf p.head :: rest.1, rest.2)

/-- The inner loop of `pipe_write_op`: the bytes that do not fit are left. -/
def pushBytes : List UInt8 → Pipe → List UInt8 × Pipe
  | [], p => ([], p)
  | b :: rest, p =>
    if (p.tail + 1) % bufSize = p.head then (b :: rest, p)
    else pushBytes rest { p with
      buf := fun i => if i = p.tail then b else p.buf i
      tail := (p.tail + 1) % bufSize }

/-! ## Section 2: Tasks -/

/-- Where a task is: outside, in a call (and possibly blocked), or back from it. A call has a
    number, and the bytes that it has moved so far. -/
inductive Call where
  | idle
  | reading (c len : Nat) (got : List UInt8) (blocked : Bool)
  | writing (c : Nat) (data : List UInt8) (done : Nat) (blocked : Bool)
  | readDone (c len : Nat) (got : List UInt8) (result : Int)
  | writeDone (c : Nat) (data : List UInt8) (done : Nat) (result : Int)

structure State where
  pipe     : Pipe
  tasks    : Nat → Call
  killed   : Nat → Bool
  /-- The number of the next call. -/
  next     : Nat
  inserted : List (Nat × UInt8)
  removed  : List (Nat × UInt8)

/-- `task_unblock` -/
def Call.unblock : Call → Call
  | .reading c len got _ => .reading c len got false
  | .writing c data done _ => .writing c data done false
  | call => call

/-- `pipe_wake_other`, on the tasks. -/
def wakeTask (w : Option Nat) (tasks : Nat → Call) : Nat → Call :=
  match w with
  | none => tasks
  | some t => Function.update tasks t (tasks t).unblock

/-- The task is not in a call. -/
def Call.outside : Call → Bool
  | .reading .. => false
  | .writing .. => false
  | _ => true

def State.setTask (s : State) (t : Nat) (call : Call) : State :=
  { s with tasks := Function.update s.tasks t call }

/-! ## Section 3: The sections under the lock -/

/-- A turn of the loop of `pipe_read_op`. -/
def readSection (s : State) (t c len : Nat) (got : List UInt8) : State :=
  if s.pipe.head = s.pipe.tail then
    if s.pipe.writers = 0 ∨ got.length > 0 then s.setTask t (.readDone c len got got.length)
    else if s.killed t then s.setTask t (.readDone c len got (-eintr))
    else
      { s with
        pipe := { s.pipe with readWaiter := some t }
        tasks := Function.update s.tasks t (.reading c len got true) }
  else
    let r := popBytes (len - got.length) s.pipe
    let got' := got ++ r.1
    let call := if got'.length < len then Call.reading c len got' false
      else .readDone c len got' got'.length
    { s with
      pipe := { r.2 with writeWaiter := none }
      tasks := wakeTask r.2.writeWaiter (Function.update s.tasks t call)
      removed := s.removed ++ r.1.map (c, ·) }

/-- A turn of the loop of `pipe_write_op`. -/
def writeSection (s : State) (t c : Nat) (data : List UInt8) (done : Nat) : State :=
  if s.pipe.readers = 0 then
    s.setTask t (.writeDone c data done (if done > 0 then done else -epipe))
  else if (s.pipe.tail + 1) % bufSize = s.pipe.head then
    if s.killed t then s.setTask t (.writeDone c data done (if done > 0 then done else -eintr))
    else
      { s with
        pipe := { s.pipe with writeWaiter := some t }
        tasks := Function.update s.tasks t (.writing c data done true) }
  else
    let r := pushBytes (data.drop done) s.pipe
    let done' := data.length - r.1.length
    let call := if done' < data.length then Call.writing c data done' false
      else .writeDone c data done' done'
    { s with
      pipe := { r.2 with readWaiter := none }
      tasks := wakeTask r.2.readWaiter (Function.update s.tasks t call)
      inserted := s.inserted ++ ((data.drop done).take (done' - done)).map (c, ·) }

/-- The two ends; `vd->end` is 0 for the first. -/
inductive End where
  | read
  | write

/-- One end less. -/
def Pipe.drop (p : Pipe) : End → Pipe
  | .read => { p with readers := p.readers - 1 }
  | .write => { p with writers := p.writers - 1 }

/-- `pipe_unref_op` -/
def unref (s : State) (e : End) : State :=
  let p := s.pipe.drop e
  -- the writer is woken first, then the reader
  let w := if p.readers = 0 then p.writeWaiter else none
  let r := if p.writers = 0 then p.readWaiter else none
  { s with
    pipe := { p with
      writeWaiter := if p.readers = 0 then none else p.writeWaiter
      readWaiter := if p.writers = 0 then none else p.readWaiter }
    tasks := wakeTask r (wakeTask w s.tasks) }

/-! ## Section 4: Runs -/

inductive Label where
  | enterRead (t len : Nat)
  | enterWrite (t : Nat) (data : List UInt8)
  /-- The next section of a task. -/
  | run (t : Nat)
  | close (e : End)
  | kill (t : Nat)
  /-- The task is unblocked from outside. -/
  | wake (t : Nat)

/-- The number of open ends. -/
def Pipe.refs (p : Pipe) : End → Nat
  | .read => p.readers
  | .write => p.writers

/-- The loops are not entered for a length of zero. -/
def startRead (c len : Nat) : Call :=
  if len = 0 then .readDone c len [] 0 else .reading c len [] false

def startWrite (c : Nat) (data : List UInt8) : Call :=
  if data.length = 0 then .writeDone c data 0 0 else .writing c data 0 false

inductive Step : State → Label → State → Prop where
  | enterRead {s : State} {t len : Nat} : (s.tasks t).outside = true →
      Step s (.enterRead t len) { s.setTask t (startRead s.next len) with next := s.next + 1 }
  | enterWrite {s : State} {t : Nat} {data : List UInt8} : (s.tasks t).outside = true →
      Step s (.enterWrite t data) { s.setTask t (startWrite s.next data) with next := s.next + 1 }
  | read {s : State} {t c len : Nat} {got : List UInt8} : s.tasks t = .reading c len got false →
      Step s (.run t) (readSection s t c len got)
  | write {s : State} {t c done : Nat} {data : List UInt8} :
      s.tasks t = .writing c data done false → Step s (.run t) (writeSection s t c data done)
  | close {s : State} {e : End} : s.pipe.refs e > 0 → Step s (.close e) (unref s e)
  | kill {s : State} {t : Nat} :
      Step s (.kill t) { s with killed := Function.update s.killed t true }
  | wake {s : State} {t : Nat} : Step s (.wake t) { s with tasks := wakeTask (some t) s.tasks }

/-- A pipe as `sys_pipe` makes it. -/
def newPipe : Pipe := ⟨fun _ => 0, 0, 0, 1, 1, none, none⟩

def pipeSystem : System State Label where
  init s := s.pipe = newPipe ∧ (∀ t, s.tasks t = .idle) ∧ s.inserted = [] ∧ s.removed = []
  step := Step

/-! ## Section 5: The loops on the ring -/

/-- The cells between the two indices, with their number. -/
def Pipe.ring (p : Pipe) : Ring UInt8 bufSize :=
  ⟨p.buf, p.head, p.tail, (p.tail + bufSize - p.head) % bufSize⟩

/-- The bytes in the pipe, oldest first. -/
def Pipe.contents (p : Pipe) : List UInt8 := p.ring.contents

structure Pipe.Ok (p : Pipe) : Prop where
  head_lt : p.head < bufSize
  tail_lt : p.tail < bufSize

variable {p : Pipe} {c c' t len done : Nat} {ins rem : List (Nat × UInt8)} {call : Call}
  {tasks : Nat → Call} {s s' : State} {w : Option Nat} {got data : List UInt8} {l : Label} {e : End}

theorem Pipe.Ok.ring (h : p.Ok) : p.ring.Ok := by
  obtain ⟨hh, ht⟩ := h
  refine ⟨hh, ?_, ?_⟩
  · simp only [Pipe.ring, bufSize]
    omega
  · simp only [Pipe.ring, bufSize] at *
    omega

theorem Pipe.Ok.empty (h : p.Ok) : p.head = p.tail ↔ p.contents = [] := by
  obtain ⟨hh, ht⟩ := h
  rw [← length_eq_zero_iff, Pipe.contents, Ring.length_contents]
  simp only [Pipe.ring, bufSize] at *
  omega

/-- Only the bytes and the indices differ. -/
structure SameEnds (p q : Pipe) : Prop where
  readers     : q.readers = p.readers
  writers     : q.writers = p.writers
  readWaiter  : q.readWaiter = p.readWaiter
  writeWaiter : q.writeWaiter = p.writeWaiter

theorem SameEnds.refs {q : Pipe} (h : SameEnds p q) : ∀ e, q.refs e = p.refs e
  | .read => h.readers
  | .write => h.writers

/-- The inner loop of a read is the operation of the ring. -/
theorem popBytes_ring (h : p.Ok) (n : Nat) :
    (popBytes n p).1 = (p.ring.pop n).1 ∧ (popBytes n p).2.ring = (p.ring.pop n).2 ∧
      (popBytes n p).2.Ok ∧ SameEnds p (popBytes n p).2 := by
  induction n generalizing p with
  | zero => exact ⟨rfl, rfl, h, rfl, rfl, rfl, rfl⟩
  | succ n ih =>
    obtain ⟨hh, ht⟩ := h
    have hcount : 0 < p.ring.count ↔ p.head ≠ p.tail := by
      simp only [Pipe.ring, bufSize] at *
      omega
    by_cases he : p.head = p.tail
    · have hc : ¬ 0 < p.ring.count := fun hc => hcount.mp hc he
      rw [popBytes, if_pos he, Ring.pop, if_neg hc]
      exact ⟨rfl, rfl, ⟨hh, ht⟩, rfl, rfl, rfl, rfl⟩
    simp only [popBytes, if_neg he, Ring.pop, if_pos (hcount.mpr he)]
    have hadv : ({ p with head := (p.head + 1) % bufSize } : Pipe).ring = p.ring.advance := by
      simp only [Pipe.ring, Ring.advance, Ring.mk.injEq, bufSize, true_and] at *
      omega
    obtain ⟨hbytes, hring, hok, hsame⟩ :=
      ih (p := { p with head := (p.head + 1) % bufSize }) ⟨Nat.mod_lt _ (by decide), ht⟩
    rw [hadv] at hbytes hring
    exact ⟨by rw [hbytes]; rfl, hring, hok, hsame.readers, hsame.writers, hsame.readWaiter,
      hsame.writeWaiter⟩

theorem popBytes_spec (h : p.Ok) (n : Nat) :
    p.contents = (popBytes n p).1 ++ (popBytes n p).2.contents ∧
      (popBytes n p).1.length ≤ n ∧ (popBytes n p).2.Ok ∧ SameEnds p (popBytes n p).2 := by
  obtain ⟨hbytes, hring, hok, hsame⟩ := popBytes_ring h n
  obtain ⟨hcat, -, hlen⟩ := Ring.pop_spec h.ring n
  refine ⟨?_, ?_, hok, hsame⟩
  · rw [Pipe.contents, Pipe.contents, hbytes, hring]
    exact hcat
  · rw [hbytes, hlen]
    exact Nat.min_le_left _ _

/-- One byte into a pipe that is not full. -/
theorem push_one (h : p.Ok) (hfull : (p.tail + 1) % bufSize ≠ p.head) (b : UInt8) : ({ p with
      buf := fun i => if i = p.tail then b else p.buf i
      tail := (p.tail + 1) % bufSize } : Pipe).contents = p.contents ++ [b] := by
  obtain ⟨hh, ht⟩ := h
  have hcap : 1 ≤ bufSize - p.ring.count := by
    simp only [Pipe.ring, bufSize] at *
    omega
  have hcount : ((p.tail + 1) % bufSize + bufSize - p.head) % bufSize =
      (p.tail + bufSize - p.head) % bufSize + 1 := by
    simp only [bufSize] at *
    omega
  have hring : ({ p with
      buf := fun i => if i = p.tail then b else p.buf i
      tail := (p.tail + 1) % bufSize } : Pipe).ring = p.ring.push [b] := by
    have htake : [b].take (bufSize - p.ring.count) = [b] := take_of_length_le (by simpa)
    simp only [Ring.push, htake, Ring.write, length_singleton]
    simp only [Pipe.ring, hcount]
    rfl
  rw [Pipe.contents, hring, Ring.contents_push (Pipe.Ok.ring ⟨hh, ht⟩),
    take_of_length_le (by simpa), Pipe.contents]

/-- The inner loop of a write appends the first bytes of its data. -/
theorem pushBytes_spec (h : p.Ok) (data : List UInt8) :
    ∃ k ≤ data.length, (pushBytes data p).1 = data.drop k ∧
      (pushBytes data p).2.contents = p.contents ++ data.take k ∧
      (pushBytes data p).2.Ok ∧ SameEnds p (pushBytes data p).2 := by
  induction data generalizing p with
  | nil => exact ⟨0, le_rfl, rfl, by simp [pushBytes], h, rfl, rfl, rfl, rfl⟩
  | cons b data ih =>
    by_cases hfull : (p.tail + 1) % bufSize = p.head
    · simp only [pushBytes, if_pos hfull]
      exact ⟨0, Nat.zero_le _, rfl, by simp, h, rfl, rfl, rfl, rfl⟩
    simp only [pushBytes, if_neg hfull]
    obtain ⟨k, hk, hrest, hcontents, hok, hsame⟩ := ih (p := { p with
      buf := fun i => if i = p.tail then b else p.buf i
      tail := (p.tail + 1) % bufSize }) ⟨h.head_lt, Nat.mod_lt _ (by decide)⟩
    refine ⟨k + 1, by simpa using hk, by simpa using hrest, ?_, hok, hsame.readers,
      hsame.writers, hsame.readWaiter, hsame.writeWaiter⟩
    rw [hcontents, push_one h hfull, take_succ_cons, append_assoc]
    rfl

/-! ## Section 6: The order of the bytes -/

/-- The bytes that a call moved. -/
def bytesOf (c : Nat) (log : List (Nat × UInt8)) : List UInt8 :=
  (log.filter fun x => x.1 = c).map Prod.snd

/-- What a call has moved, and its result once it is back: the number of bytes, or an error with no
    byte moved. -/
def InOrder (inserted removed : List (Nat × UInt8)) : Call → Prop
  | .idle => True
  | .reading c len got _ => bytesOf c removed = got ∧ got.length < len
  | .writing c data done _ => bytesOf c inserted = data.take done ∧ done < data.length
  | .readDone c len got result => bytesOf c removed = got ∧ got.length ≤ len ∧
      (result = got.length ∨ result < 0 ∧ got = [])
  | .writeDone c data done result => bytesOf c inserted = data.take done ∧ done ≤ data.length ∧
      (result = done ∨ result < 0 ∧ done = 0)

/-- The pipe is a queue of bytes, and each call moves its bytes in their order. -/
structure Fifo (s : State) : Prop where
  queue : s.removed.map Prod.snd <+: s.inserted.map Prod.snd
  calls : ∀ t, InOrder s.inserted s.removed (s.tasks t)
  /-- The step in which a read of some length returns 0 finds the pipe empty and no writer. -/
  eof   : ∀ l s', Step s l s' → ∀ t c len got, s'.tasks t = .readDone c len got 0 →
    s.tasks t ≠ s'.tasks t → len ≠ 0 → s.pipe.contents = [] ∧ s.pipe.writers = 0

/-- The number of the call of a task. -/
def Call.number : Call → Option Nat
  | .idle => none
  | .reading c .. => some c
  | .writing c .. => some c
  | .readDone c .. => some c
  | .writeDone c .. => some c

structure Inv (s : State) : Prop where
  ok       : s.pipe.Ok
  queue    : s.inserted.map Prod.snd = s.removed.map Prod.snd ++ s.pipe.contents
  calls    : ∀ t, InOrder s.inserted s.removed (s.tasks t)
  known    : ∀ x ∈ s.inserted ++ s.removed, x.1 < s.next
  numbered : ∀ t c, (s.tasks t).number = some c → c < s.next
  distinct : ∀ t u c, (s.tasks t).number = some c → (s.tasks u).number = some c → t = u

theorem bytesOf_append_self (c : Nat) (log : List (Nat × UInt8)) (xs : List UInt8) :
    bytesOf c (log ++ xs.map (c, ·)) = bytesOf c log ++ xs := by
  have hall : (xs.map (c, ·)).filter (fun x => x.1 = c) = xs.map (c, ·) := by
    simp
  rw [bytesOf, filter_append, hall, map_append, map_map]
  simp [bytesOf, comp_def]

theorem bytesOf_append_ne (h : c' ≠ c) (log : List (Nat × UInt8)) (xs : List UInt8) :
    bytesOf c (log ++ xs.map (c', ·)) = bytesOf c log := by
  have hnone : (xs.map (c', ·)).filter (fun x => x.1 = c) = [] := by
    simp [h]
  rw [bytesOf, filter_append, hnone, append_nil, bytesOf]

theorem bytesOf_eq_nil {log : List (Nat × UInt8)} (h : ∀ x ∈ log, x.1 < c) :
    bytesOf c log = [] := by
  rw [bytesOf, map_eq_nil_iff, filter_eq_nil_iff]
  intro x hx hc
  have := h x hx
  simp only [decide_eq_true_eq] at hc
  omega

@[simp] theorem number_unblock (call : Call) : call.unblock.number = call.number := by
  cases call <;> rfl

theorem InOrder.unblock (h : InOrder ins rem call) : InOrder ins rem call.unblock := by
  cases call <;> exact h

/-- Bytes of another call do not matter. -/
theorem InOrder.append (h : InOrder ins rem call) (hne : ∀ c', call.number = some c' → c ≠ c')
    (xs ys : List UInt8) : InOrder (ins ++ xs.map (c, ·)) (rem ++ ys.map (c, ·)) call := by
  cases call with
  | idle => trivial
  | _ => exact ⟨by rw [bytesOf_append_ne (hne _ rfl)]; exact h.1, h.2⟩

/-- A task is woken or left alone. -/
theorem wakeTask_cases (w : Option Nat) (tasks : Nat → Call) (t : Nat) :
    wakeTask w tasks t = tasks t ∨ w = some t ∧ wakeTask w tasks t = (tasks t).unblock := by
  cases w with
  | none => exact .inl rfl
  | some u =>
    by_cases h : t = u
    · subst h
      exact .inr ⟨rfl, update_self ..⟩
    · exact .inl (update_of_ne h ..)

@[simp] theorem number_wakeTask (w : Option Nat) (tasks : Nat → Call) (t : Nat) :
    (wakeTask w tasks t).number = (tasks t).number := by
  obtain h | ⟨-, h⟩ := wakeTask_cases w tasks t
  · rw [h]
  · rw [h, number_unblock]

theorem InOrder.wakeTask (h : InOrder ins rem (tasks t)) (w : Option Nat) :
    InOrder ins rem (wakeTask w tasks t) := by
  obtain he | ⟨-, he⟩ := wakeTask_cases w tasks t
  · rw [he]
    exact h
  · rw [he]
    exact h.unblock

theorem forall_update {P : Nat → Call → Prop} (hother : ∀ u, u ≠ t → P u (tasks u))
    (hself : P t call) (u : Nat) : P u (update tasks t call u) := by
  by_cases hu : u = t
  · rw [hu, update_self]
    exact hself
  · rw [update_of_ne hu]
    exact hother u hu

/-- A step that moves no byte, and starts no call. -/
theorem Inv.still (h : Inv s)
    (hcalls : ∀ t, InOrder s.inserted s.removed (s'.tasks t) ∧
      (s'.tasks t).number = (s.tasks t).number)
    (hring : s'.pipe.ring = s.pipe.ring) (hins : s'.inserted = s.inserted)
    (hrem : s'.removed = s.removed) (hnext : s'.next = s.next) : Inv s' where
  ok := ⟨lt_of_eq_of_lt (congrArg Ring.head hring) h.ok.head_lt,
    lt_of_eq_of_lt (congrArg Ring.tail hring) h.ok.tail_lt⟩
  queue := by
    rw [hins, hrem, Pipe.contents, hring]
    exact h.queue
  calls t := by
    rw [hins, hrem]
    exact (hcalls t).1
  known := by
    rw [hins, hrem, hnext]
    exact h.known
  numbered t c hc := by
    rw [hnext]
    exact h.numbered t c ((hcalls t).2 ▸ hc)
  distinct t u c ht hu := h.distinct t u c ((hcalls t).2 ▸ ht) ((hcalls u).2 ▸ hu)

/-- The task gets another record of the same call. -/
theorem Inv.update (h : Inv s) (hcall : InOrder s.inserted s.removed call)
    (hnum : call.number = (s.tasks t).number) (u : Nat) :
    InOrder s.inserted s.removed (Function.update s.tasks t call u) ∧
      (Function.update s.tasks t call u).number = (s.tasks u).number :=
  forall_update (P := fun u call => InOrder s.inserted s.removed call ∧
    call.number = (s.tasks u).number) (fun u _ => ⟨h.calls u, rfl⟩) ⟨hcall, hnum⟩ u

/-- A call begins; its number is new. -/
theorem Inv.enter (h : Inv s) (t : Nat) (hnum : call.number = some s.next)
    (hcall : InOrder s.inserted s.removed call) :
    Inv { s.setTask t call with next := s.next + 1 } where
  ok := h.ok
  queue := h.queue
  calls := forall_update (fun u _ => h.calls u) hcall
  known x hx := Nat.lt_succ_of_lt (h.known x hx)
  numbered u c := by
    refine forall_update (P := fun _ call => call.number = some c → c < s.next + 1) ?_ ?_ u
    · intro u _ hc
      exact Nat.lt_succ_of_lt (h.numbered u c hc)
    · intro hc
      rw [hnum, Option.some.injEq] at hc
      omega
  distinct u v c hu hv := by
    simp only [State.setTask] at hu hv
    -- an older call has a smaller number
    have hold : ∀ w, w ≠ t → (s.tasks w).number = some s.next → False :=
      fun w _ hw => Nat.lt_irrefl _ (h.numbered w _ hw)
    by_cases hut : u = t <;> by_cases hvt : v = t
    · rw [hut, hvt]
    · rw [hut, update_self, hnum] at hu
      rw [update_of_ne hvt, ← hu] at hv
      exact (hold v hvt hv).elim
    · rw [hvt, update_self, hnum] at hv
      rw [update_of_ne hut, ← hv] at hu
      exact (hold u hut hu).elim
    · rw [update_of_ne hut] at hu
      rw [update_of_ne hvt] at hv
      exact h.distinct u v c hu hv

/-- The call of a task moves bytes: it takes `xs` out of the pipe, or puts `ys` in. -/
theorem Inv.move (h : Inv s) (xs ys : List UInt8) (hok : s'.pipe.Ok)
    (hcontents : s.pipe.contents ++ ys = xs ++ s'.pipe.contents)
    (hins : s'.inserted = s.inserted ++ ys.map (c, ·))
    (hrem : s'.removed = s.removed ++ xs.map (c, ·)) (hnext : s'.next = s.next)
    (htasks : s'.tasks = wakeTask w (Function.update s.tasks t call))
    (hold : (s.tasks t).number = some c) (hnew : call.number = some c)
    (hcall : InOrder s'.inserted s'.removed call) : Inv s' := by
  have hnum : ∀ u, (s'.tasks u).number = (s.tasks u).number := by
    intro u
    rw [htasks, number_wakeTask]
    refine forall_update (P := fun u call => call.number = (s.tasks u).number) ?_ ?_ u
    · exact fun u _ => rfl
    · rw [hnew, hold]
  refine ⟨hok, ?_, ?_, ?_, ?_, ?_⟩
  · rw [hins, hrem]
    simp only [map_append, map_map, comp_def, map_id']
    rw [h.queue, append_assoc, hcontents, append_assoc]
  · intro u
    rw [htasks]
    apply InOrder.wakeTask
    refine forall_update (P := fun _ => InOrder s'.inserted s'.removed) ?_ hcall u
    intro u hu
    rw [hins, hrem]
    refine (h.calls u).append ?_ ys xs
    intro c' hc' he
    exact hu (h.distinct u t c' hc' (he ▸ hold))
  · intro x hx
    have hc : c < s.next := h.numbered t c hold
    rw [hins, hrem] at hx
    rw [hnext]
    simp only [mem_append, mem_map] at hx
    obtain (hx | ⟨b, -, rfl⟩) | (hx | ⟨b, -, rfl⟩) := hx
    · exact h.known x (mem_append_left _ hx)
    · exact hc
    · exact h.known x (mem_append_right _ hx)
    · exact hc
  · intro u c' hc'
    rw [hnext]
    exact h.numbered u c' (hnum u ▸ hc')
  · intro u v c' hu hv
    exact h.distinct u v c' (hnum u ▸ hu) (hnum v ▸ hv)

theorem Inv.readSection (h : Inv s) (ht : s.tasks t = .reading c len got false) :
    Inv (readSection s t c len got) := by
  have hcall : bytesOf c s.removed = got ∧ got.length < len := by
    have := h.calls t
    rwa [ht] at this
  have hnum : (s.tasks t).number = some c := by rw [ht]; rfl
  unfold Pipes.readSection
  split
  · split
    · exact h.still (h.update ⟨hcall.1, hcall.2.le, .inl rfl⟩ (by rw [hnum]; rfl)) rfl rfl rfl rfl
    rename_i hnot
    have hgot : got = [] := by
      rw [← length_eq_zero_iff]
      omega
    split
    · exact h.still
        (h.update ⟨hcall.1, hcall.2.le, .inr ⟨by decide, hgot⟩⟩ (by rw [hnum]; rfl))
        rfl rfl rfl rfl
    · exact h.still (h.update hcall (by rw [hnum]; rfl)) rfl rfl rfl rfl
  obtain ⟨hcat, hlen, hok, -⟩ := popBytes_spec h.ok (len - got.length)
  obtain ⟨r, hr⟩ : ∃ r, r = popBytes (len - got.length) s.pipe := ⟨_, rfl⟩
  rw [← hr] at hcat hlen hok ⊢
  have hbytes : bytesOf c (s.removed ++ r.1.map (c, ·)) = got ++ r.1 := by
    rw [bytesOf_append_self, hcall.1]
  have hle : (got ++ r.1).length ≤ len := by
    rw [length_append]
    omega
  refine h.move r.1 [] ⟨hok.head_lt, hok.tail_lt⟩ ?_ (by simp) rfl rfl rfl hnum ?_ ?_
  · rw [append_nil]
    exact hcat
  · split <;> rfl
  · split
    · exact ⟨hbytes, ‹_›⟩
    · exact ⟨hbytes, hle, .inl rfl⟩

theorem Inv.writeSection (h : Inv s) (ht : s.tasks t = .writing c data done false) :
    Inv (writeSection s t c data done) := by
  have hcall : bytesOf c s.inserted = data.take done ∧ done < data.length := by
    have := h.calls t
    rwa [ht] at this
  have hnum : (s.tasks t).number = some c := by rw [ht]; rfl
  -- both early returns give the bytes written so far, or an error
  have hreturn : ∀ e : Int, e < 0 →
      InOrder s.inserted s.removed (.writeDone c data done (if done > 0 then done else e)) := by
    intro e he
    refine ⟨hcall.1, hcall.2.le, ?_⟩
    split
    · exact .inl rfl
    · exact .inr ⟨he, by omega⟩
  unfold Pipes.writeSection
  split
  · exact h.still (h.update (hreturn _ (by decide)) (by rw [hnum]; rfl)) rfl rfl rfl rfl
  split
  · split
    · exact h.still (h.update (hreturn _ (by decide)) (by rw [hnum]; rfl)) rfl rfl rfl rfl
    · exact h.still (h.update hcall (by rw [hnum]; rfl)) rfl rfl rfl rfl
  obtain ⟨k, hk, hrest, hcontents, hok, -⟩ := pushBytes_spec h.ok (data.drop done)
  obtain ⟨r, hr⟩ : ∃ r, r = pushBytes (data.drop done) s.pipe := ⟨_, rfl⟩
  rw [← hr] at hrest hcontents hok ⊢
  rw [length_drop] at hk
  have hdone : data.length - r.1.length = done + k := by
    rw [hrest, length_drop, length_drop]
    omega
  have hbytes : bytesOf c (s.inserted ++ ((data.drop done).take k).map (c, ·)) =
      data.take (done + k) := by
    rw [bytesOf_append_self, hcall.1, take_add]
  simp only [hdone, Nat.add_sub_cancel_left]
  refine h.move [] ((data.drop done).take k) ⟨hok.head_lt, hok.tail_lt⟩ hcontents.symm rfl
    (by simp) rfl rfl hnum ?_ ?_
  · split <;> rfl
  · split
    · exact ⟨hbytes, ‹_›⟩
    · exact ⟨hbytes, by omega, .inl rfl⟩

theorem Inv.step (h : Inv s) (hstep : Step s l s') : Inv s' := by
  cases hstep with
  | @enterRead t len _ =>
    have hnone : bytesOf s.next s.removed = [] :=
      bytesOf_eq_nil fun x hx => h.known x (mem_append_right _ hx)
    apply h.enter
    · unfold startRead
      split <;> rfl
    unfold startRead
    split
    · exact ⟨hnone, Nat.zero_le _, .inl rfl⟩
    · exact ⟨hnone, by simp only [length_nil]; omega⟩
  | @enterWrite t data _ =>
    have hnone : bytesOf s.next s.inserted = data.take 0 :=
      bytesOf_eq_nil fun x hx => h.known x (mem_append_left _ hx)
    apply h.enter
    · unfold startWrite
      split <;> rfl
    unfold startWrite
    split
    · exact ⟨hnone, Nat.zero_le _, .inl rfl⟩
    · exact ⟨hnone, by omega⟩
  | read ht => exact h.readSection ht
  | write ht => exact h.writeSection ht
  | @close e _ =>
    refine h.still ?_ (by cases e <;> rfl) rfl rfl rfl
    intro t
    exact ⟨((h.calls t).wakeTask _).wakeTask _, by simp [unref]⟩
  | kill => exact h.still (fun t => ⟨h.calls t, rfl⟩) rfl rfl rfl rfl
  | @wake u =>
    exact h.still (fun t => ⟨(h.calls t).wakeTask (some u), number_wakeTask (some u) s.tasks t⟩)
      rfl rfl rfl rfl

theorem inv_of_reachable (h : pipeSystem.Reachable s) : Inv s := by
  refine @System.Reachable.induct _ _ _ Inv ?_ ?_ _ h
  · rintro s ⟨hpipe, htasks, hins, hrem⟩
    refine ⟨by rw [hpipe]; exact ⟨by decide, by decide⟩, ?_, ?_, ?_, ?_, ?_⟩
    · rw [hins, hrem, hpipe]
      rfl
    · intro t
      rw [htasks]
      trivial
    · simp [hins, hrem]
    · simp [htasks, Call.number]
    · simp [htasks, Call.number]
  · intro s l s' _ hs hstep
    exact hs.step hstep

theorem readDone_of_wakeTask {r : Int} (h : wakeTask w tasks t = .readDone c len got r) :
    wakeTask w tasks t = tasks t := by
  obtain he | ⟨-, he⟩ := wakeTask_cases w tasks t
  · exact he
  · cases hc : tasks t <;> simp_all [Call.unblock]

/-- A section changes its own task, and may wake another one. -/
theorem readSection_tasks (s : State) (t c len : Nat) (got : List UInt8) : ∃ call w,
    (readSection s t c len got).tasks = wakeTask w (update s.tasks t call) := by
  unfold readSection
  split
  · split
    · exact ⟨_, none, rfl⟩
    · split
      · exact ⟨_, none, rfl⟩
      · exact ⟨_, none, rfl⟩
  · exact ⟨_, _, rfl⟩

theorem writeSection_tasks (s : State) (t c : Nat) (data : List UInt8) (done : Nat) : ∃ call w,
    (writeSection s t c data done).tasks = wakeTask w (update s.tasks t call) ∧
      ∀ c len got r, call ≠ .readDone c len got r := by
  unfold writeSection
  split
  · exact ⟨_, none, rfl, nofun⟩
  split
  · split
    · exact ⟨_, none, rfl, nofun⟩
    · exact ⟨_, none, rfl, nofun⟩
  · refine ⟨_, _, rfl, ?_⟩
    split <;> nofun

/-- A section of a read that returns 0. -/
theorem eof_of_readSection (h : Inv s) (ht : s.tasks t = .reading c len got false) {len' : Nat}
    {got' : List UInt8} (hdone : (readSection s t c len got).tasks t = .readDone c' len' got' 0) :
    s.pipe.contents = [] ∧ s.pipe.writers = 0 := by
  have hcall : bytesOf c s.removed = got ∧ got.length < len := by
    have := h.calls t
    rwa [ht] at this
  unfold readSection at hdone
  split at hdone
  · rename_i hempty
    refine ⟨h.ok.empty.mp hempty, ?_⟩
    split at hdone
    · simp only [State.setTask, update_self, Call.readDone.injEq] at hdone
      omega
    split at hdone
    · simp only [State.setTask, update_self, Call.readDone.injEq, eintr] at hdone
      omega
    · simp only [update_self] at hdone
      nomatch hdone
  simp only at hdone
  rw [readDone_of_wakeTask hdone, update_self] at hdone
  split at hdone
  · nomatch hdone
  · simp only [Call.readDone.injEq] at hdone
    omega

theorem eof_of_step (h : Inv s) (hstep : Step s l s') (hdone : s'.tasks t = .readDone c len got 0)
    (hnew : s.tasks t ≠ s'.tasks t) (hlen : len ≠ 0) :
    s.pipe.contents = [] ∧ s.pipe.writers = 0 := by
  -- a task that the step does not concern is at most woken
  have hother : ∀ u call w, s'.tasks = wakeTask w (update s.tasks u call) → t = u := by
    intro u call w htasks
    by_contra hu
    rw [htasks] at hdone hnew
    rw [readDone_of_wakeTask hdone, update_of_ne hu] at hnew
    exact hnew rfl
  cases hstep with
  | @enterRead u n _ =>
    have htu : t = u := hother u (startRead s.next n) none rfl
    subst htu
    simp only [State.setTask, update_self, startRead] at hdone
    split at hdone
    · simp only [Call.readDone.injEq] at hdone
      omega
    · nomatch hdone
  | @enterWrite u data _ =>
    have htu : t = u := hother u (startWrite s.next data) none rfl
    subst htu
    simp only [State.setTask, update_self, startWrite] at hdone
    split at hdone <;> nomatch hdone
  | @read u c0 n got0 hu =>
    obtain ⟨call, w, htasks⟩ := readSection_tasks s u c0 n got0
    have htu : t = u := hother u call w htasks
    subst htu
    exact eof_of_readSection h hu hdone
  | @write u c0 done data hu =>
    obtain ⟨call, w, htasks, hcall⟩ := writeSection_tasks s u c0 data done
    have htu : t = u := hother u call w htasks
    subst htu
    rw [htasks] at hdone
    rw [readDone_of_wakeTask hdone, update_self] at hdone
    exact absurd hdone (hcall c len got 0)
  | @close e _ =>
    obtain ⟨r, w, htasks⟩ : ∃ r w, (unref s e).tasks = wakeTask r (wakeTask w s.tasks) :=
      ⟨_, _, rfl⟩
    rw [htasks] at hdone hnew
    have houter := readDone_of_wakeTask hdone
    rw [houter] at hdone hnew
    exact absurd (readDone_of_wakeTask hdone).symm hnew
  | kill => exact absurd rfl hnew
  | @wake u =>
    have he : wakeTask (some u) s.tasks t = s.tasks t := readDone_of_wakeTask hdone
    exact absurd he.symm hnew

/-- **Pipe FIFO**: in every interleaving of the sections the bytes removed are a prefix of the bytes
    inserted, and the bytes of a call keep their order. -/
theorem pipe_fifo {s : State} (h : pipeSystem.Reachable s) : Fifo s where
  queue := by
    rw [(inv_of_reachable h).queue]
    exact prefix_append _ _
  calls := (inv_of_reachable h).calls
  eof l s' hstep t c len got hdone hnew hlen :=
    eof_of_step (inv_of_reachable h) hstep hdone hnew hlen

/-- A pipe that nobody uses yet. -/
def freshState : State := ⟨newPipe, fun _ => .idle, fun _ => false, 0, [], []⟩

/-- Task 0 has written two bytes, and task 1 has read one of them. -/
def halfRead : State :=
  let s₁ := { freshState.setTask 0 (startWrite 0 [7, 8]) with next := 1 }
  let s₂ := writeSection s₁ 0 0 [7, 8] 0
  let s₃ := { s₂.setTask 1 (startRead 1 1) with next := 2 }
  readSection s₃ 1 1 1 []

theorem reachable_freshState : pipeSystem.Reachable freshState :=
  .init ⟨rfl, fun _ => rfl, rfl, rfl⟩

theorem Step.reachable (hstep : Step s l s') (h : pipeSystem.Reachable s) :
    pipeSystem.Reachable s' := .step l h hstep

theorem half_read_fifo : Fifo halfRead ∧ halfRead.removed = [(1, 7)] ∧
    halfRead.inserted = [(0, 7), (0, 8)] := by
  refine ⟨pipe_fifo ?_, rfl, rfl⟩
  have h1 := Step.reachable (l := .enterWrite 0 [7, 8]) (.enterWrite rfl) reachable_freshState
  have h2 := Step.reachable (l := .run 0) (.write rfl) h1
  have h3 := Step.reachable (l := .enterRead 1 1) (.enterRead rfl) h2
  exact Step.reachable (.read rfl) h3

/-! ## Section 7: The waiters -/

/-- The task is blocked in a call on this end. -/
def Call.waits : End → Call → Bool
  | .read, .reading _ _ _ blocked => blocked
  | .write, .writing _ _ _ blocked => blocked
  | _, _ => false

def Pipe.waiter (p : Pipe) : End → Option Nat
  | .read => p.readWaiter
  | .write => p.writeWaiter

def End.other : End → End
  | .read => .write
  | .write => .read

/-- A task that is blocked in the pipe is in the slot for its end. -/
def Recorded (s : State) : Prop :=
  ∀ e t, (s.tasks t).waits e = true → s.pipe.waiter e = some t

/-- A step that lets blocked tasks go on leaves none of them blocked. -/
structure Unblocks (s s' : State) : Prop where
  inserted : s'.inserted ≠ s.inserted → ∀ t, (s'.tasks t).waits .read = false
  removed  : s'.removed ≠ s.removed → ∀ t, (s'.tasks t).waits .write = false
  closed   : ∀ e, s.pipe.refs e ≠ 0 → s'.pipe.refs e = 0 → ∀ t, (s'.tasks t).waits e.other = false

/-- The next section of the task leaves it blocked. -/
def Blocks (s : State) (t : Nat) : End → Prop
  | .read => (∃ c len, s.tasks t = .reading c len [] false) ∧ s.pipe.head = s.pipe.tail ∧
      s.pipe.writers ≠ 0 ∧ s.killed t = false
  | .write => (∃ c data done, s.tasks t = .writing c data done false) ∧ s.pipe.readers ≠ 0 ∧
      (s.pipe.tail + 1) % bufSize = s.pipe.head ∧ s.killed t = false

/-- A task blocks only while no other task is blocked on its end. -/
def Alone (s : State) : Label → Prop
  | .run t => ∀ e, Blocks s t e → ∀ u, (s.tasks u).waits e = false
  | _ => True

/-- The step wakes the task in the slot, and blocks no other. -/
def Wakes (s s' : State) (e : End) : Prop :=
  ∀ t, (s'.tasks t).waits e = true → (s.tasks t).waits e = true ∧ s.pipe.waiter e ≠ some t

/-- What a step does on one end: it keeps the slot, it wakes the task in the slot, or a task takes
    the slot and blocks. -/
inductive Effect (s s' : State) (e : End) : Label → Prop where
  | keeps {l : Label} (slot : s'.pipe.waiter e = s.pipe.waiter e)
      (tasks : ∀ t, (s'.tasks t).waits e = true → (s.tasks t).waits e = true) : Effect s s' e l
  | wakes {l : Label} (tasks : Wakes s s' e) : Effect s s' e l
  | blocks {t : Nat} (blocks : Blocks s t e) (slot : s'.pipe.waiter e = some t)
      (tasks : ∀ u, u ≠ t → (s'.tasks u).waits e = true → (s.tasks u).waits e = true) :
      Effect s s' e (.run t)

theorem waits_wakeTask (h : (wakeTask w tasks t).waits e = true) :
    (tasks t).waits e = true ∧ w ≠ some t := by
  cases w with
  | none => exact ⟨h, nofun⟩
  | some u =>
    by_cases hu : t = u
    · subst hu
      simp only [wakeTask, update_self] at h
      cases e <;> cases hc : tasks t <;> simp [hc, Call.unblock, Call.waits] at h
    · rw [wakeTask, update_of_ne hu] at h
      exact ⟨h, fun he => hu (Option.some.inj he).symm⟩

theorem waits_update (hcall : call.waits e = false) {u : Nat}
    (h : (update tasks t call u).waits e = true) : (tasks u).waits e = true := by
  by_cases hu : u = t
  · rw [hu, update_self, hcall] at h
    nomatch h
  · rwa [update_of_ne hu] at h

/-- A section that leaves its task unblocked wakes at most the task of the other end. -/
theorem Effect.of_keeps (hcall : call.waits e = false)
    (hslot : s'.pipe.waiter e = s.pipe.waiter e)
    (htasks : s'.tasks = wakeTask w (update s.tasks t call)) : Effect s s' e l := by
  refine .keeps hslot ?_
  intro u hu
  rw [htasks] at hu
  exact waits_update hcall (waits_wakeTask hu).1

theorem wakes_of_tasks (htasks : s'.tasks = wakeTask w (update s.tasks t call))
    (hcall : call.waits e = false) (hw : w = s.pipe.waiter e) : Wakes s s' e := by
  intro u hu
  rw [htasks] at hu
  obtain ⟨hwaits, hne⟩ := waits_wakeTask hu
  exact ⟨waits_update hcall hwaits, hw ▸ hne⟩

theorem Effect.of_blocks (hblocks : Blocks s t e)
    (htasks : s'.tasks = update s.tasks t call) (hslot : s'.pipe.waiter e = some t) :
    Effect s s' e (.run t) := by
  refine .blocks hblocks hslot ?_
  intro u hu hwaits
  rwa [htasks, update_of_ne hu] at hwaits

theorem readSection_effect (h : Inv s) (ht : s.tasks t = .reading c len got false) (e : End) :
    Effect s (readSection s t c len got) e (.run t) := by
  have hdone : ∀ r, (Call.readDone c len got r).waits e = false := by
    cases e <;> exact fun _ => rfl
  unfold readSection
  split
  · rename_i hempty
    split
    · exact .of_keeps (w := none) (hdone _) rfl rfl
    split
    · exact .of_keeps (w := none) (hdone _) rfl rfl
    rename_i hkilled
    have hgot : got = [] := by
      rw [← length_eq_zero_iff]
      omega
    cases e with
    | read =>
      exact .of_blocks ⟨⟨c, len, hgot ▸ ht⟩, hempty, by omega, by simpa using hkilled⟩ rfl rfl
    | write => exact .of_keeps (w := none) rfl rfl rfl
  obtain ⟨-, -, -, hsame⟩ := popBytes_spec h.ok (len - got.length)
  cases e with
  | read => exact .of_keeps (by split <;> rfl) hsame.readWaiter rfl
  | write => exact .wakes (wakes_of_tasks rfl (by split <;> rfl) hsame.writeWaiter)

theorem writeSection_effect (h : Inv s) (ht : s.tasks t = .writing c data done false) (e : End) :
    Effect s (writeSection s t c data done) e (.run t) := by
  have hdone : ∀ r, (Call.writeDone c data done r).waits e = false := by
    cases e <;> exact fun _ => rfl
  unfold writeSection
  split
  · exact .of_keeps (w := none) (hdone _) rfl rfl
  rename_i hopen
  split
  · rename_i hfull
    split
    · exact .of_keeps (w := none) (hdone _) rfl rfl
    rename_i hkilled
    cases e with
    | read => exact .of_keeps (w := none) rfl rfl rfl
    | write => exact .of_blocks ⟨⟨c, data, done, ht⟩, hopen, hfull, by simpa using hkilled⟩ rfl rfl
  obtain ⟨_, -, -, -, -, hsame⟩ := pushBytes_spec h.ok (data.drop done)
  cases e with
  | read => exact .wakes (wakes_of_tasks rfl (by split <;> rfl) hsame.readWaiter)
  | write => exact .of_keeps (by split <;> rfl) hsame.writeWaiter rfl

/-- Closing the last end of one kind wakes the task of the other. -/
theorem unref_wakes {e0 : End} (h : (s.pipe.drop e0).refs e = 0) :
    Wakes s (unref s e0) e.other := by
  intro t ht
  obtain ⟨hmid, hreader⟩ := waits_wakeTask ht
  obtain ⟨hold, hwriter⟩ := waits_wakeTask hmid
  refine ⟨hold, ?_⟩
  cases e with
  | read =>
    rw [if_pos (by exact h)] at hwriter
    cases e0 <;> exact hwriter
  | write =>
    rw [if_pos (by exact h)] at hreader
    cases e0 <;> exact hreader

theorem unref_effect (s : State) (e0 e : End) : Effect s (unref s e0) e.other (.close e0) := by
  by_cases h : (s.pipe.drop e0).refs e = 0
  · exact .wakes (unref_wakes h)
  refine .keeps ?_ fun t ht => (waits_wakeTask (waits_wakeTask ht).1).1
  cases e with
  | read =>
    show (if (s.pipe.drop e0).readers = 0 then none else (s.pipe.drop e0).writeWaiter) = _
    rw [if_neg (by exact h)]
    cases e0 <;> rfl
  | write =>
    show (if (s.pipe.drop e0).writers = 0 then none else (s.pipe.drop e0).readWaiter) = _
    rw [if_neg (by exact h)]
    cases e0 <;> rfl

theorem step_effect (h : Inv s) (hstep : Step s l s') (e : End) : Effect s s' e l := by
  cases hstep with
  | enterRead _ =>
    refine .of_keeps (w := none) ?_ rfl rfl
    unfold startRead
    split <;> cases e <;> rfl
  | enterWrite _ =>
    refine .of_keeps (w := none) ?_ rfl rfl
    unfold startWrite
    split <;> cases e <;> rfl
  | read ht => exact readSection_effect h ht e
  | write ht => exact writeSection_effect h ht e
  | @close e0 _ =>
    cases e with
    | read => exact unref_effect s e0 .write
    | write => exact unref_effect s e0 .read
  | kill => exact .keeps rfl fun _ ht => ht
  | @wake u => exact .keeps rfl fun t (ht : (wakeTask (some u) s.tasks t).waits e = true) =>
      (waits_wakeTask ht).1

/-- A step that makes progress possible wakes the task that waits for it. -/
theorem step_wakes (h : Inv s) (hstep : Step s l s') :
    (s'.inserted = s.inserted ∨ Wakes s s' .read) ∧ (s'.removed = s.removed ∨ Wakes s s' .write) ∧
      ∀ e, s'.pipe.refs e = s.pipe.refs e ∨ s'.pipe.refs e ≠ 0 ∨ Wakes s s' e.other := by
  cases hstep with
  | enterRead _ => exact ⟨.inl rfl, .inl rfl, fun _ => .inl rfl⟩
  | enterWrite _ => exact ⟨.inl rfl, .inl rfl, fun _ => .inl rfl⟩
  | @read t c len got ht =>
    unfold readSection
    split
    · split
      · exact ⟨.inl rfl, .inl rfl, fun _ => .inl rfl⟩
      · split
        · exact ⟨.inl rfl, .inl rfl, fun _ => .inl rfl⟩
        · exact ⟨.inl rfl, .inl rfl, fun e => .inl (by cases e <;> rfl)⟩
    · obtain ⟨-, -, -, hsame⟩ := popBytes_spec h.ok (len - got.length)
      exact ⟨.inl rfl, .inr (wakes_of_tasks rfl (by split <;> rfl) hsame.writeWaiter),
        fun e => .inl (hsame.refs e)⟩
  | @write t c done data ht =>
    unfold writeSection
    split
    · exact ⟨.inl rfl, .inl rfl, fun _ => .inl rfl⟩
    split
    · split
      · exact ⟨.inl rfl, .inl rfl, fun _ => .inl rfl⟩
      · exact ⟨.inl rfl, .inl rfl, fun e => .inl (by cases e <;> rfl)⟩
    · obtain ⟨_, -, -, -, -, hsame⟩ := pushBytes_spec h.ok (data.drop done)
      exact ⟨.inr (wakes_of_tasks rfl (by split <;> rfl) hsame.readWaiter), .inl rfl,
        fun e => .inl (hsame.refs e)⟩
  | @close e0 _ =>
    refine ⟨.inl rfl, .inl rfl, fun e => .inr ?_⟩
    by_cases hlast : (s.pipe.drop e0).refs e = 0
    · exact .inr (unref_wakes hlast)
    · exact .inl (by cases e <;> exact hlast)
  | kill => exact ⟨.inl rfl, .inl rfl, fun _ => .inl rfl⟩
  | wake => exact ⟨.inl rfl, .inl rfl, fun _ => .inl rfl⟩

theorem Recorded.wakes (h : Recorded s) (hwakes : Wakes s s' e) (t : Nat) :
    (s'.tasks t).waits e = false := by
  by_contra hne
  obtain ⟨hold, hother⟩ := hwakes t (by simpa using hne)
  exact hother (h e t hold)

theorem Recorded.step (h : Recorded s) (hinv : Inv s) (halone : Alone s l) (hstep : Step s l s') :
    Recorded s' := by
  intro e t ht
  cases step_effect hinv hstep e with
  | keeps hslot htasks =>
    rw [hslot]
    exact h e t (htasks t ht)
  | wakes hwakes =>
    rw [h.wakes hwakes t] at ht
    nomatch ht
  | @blocks u hblocks hslot htasks =>
    -- nobody else is blocked on this end, so the task is the one that blocks now
    by_cases htu : t = u
    · rw [hslot, htu]
    · have hold := htasks t htu ht
      rw [halone e hblocks t] at hold
      nomatch hold

/-- **No lost waiter**, where a task blocks only while no other task is blocked on its end: a
    blocked task is in the slot of its end, and the next step that lets it go on unblocks it. -/
theorem blocked_task_recorded {s : State} (h : (pipeSystem.restrict Alone).Reachable s) :
    Recorded s ∧ ∀ l s', Step s l s' → Unblocks s s' := by
  have hrec : Recorded s := by
    refine @System.Reachable.induct _ _ _ Recorded ?_ ?_ _ h
    · rintro s ⟨-, htasks, -, -⟩ e t ht
      rw [htasks] at ht
      cases e <;> nomatch ht
    · intro s l s' hr hs hstep
      exact hs.step (inv_of_reachable hr.of_restrict) hstep.1 hstep.2
  refine ⟨hrec, fun l s' hstep => ?_⟩
  obtain ⟨hins, hrem, hrefs⟩ := step_wakes (inv_of_reachable h.of_restrict) hstep
  refine ⟨fun hne => ?_, fun hne => ?_, fun e hopen hclosed => ?_⟩
  · exact hrec.wakes (hins.resolve_left hne)
  · exact hrec.wakes (hrem.resolve_left hne)
  obtain hsame | hopen' | hwakes := hrefs e
  · exact absurd (hsame ▸ hclosed) hopen
  · exact absurd hclosed hopen'
  · exact hrec.wakes hwakes

/-- Task 0 waits for a byte. -/
def oneReader : State :=
  readSection { freshState.setTask 0 (startRead 0 1) with next := 1 } 0 0 1 []

theorem one_reader_recorded : Recorded oneReader ∧ oneReader.pipe.waiter .read = some 0 := by
  refine ⟨(blocked_task_recorded ?_).1, rfl⟩
  refine .step (.run 0) (.step (.enterRead 0 1) (.init ⟨rfl, fun _ => rfl, rfl, rfl⟩)
    ⟨trivial, .enterRead rfl⟩) ⟨?_, .read rfl⟩
  intro e _ u
  by_cases hu : u = 0
  · subst hu
    cases e <;> rfl
  · simp only [State.setTask, update_of_ne hu]
    cases e <;> rfl

/-- A second reader blocks and takes the slot: task 0 is blocked, and the slot names task 1. -/
def twoReaders : State :=
  readSection { oneReader.setTask 1 (startRead 1 1) with next := 2 } 1 1 1 []

theorem second_reader_displaces_first : pipeSystem.Reachable twoReaders ∧
    (twoReaders.tasks 0).waits .read = true ∧ twoReaders.pipe.waiter .read = some 1 ∧
      ¬ Recorded twoReaders := by
  refine ⟨?_, rfl, rfl, fun h => nomatch h .read 0 rfl⟩
  have h1 := Step.reachable (l := .enterRead 0 1) (.enterRead rfl) reachable_freshState
  have h2 := Step.reachable (l := .run 0) (.read rfl) h1
  have h3 := Step.reachable (l := .enterRead 1 1) (.enterRead rfl) h2
  exact Step.reachable (.read rfl) h3

end Cervus.Pipes
