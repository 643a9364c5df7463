import Cervus.Framework.System

/-! # Tasks

    The model of the life of a task in `sched/sched.c`, `syscall/process/wait.c`,
    `syscall/process/exit.c` and the part of `syscall/process/execve.c` that changes
    pagemaps. A task and a pagemap are named by their addresses; a task that has been
    destroyed has no entry any more, since its memory is given back, and the address can
    be used again. Stacks, registers, descriptors and signals are left out.

    What the environment decides is an argument: the memory that `calloc` and
    `vmm_clone_pagemap` return, and the task that the ready queues yield. -/

namespace Cervus.Sched

/-! ## Section 1: State -/

/-- The address of a `task_t`. -/
abbrev TaskId := Nat

/-- The address of a `vmm_pagemap_t`. -/
abbrev Pagemap := Nat

/-- `task_state_t` -/
inductive TaskState where
  | ready
  | running
  | blocked
  | zombie
  | dead
  deriving DecidableEq, Repr

/-- The fields of `task_t` in use. The list of children is linked through `sibling` in the
    source. `wait_for_pid` is 0 when the task waits for nobody. -/
structure Task where
  pid        : Nat
  ppid       : Nat
  parent     : Option TaskId := none
  children   : List TaskId := []
  state      : TaskState := .ready
  runnable   : Bool := true
  onCpu      : Bool := false
  waitForPid : Nat := 0
  pagemap    : Option Pagemap := none
  /-- `TASK_FLAG_FORK` -/
  isFork     : Bool := false
  /-- `TASK_FLAG_OWN_PAGEMAP` -/
  ownPagemap : Bool := false
  deriving DecidableEq

def maxPids : Nat := 4096

/-- Tasks, the table of pids, the task of each CPU (`none` is its idle task), the task it
    has to destroy, and the pagemaps that are made and not released. -/
structure SchedState where
  tasks    : TaskId → Option Task
  pidTable : Nat → Option TaskId
  nextPid  : Nat
  current  : Nat → Option TaskId
  deferred : Nat → Option TaskId
  live     : Pagemap → Bool

/-- The state that `sched_init` leaves. -/
def schedInit : SchedState where
  tasks _ := none
  pidTable _ := none
  nextPid := 1
  current _ := none
  deferred _ := none
  live _ := false

namespace SchedState

/-- A new task, or new contents for one. -/
def setTask (s : SchedState) (t : TaskId) (task : Task) : SchedState :=
  { s with tasks := Function.update s.tasks t (some task) }

/-- Some fields of a task are written. -/
def modify (s : SchedState) (t : TaskId) (f : Task → Task) : SchedState :=
  { s with tasks := Function.update s.tasks t ((s.tasks t).map f) }

/-- The memory of a task is given back. -/
def freeTask (s : SchedState) (t : TaskId) : SchedState :=
  { s with tasks := Function.update s.tasks t none }

/-- A pagemap is made. -/
def makePagemap (s : SchedState) (map : Pagemap) : SchedState :=
  { s with live := Function.update s.live map true }

def vmmFreePagemap (s : SchedState) (map : Pagemap) : SchedState :=
  { s with live := Function.update s.live map false }

end SchedState

/-! ## Section 2: Creation -/

/-- The loop of `task_alloc_pid`. -/
def findPid (table : Nat → Option TaskId) : Nat → Nat → Nat × Nat
  | 0, next => (0, next)
  | attempts + 1, next =>
    let i := if next = 0 ∨ maxPids ≤ next then 1 else next
    let next := if maxPids ≤ i + 1 then 1 else i + 1
    if (table i).isNone then (i, next) else findPid table attempts next

/-- `task_alloc_pid`; 0 when all pids are taken. -/
def taskAllocPid (s : SchedState) : Nat × SchedState :=
  let r := findPid s.pidTable (maxPids - 1) s.nextPid
  (r.1, { s with nextPid := r.2 })

def pidRegister (s : SchedState) (pid : Nat) (t : TaskId) : SchedState :=
  if pid ≠ 0 ∧ pid < maxPids then
    { s with pidTable := Function.update s.pidTable pid (some t) }
  else s

def pidUnregister (s : SchedState) (pid : Nat) : SchedState :=
  if pid ≠ 0 ∧ pid < maxPids then { s with pidTable := Function.update s.pidTable pid none }
  else s

def taskFindByPid (s : SchedState) (pid : Nat) : Option TaskId :=
  if pid = 0 ∨ maxPids ≤ pid then none else s.pidTable pid

/-- `task_create_ex`: a task of the kernel, without a parent and a pagemap. `stack` tells
    whether `alloc_and_init_stack` succeeds. -/
def taskCreate (s : SchedState) (mem : Option TaskId) (stack : Bool) : Option TaskId × SchedState :=
  match mem with
  | none => (none, s)
  | some t =>
    let (pid, s) := taskAllocPid s
    if pid = 0 then (none, s)
    else if !stack then (none, s)
    else (some t, pidRegister (s.setTask t { pid := pid, ppid := 0 }) pid t)

/-- `task_create_user`: a task that owns the pagemap it is given. -/
def taskCreateUser (s : SchedState) (mem : Option TaskId) (stack : Bool) (map : Pagemap) :
    Option TaskId × SchedState :=
  match mem with
  | none => (none, s)
  | some t =>
    let (pid, s) := taskAllocPid s
    if pid = 0 then (none, s)
    else if !stack then (none, s)
    else
      let task : Task := { pid := pid, ppid := 0, pagemap := some map, ownPagemap := true }
      (some t, pidRegister (s.setTask t task) pid t)

/-- The first user task, as `kernel.c` starts it with the pagemap of a loaded file:
    `elf_unload` releases the pagemap when there is no task. -/
def startUser (s : SchedState) (mem : Option TaskId) (stack : Bool) (map : Pagemap) : SchedState :=
  match taskCreateUser (s.makePagemap map) mem stack map with
  | (none, s) => s.vmmFreePagemap map
  | (some _, s) => s

/-- A new task becomes the first child. -/
def addChild (s : SchedState) (parent t : TaskId) : SchedState :=
  s.modify parent fun p => { p with children := t :: p.children }

/-- `task_spawn_thread`: the new task has the pagemap of its parent, and neither flag. -/
def taskSpawnThread (s : SchedState) (parent : TaskId) (mem : Option TaskId) (stack : Bool) :
    Option TaskId × SchedState :=
  match s.tasks parent with
  | none => (none, s)
  | some p => match p.pagemap, mem with
    | none, _ => (none, s)
    | some _, none => (none, s)
    | some map, some t =>
      let (pid, s) := taskAllocPid s
      if pid = 0 then (none, s)
      else if !stack then (none, s)
      else
        let task : Task :=
          { pid := pid, ppid := p.pid, parent := some parent, pagemap := some map }
        (some t, pidRegister (addChild (s.setTask t task) parent t) pid t)

/-- `task_fork`. `clone` is what `vmm_clone_pagemap` returns; of a `NULL` pagemap there is
    no clone. -/
def taskFork (s : SchedState) (parent : TaskId) (mem : Option TaskId) (clone : Option Pagemap)
    (stack : Bool) : Option TaskId × SchedState :=
  match s.tasks parent, mem with
  | none, _ => (none, s)
  | some _, none => (none, s)
  | some p, some t =>
    let (pid, s) := taskAllocPid s
    if pid = 0 then (none, s)
    else match p.pagemap, clone with
      | none, _ => (none, s)
      | some _, none => (none, s)
      | some _, some map =>
        let s := s.makePagemap map
        if !stack then (none, s.vmmFreePagemap map)
        else
          let task : Task :=
            { pid, ppid := p.pid, parent := some parent, pagemap := some map, isFork := true }
          (some t, pidRegister (addChild (s.setTask t task) parent t) pid t)

/-! ## Section 3: Exit and destruction -/

/-- The task releases its pagemap when it goes. -/
def Task.owns (task : Task) : Bool := task.isFork || task.ownPagemap

/-- The test of `task_destroy` and `execve` before `vmm_free_pagemap`. -/
def releaseOwn (s : SchedState) (task : Task) : SchedState :=
  match task.pagemap with
  | none => s
  | some map => if task.owns then s.vmmFreePagemap map else s

/-- `task_destroy`. A second call finds `TASK_FLAG_DESTROYED` set, and does nothing. -/
def taskDestroy (s : SchedState) (t : TaskId) : SchedState :=
  match s.tasks t with
  | none => s
  | some task => (releaseOwn (pidUnregister s task.pid) task).freeTask t

def taskReparent (s : SchedState) (child newParent : TaskId) : SchedState :=
  match s.tasks newParent with
  | none => s
  | some p =>
    addChild (s.modify child fun c => { c with parent := some newParent, ppid := p.pid })
      newParent child

/-- The tasks that `task_wakeup_waiters` finds: at most 64. -/
def waiters (s : SchedState) (pid : Nat) : List TaskId :=
  let registered := ((List.range maxPids).drop 1).filterMap s.pidTable
  let waits (t : TaskId) : Bool := match s.tasks t with
    | none => false
    | some task => task.state = .blocked && (task.waitForPid = pid || task.waitForPid = 2 ^ 32 - 1)
  (registered.filter waits).take 64

def taskWakeupWaiters (s : SchedState) (pid : Nat) : SchedState :=
  (waiters s pid).foldl (fun s t =>
    s.modify t fun task => { task with waitForPid := 0, runnable := true, state := .ready }) s

/-- The children of a task go to `init`, if there is one and it is another task. -/
def orphanChildren (s : SchedState) (me : TaskId) (children : List TaskId) : SchedState :=
  match taskFindByPid s 1 with
  | none => s
  | some init =>
    if init = me then s
    else children.foldl (fun s child => taskReparent s child init)
      (s.modify me fun t => { t with children := [] })

/-- `task_exit`, up to the switch to another task. -/
def taskExit (s : SchedState) (me : TaskId) : SchedState :=
  match s.tasks me with
  | none => s
  | some task =>
    let s := orphanChildren s me task.children
    let s := s.modify me fun t => { t with runnable := false, state := .zombie }
    taskWakeupWaiters s task.pid

/-- The part of `execve` that gives the task its new pagemap. -/
def execve (s : SchedState) (me : TaskId) (map : Pagemap) : SchedState :=
  match s.tasks me with
  | none => s
  | some task =>
    let s := (s.makePagemap map).modify me fun t =>
      { t with pagemap := some map, ownPagemap := true, isFork := false }
    releaseOwn s task

/-! ## Section 4: Waiting -/

/-- The loop of `sys_wait` over the children: the zombie it stops at, and whether it has
    seen one that is still on a CPU. -/
def findZombie (s : SchedState) (pidArg : BitVec 64) : List TaskId → Option TaskId × Bool
  | [] => (none, false)
  | child :: rest => match s.tasks child with
    | none => findZombie s pidArg rest
    | some c =>
      let isMatch := pidArg = BitVec.allOnes 64 || c.pid = (pidArg.setWidth 32).toNat
      if isMatch && c.state = .zombie then
        if c.onCpu then ((findZombie s pidArg rest).1, true)
        else (some child, false)
      else findZombie s pidArg rest

/-- What one round of `sys_wait` comes to. -/
inductive WaitResult where
  | esrch
  | efault
  | nohang
  | retry
  | blocked
  | reaped (pid : Nat)
  deriving DecidableEq, Repr

/-- The child that `sys_wait` takes out of the list and destroys. `copied` tells whether
    the status can be stored, if the caller wants it. -/
def reaped (s : SchedState) (me : TaskId) (pidArg : BitVec 64) (copied : Bool) : Option TaskId :=
  match s.tasks me with
  | none => none
  | some p => if copied then (findZombie s pidArg p.children).1 else none

/-- The child leaves the list of its parent. -/
def unlinkChild (s : SchedState) (me z : TaskId) : SchedState :=
  (s.modify me fun p => { p with children := p.children.erase z }).modify z fun c =>
    { c with parent := none }

/-- One round of `sys_wait`. A caller that blocks tries again when it is woken. -/
def sysWait (s : SchedState) (me : TaskId) (pidArg : BitVec 64) (wnohang copied : Bool) :
    WaitResult × SchedState :=
  match s.tasks me with
  | none => (.esrch, s)
  | some p => match findZombie s pidArg p.children with
    | (some z, _) =>
      if !copied then (.efault, s)
      else
        let zpid := ((s.tasks z).map Task.pid).getD 0
        (.reaped zpid, taskDestroy (unlinkChild s me z) z)
    | (none, true) => (.retry, s)
    | (none, false) =>
      if wnohang then (.nohang, s)
      else
        let waitFor := if pidArg = BitVec.allOnes 64 then 2 ^ 32 - 1 else (pidArg.setWidth 32).toNat
        (.blocked, s.modify me fun t =>
          { t with waitForPid := waitFor, runnable := false, state := .blocked })

/-! ## Section 5: Switching -/

def processDeferredFree (s : SchedState) (cpu : Nat) : SchedState :=
  match s.deferred cpu with
  | none => s
  | some dead =>
    taskDestroy { s with deferred := Function.update s.deferred cpu none } dead

/-- What `sched_reschedule` does with the task that leaves the CPU: a zombie without a
    parent is to be destroyed, and a task that can run is ready. -/
def retire (s : SchedState) (cpu : Nat) (old : TaskId) : SchedState :=
  match s.tasks old with
  | none => s
  | some task =>
    if task.state = .zombie then
      if task.parent = none then { s with deferred := Function.update s.deferred cpu (some old) }
      else s
    else if task.runnable && task.state ≠ .dead then
      s.modify old fun t => { t with state := .ready }
    else s

/-- A change to a task, or to none when it is the idle task. -/
def onSome (s : SchedState) (t : Option TaskId) (f : SchedState → TaskId → SchedState) :
    SchedState :=
  match t with
  | none => s
  | some t => f s t

/-- The CPU takes a task up, and the other one leaves it. -/
def enterCpu (s : SchedState) (t : TaskId) : SchedState :=
  s.modify t fun task => { task with state := .running, onCpu := true }

@[inherit_doc enterCpu] def leaveCpu (s : SchedState) (t : TaskId) : SchedState :=
  s.modify t fun task => { task with onCpu := false }

/-- `sched_reschedule` and `context_switch` to the task that `sched_pick_next` returns;
    `none` is the idle task. -/
def schedReschedule (s : SchedState) (cpu : Nat) (next : Option TaskId) : SchedState :=
  let s := processDeferredFree s cpu
  let old := s.current cpu
  if old = next then s
  else
    let s := onSome s old fun s t => retire s cpu t
    let s := onSome s next enterCpu
    let s := { s with current := Function.update s.current cpu next }
    onSome s old leaveCpu

/-! ## Section 6: Runs -/

/-- A step of the kernel, with what the environment decides. Calls are made by the task
    that runs on a CPU. -/
inductive Call where
  | create (mem : Option TaskId) (stack : Bool)
  | createUser (mem : Option TaskId) (stack : Bool) (map : Pagemap)
  | spawnThread (cpu : Nat) (mem : Option TaskId) (stack : Bool)
  | fork (cpu : Nat) (mem : Option TaskId) (clone : Option Pagemap) (stack : Bool)
  | execve (cpu : Nat) (map : Pagemap)
  | exit (cpu : Nat)
  | wait (cpu : Nat) (pidArg : BitVec 64) (wnohang copied : Bool)
  | deferredFree (cpu : Nat)
  | reschedule (cpu : Nat) (next : Option TaskId)

/-- A task is on the CPU and runs. -/
def Runs (s : SchedState) (cpu : Nat) : Prop :=
  ∃ t ∈ s.current cpu, ∃ task ∈ s.tasks t, task.state = .running

instance (s : SchedState) (cpu : Nat) : Decidable (Runs s cpu) :=
  inferInstanceAs (Decidable (∃ t ∈ s.current cpu, ∃ task ∈ s.tasks t, task.state = .running))

/-- `calloc` returns memory that no task has. -/
def FreshTask (s : SchedState) (mem : Option TaskId) : Prop := ∀ t ∈ mem, s.tasks t = none

instance (s : SchedState) (mem : Option TaskId) : Decidable (FreshTask s mem) :=
  inferInstanceAs (Decidable (∀ t ∈ mem, s.tasks t = none))

/-- A new pagemap is none of those that are there. -/
def FreshMap (s : SchedState) (clone : Option Pagemap) : Prop := ∀ map ∈ clone, s.live map = false

instance (s : SchedState) (clone : Option Pagemap) : Decidable (FreshMap s clone) :=
  inferInstanceAs (Decidable (∀ map ∈ clone, s.live map = false))

/-- `sched_pick_next` can return the task. -/
def CanRun (s : SchedState) (t : TaskId) : Prop :=
  ∃ task ∈ s.tasks t, task.runnable = true ∧ task.state ≠ .zombie ∧ task.state ≠ .dead ∧
    task.onCpu = false

instance (s : SchedState) (t : TaskId) : Decidable (CanRun s t) :=
  inferInstanceAs (Decidable (∃ task ∈ s.tasks t, _))

/-- When a step can be taken. -/
def Enabled (s : SchedState) : Call → Prop
  | .create mem _ => FreshTask s mem
  | .createUser mem _ map => FreshTask s mem ∧ FreshMap s (some map)
  | .spawnThread cpu mem _ => Runs s cpu ∧ FreshTask s mem
  | .fork cpu mem clone _ => Runs s cpu ∧ FreshTask s mem ∧ FreshMap s clone
  | .execve cpu map => Runs s cpu ∧ FreshMap s (some map)
  | .exit cpu => Runs s cpu
  | .wait cpu _ _ _ => Runs s cpu
  | .deferredFree _ => True
  | .reschedule _ next => ∀ t ∈ next, CanRun s t

instance (s : SchedState) (c : Call) : Decidable (Enabled s c) := by
  cases c <;> unfold Enabled <;> infer_instance

/-- The step, taken by the task of the CPU. -/
def onTask (s : SchedState) (cpu : Nat) (f : TaskId → SchedState) : SchedState :=
  match s.current cpu with
  | none => s
  | some t => f t

@[inherit_doc onTask]
def perform (s : SchedState) : Call → SchedState
  | .create mem stack => (taskCreate s mem stack).2
  | .createUser mem stack map => startUser s mem stack map
  | .spawnThread cpu mem stack => onTask s cpu fun t => (taskSpawnThread s t mem stack).2
  | .fork cpu mem clone stack => onTask s cpu fun t => (taskFork s t mem clone stack).2
  | .execve cpu map => onTask s cpu fun t => Sched.execve s t map
  | .exit cpu => onTask s cpu fun t => taskExit s t
  | .wait cpu pidArg wnohang copied => onTask s cpu fun t => (sysWait s t pidArg wnohang copied).2
  | .deferredFree cpu => processDeferredFree s cpu
  | .reschedule cpu next => schedReschedule s cpu next

/-- The kernel from `sched_init` on. -/
def taskSystem : System SchedState Call where
  init s := s = schedInit
  step s c s' := Enabled s c ∧ s' = perform s c

end Cervus.Sched
