import Cervus.Framework.System

/-! # Signals of one task

    The model of `signal/signal.c` with the way back to user mode in `syscall_asm.asm`:
    the masks of a task, the delivery of a signal to a handler, and `rt_sigreturn`, which
    reads the registers and the mask back from user memory. What user memory holds is an
    argument, and so is whether a user pointer is valid (`none` or `false` if it is not).

    Waking a blocked task, process groups and the permission to send are left out. -/

namespace Cervus.Signals

/-! ## Section 1: State -/

abbrev Word := BitVec 64

def nsig : Nat := 32

def sigKill : Nat := 9

def sigStop : Nat := 19

/-- `1ULL << sig` -/
def bit (sig : Nat) : Word := BitVec.twoPow 64 sig

/-- `sig_ucontext_t`; `regs` are rbx, rbp and r12 to r15. -/
structure UContext where
  rip    : Word
  rsp    : Word
  rflags : Word
  rax    : Word
  regs   : Fin 6 → Word
  mask   : Word

/-- `struct k_sigaction` -/
structure KSigaction where
  handler  : Word
  flags    : Word
  restorer : Word
  mask     : Word

/-- The fields of `task_t` in use. -/
structure SigTask where
  sigPending  : Word := 0
  sigBlocked  : Word := 0
  sigHandler  : Nat → Word := fun _ => 0
  sigFlags    : Nat → Word := fun _ => 0
  sigRestorer : Nat → Word := fun _ => 0
  sigMask     : Nat → Word := fun _ => 0
  pendingKill : Bool := false
  userRip     : Word := 0
  userRsp     : Word := 0
  userR11     : Word := 0
  regs        : Fin 6 → Word := fun _ => 0

/-! ## Section 2: The calls -/

/-- `sig_default_ignore`: CHLD, CONT, STOP, TSTP, TTIN, TTOU, URG, WINCH and IO. -/
def sigDefaultIgnore (sig : Nat) : Bool := sig ∈ [17, 18, 19, 20, 21, 22, 23, 28, 29]

def signalIgnored (t : SigTask) (sig : Nat) : Bool :=
  t.sigHandler sig = 1 || t.sigHandler sig = 0 && sigDefaultIgnore sig

/-- `signal_send`; `taken` is the answer of `signalfd_deliver`. -/
def signalSend (t : SigTask) (sig : Nat) (taken : Bool) : SigTask :=
  if sig = 0 ∨ sig ≥ nsig then t
  else if sig ≠ sigKill ∧ taken then t
  else if sig ≠ sigKill ∧ sig ≠ 18 ∧ t.sigBlocked &&& bit sig = 0 ∧ signalIgnored t sig then t
  else { t with
    sigPending := t.sigPending ||| bit sig
    pendingKill := t.pendingKill || sig = sigKill }

/-- `__builtin_ctzll` -/
def ctz (w : Word) : Nat := ((List.range 64).find? w.getLsbD).getD 64

/-- `signal_deliver_pending`, `none` if it ends the task. A signal with a handler gets a
    frame on the user stack, and the task goes on in the restorer. -/
def signalDeliverPending (t : SigTask) (retval : Word) (valid : Bool) :
    Option (SigTask × Option UContext) :=
  let deliverable := t.sigPending &&& ~~~ t.sigBlocked
  if deliverable = 0 then some (t, none)
  else
    let sig := ctz deliverable
    if sig = 0 ∨ sig ≥ nsig then
      some ({ t with sigPending := t.sigPending &&& ~~~ deliverable }, none)
    else
      let h := t.sigHandler sig
      let cleared := t.sigPending &&& ~~~ bit sig
      if sig = sigKill ∨ h = 0 then
        if sig ≠ sigKill ∧ sigDefaultIgnore sig then some ({ t with sigPending := cleared }, none)
        else none
      else if h = 1 then some ({ t with sigPending := cleared }, none)
      else if t.sigRestorer sig = 0 then none
      else if !valid then none
      else
        let blocked := t.sigBlocked ||| t.sigMask sig
        -- 16 bytes for the handler and the number, then the context of 88 bytes
        let sp := (t.userRsp - 104) &&& ~~~ 15
        some ({ t with
          sigBlocked := if t.sigFlags sig &&& 0x40000000 = 0 then blocked ||| bit sig else blocked
          sigHandler := fun i =>
            if i = sig ∧ t.sigFlags sig &&& 0x80000000 ≠ 0 then 0 else t.sigHandler i
          sigPending := cleared
          userRsp := sp, userRip := t.sigRestorer sig },
          some ⟨t.userRip, t.userRsp, t.userR11, retval, t.regs, t.sigBlocked⟩)

/-- `sys_rt_sigaction` with an action. -/
def sysRtSigaction (t : SigTask) (sig : Nat) (act : KSigaction) : SigTask :=
  if sig = 0 ∨ sig ≥ nsig ∨ sig = sigKill ∨ sig = sigStop then t
  else { t with
    sigHandler := fun i => if i = sig then act.handler else t.sigHandler i
    sigFlags := fun i => if i = sig then act.flags else t.sigFlags i
    sigRestorer := fun i => if i = sig then act.restorer else t.sigRestorer i
    sigMask := fun i =>
      if i = sig then act.mask &&& ~~~ (bit sigKill ||| bit sigStop) else t.sigMask i }

/-- `sys_rt_sigprocmask` with a set. -/
def sysRtSigprocmask (t : SigTask) (how set : Word) : SigTask :=
  let s := set &&& ~~~ (bit sigKill ||| bit sigStop)
  if how = 0 then { t with sigBlocked := t.sigBlocked ||| s }
  else if how = 1 then { t with sigBlocked := t.sigBlocked &&& ~~~ s }
  else if how = 2 then { t with sigBlocked := s }
  else t

/-- `sys_rt_sigreturn`: everything comes from the frame. -/
def sysRtSigreturn (t : SigTask) (uc : UContext) : SigTask :=
  { t with
    userRip := uc.rip, userRsp := uc.rsp, userR11 := uc.rflags
    regs := uc.regs, sigBlocked := uc.mask }

/-- Instruction pointer, stack pointer and flags that user mode goes on with. -/
structure Resume where
  rip    : Word
  rsp    : Word
  rflags : Word

/-- The end of `syscall_entry`; `none` is a panic. -/
def sysret (t : SigTask) : Option Resume :=
  if t.userRip = 0 then none
  else if t.userRip >>> 47 ≠ 0 then none
  else if t.userRsp >>> 47 ≠ 0 then none
  else some ⟨t.userRip, t.userRsp, (t.userR11 &&& 0x3C0FFF) ||| 0x202⟩

/-! ## Section 3: Runs -/

inductive Event where
  /-- The task enters the kernel with these registers. -/
  | enter (rip rsp r11 : Word) (regs : Fin 6 → Word)
  | send (sig : Nat) (taken : Bool)
  | deliver (retval : Word) (valid : Bool)
  | sigaction (sig : Nat) (act : KSigaction)
  | sigprocmask (how set : Word)
  | sigreturn (uc : UContext)

/-- The task after an event, `none` if it has ended. -/
def next (t : SigTask) : Event → Option SigTask
  | .enter rip rsp r11 regs =>
    some { t with userRip := rip, userRsp := rsp, userR11 := r11, regs := regs }
  | .send sig taken => some (signalSend t sig taken)
  | .deliver retval valid => (signalDeliverPending t retval valid).map (·.1)
  | .sigaction sig act => some (sysRtSigaction t sig act)
  | .sigprocmask how set => some (sysRtSigprocmask t how set)
  | .sigreturn uc => some (sysRtSigreturn t uc)

/-- A task starts with no signal blocked and no handler. -/
def signals : System SigTask Event where
  init := fun t => t = {}
  step := fun t e t' => next t e = some t'

/-! ## Section 4: The masks -/

/-- A mask without SIGKILL and SIGSTOP. -/
structure Spares (w : Word) : Prop where
  kill : w.getLsbD sigKill = false
  stop : w.getLsbD sigStop = false

theorem spares_zero : Spares 0 := ⟨by simp, by simp⟩

theorem Spares.or {v w : Word} (hv : Spares v) (hw : Spares w) : Spares (v ||| w) :=
  ⟨by simp [hv.kill, hw.kill], by simp [hv.stop, hw.stop]⟩

theorem Spares.and_left {v : Word} (hv : Spares v) (w : Word) : Spares (v &&& w) :=
  ⟨by simp [hv.kill], by simp [hv.stop]⟩

theorem Spares.ite {c : Prop} [Decidable c] {v w : Word} (hv : Spares v) (hw : Spares w) :
    Spares (if c then v else w) := by
  split <;> assumption

/-- The filter of `sigaction` and `sigprocmask`. -/
theorem spares_filtered (w : Word) : Spares (w &&& ~~~ (bit sigKill ||| bit sigStop)) := by
  constructor <;> simp [bit, sigKill, sigStop]

theorem spares_bit {sig : Nat} (hk : sig ≠ sigKill) (hs : sig ≠ sigStop) : Spares (bit sig) := by
  constructor <;> simp [bit, BitVec.getLsbD_twoPow, hk, hs]

/-- No mask holds the two signals, and they keep their default action. -/
structure Confined (t : SigTask) : Prop where
  blocked : Spares t.sigBlocked
  masks   : ∀ sig, Spares (t.sigMask sig)
  kill    : t.sigHandler sigKill = 0
  stop    : t.sigHandler sigStop = 0

theorem confined_deliver {t t' : SigTask} {retval : Word} {valid : Bool} {uc : Option UContext}
    (ht : Confined t) (h : signalDeliverPending t retval valid = some (t', uc)) : Confined t' := by
  have keep : ∀ p, Confined { t with sigPending := p } := fun _ =>
    ⟨ht.blocked, ht.masks, ht.kill, ht.stop⟩
  unfold signalDeliverPending at h
  extract_lets deliverable sig hand cleared blocked sp at h
  split_ifs at h with hz hr hd hi h1 hre hv <;> try (cases h; first | exact ht | exact keep _)
  -- a handler runs, with SA_NODEFER or without: neither signal can have one
  all_goals
    cases h
    have hk : sig ≠ sigKill := fun hk => hd (.inl hk)
    have hs : sig ≠ sigStop := fun hs => hd (.inr ((congrArg t.sigHandler hs).trans ht.stop))
    have hb : Spares blocked := ht.blocked.or (ht.masks sig)
    refine ⟨by first | exact hb | exact hb.or (spares_bit hk hs), ht.masks, ?_, ?_⟩
    · exact (if_neg fun h => hk h.1.symm).trans ht.kill
    · exact (if_neg fun h => hs h.1.symm).trans ht.stop

/-- **One event.** Only a frame with one of the two bits in its mask can break this. -/
theorem confined_next {t t' : SigTask} {e : Event} (ht : Confined t)
    (hframe : ∀ uc, e = .sigreturn uc → Spares uc.mask) (h : next t e = some t') : Confined t' := by
  obtain ⟨hblocked, hmasks, hkill, hstop⟩ := ht
  cases e with
  | enter rip rsp r11 regs =>
    cases h
    exact ⟨hblocked, hmasks, hkill, hstop⟩
  | send sig taken =>
    cases h
    unfold signalSend
    split_ifs <;> exact ⟨hblocked, hmasks, hkill, hstop⟩
  | deliver retval valid =>
    obtain ⟨⟨t'', uc⟩, hd, rfl⟩ := Option.map_eq_some_iff.1 h
    exact confined_deliver ⟨hblocked, hmasks, hkill, hstop⟩ hd
  | sigaction sig act =>
    cases h
    unfold sysRtSigaction
    split_ifs with hsig
    · exact ⟨hblocked, hmasks, hkill, hstop⟩
    · simp only [not_or] at hsig
      refine ⟨hblocked, fun i => (spares_filtered _).ite (hmasks i), ?_, ?_⟩
      · exact (if_neg (Ne.symm hsig.2.2.1)).trans hkill
      · exact (if_neg (Ne.symm hsig.2.2.2)).trans hstop
  | sigprocmask how set =>
    cases h
    unfold sysRtSigprocmask
    split_ifs
    · exact ⟨hblocked.or (spares_filtered _), hmasks, hkill, hstop⟩
    · exact ⟨hblocked.and_left _, hmasks, hkill, hstop⟩
    · exact ⟨spares_filtered _, hmasks, hkill, hstop⟩
    · exact ⟨hblocked, hmasks, hkill, hstop⟩
  | sigreturn uc =>
    cases h
    exact ⟨hframe uc rfl, hmasks, hkill, hstop⟩

/-! ## Section 5: The way back -/

/-- Lower half, IOPL (12, 13), NT (14) and VM (17) clear, interrupts (9) on. -/
def Resume.Safe (r : Resume) : Prop :=
  r.rip.toNat < 2 ^ 47 ∧ r.rsp.toNat < 2 ^ 47 ∧
  r.rflags.getLsbD 12 = false ∧ r.rflags.getLsbD 13 = false ∧ r.rflags.getLsbD 14 = false ∧
  r.rflags.getLsbD 17 = false ∧ r.rflags.getLsbD 9 = true

theorem toNat_lt_of_ushiftRight {w : Word} (h : w >>> 47 = 0) : w.toNat < 2 ^ 47 := by
  have := congrArg BitVec.toNat h
  simp only [BitVec.toNat_ushiftRight, Nat.shiftRight_eq_div_pow] at this
  exact (Nat.div_eq_zero_iff_lt (by decide)).1 this

theorem sysret_safe {t : SigTask} {r : Resume} (h : sysret t = some r) : r.Safe := by
  unfold sysret at h
  split_ifs at h with h0 hrip hrsp
  cases h
  refine ⟨toNat_lt_of_ushiftRight (not_not.1 hrip), toNat_lt_of_ushiftRight (not_not.1 hrsp), ?_⟩
  simp

/-- A frame is read back only if its mask spares SIGKILL and SIGSTOP. -/
def FrameSpares (_ : SigTask) : Event → Prop
  | .sigreturn uc => Spares uc.mask
  | _ => True

/-- **Signals confined.** In every run in which each frame that `rt_sigreturn` reads spares
    SIGKILL and SIGSTOP, they are never blocked. From every state and every frame user mode
    goes on in the lower half, without privilege bits in the flags. -/
theorem signals_confined {t : SigTask} (h : (signals.restrict FrameSpares).Reachable t) :
    Spares t.sigBlocked ∧
    ∀ uc r, sysret (sysRtSigreturn t uc) = some r → r.Safe := by
  refine ⟨?_, fun uc r hr => sysret_safe hr⟩
  refine (@System.Reachable.induct _ _ _ Confined ?_ ?_ _ h).blocked
  · rintro s rfl
    exact ⟨spares_zero, fun _ => spares_zero, rfl, rfl⟩
  rintro s e s' - hs ⟨hok, hstep⟩
  refine confined_next hs (fun uc he => ?_) hstep
  subst he
  exact hok

/-- A frame with every register 4096 and the mask given. -/
def frame (mask : Word) : UContext := ⟨4096, 4096, 4096, 4096, fun _ => 4096, mask⟩

instance (t : SigTask) (e : Event) : Decidable (FrameSpares t e) :=
  match e with
  | .sigreturn uc => decidable_of_iff
      (uc.mask.getLsbD sigKill = false ∧ uc.mask.getLsbD sigStop = false)
      ⟨fun h => ⟨h.1, h.2⟩, fun h => ⟨h.kill, h.stop⟩⟩
  | .enter .. | .send .. | .deliver .. | .sigaction .. | .sigprocmask .. => .isTrue trivial

/-- The handler of signal 12 is interrupted by the one of signal 10, which blocks all it can;
    both return, and then all signals are blocked. -/
def nestedEvents : List Event :=
  [.sigaction 12 ⟨4096, 0, 4096, 0⟩, .sigaction 10 ⟨4096, 0, 4096, -1⟩, .send 12 false,
    .deliver 0 true, .send 10 false, .deliver 0 true, .sigreturn (frame 0x1000),
    .sigreturn (frame 0), .sigprocmask 0 (-1)]

theorem signals_confined_nested :
    ∃ t : SigTask, t.sigBlocked = 0xFFFFFFFFFFF7FDFF ∧ Spares t.sigBlocked := by
  have hrun : (System.replay (fun t e => if FrameSpares t e then next t e else none) {}
      nestedEvents).map (·.sigBlocked) = some 0xFFFFFFFFFFF7FDFF := by decide +kernel
  obtain ⟨t, ht, hmask⟩ := Option.map_eq_some_iff.mp hrun
  have hreach : (signals.restrict FrameSpares).Reachable t :=
    System.Reachable.replay_restrict (fun _ _ _ => id) (.init rfl) ht
  exact ⟨t, hmask, (signals_confined hreach).1⟩

/-- A forged frame blocks SIGKILL. -/
theorem sigreturn_blocks_kill :
    ∃ t, signals.Reachable t ∧ t.sigBlocked.getLsbD sigKill = true :=
  ⟨sysRtSigreturn {} (frame 0x200), .step (.sigreturn _) (.init rfl) rfl, by decide⟩

end Cervus.Signals
