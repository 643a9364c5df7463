import Cervus.Net.TcpFin

/-! # Control blocks, sockets and listeners

    The TCP stack as a whole: the list `g_tcbs` of control blocks, the stream sockets that point
    at them, and the pointers between blocks (`listener`, `accept_q`). An event is a call of the
    socket layer, an arriving segment or `tcp_tick`. Two calls release their locks halfway and
    are two events each: a blocking connect stores its block at the end, and `tcp_input` puts a
    child on the accept queue after the handshake.

    The memory model lets `calloc` return any address that is not a live block, so a freed
    address may be used again. A freed block keeps its contents until then. -/

namespace Cervus.Tcp

/-! ## Section 1: The stack -/

abbrev TcbId := Nat
abbrev SockId := Nat

/-- A control block with the fields that connect it to others. `acceptQ` is the chain from
    `accept_q` through `accept_next`; `six` says that the family is `AF_INET6`. -/
structure Block where
  tcb        : TcpTcb
  six        : Bool
  localPort  : Nat
  remoteIp   : Nat
  remotePort : Nat
  listener   : Option TcbId
  acceptQ    : List TcbId

/-- A stream socket. -/
structure Sock where
  six        : Bool
  tcb        : Option TcbId := none
  bound      : Bool := false
  localPort  : Nat := 0
  wrShutdown : Bool := false

/-- A call that has released the locks and will go on: a blocking connect that will store its
    block, or `tcp_input` before it puts the child on the accept queue. -/
inductive Pending where
  | connect (s : SockId) (c : TcbId)
  | handshake (c : TcbId)
  deriving DecidableEq

def Pending.tcb : Pending → TcbId
  | .connect _ c => c
  | .handshake c => c

def Pending.sock : Pending → Option SockId
  | .connect s _ => some s
  | .handshake _ => none

/-- Memory, the list `g_tcbs`, the open sockets and the calls under way. -/
structure Stack where
  heap    : TcbId → Block
  gTcbs   : List TcbId
  socks   : SockId → Option Sock
  pending : List Pending

namespace Stack

def setSock (st : Stack) (s : SockId) (k : Option Sock) : Stack :=
  { st with socks := Function.update st.socks s k }

def setBlock (st : Stack) (t : TcbId) (b : Block) : Stack :=
  { st with heap := Function.update st.heap t b }

/-- A new block at the head of `g_tcbs`. -/
def insert (st : Stack) (c : TcbId) (b : Block) : Stack :=
  { st with heap := Function.update st.heap c b, gTcbs := c :: st.gTcbs }

def setTcb (st : Stack) (t : TcbId) (tcb : TcpTcb) : Stack :=
  st.setBlock t { st.heap t with tcb }

def setQueue (st : Stack) (l : TcbId) (q : List TcbId) : Stack :=
  st.setBlock l { st.heap l with acceptQ := q }

def closeTcb (st : Stack) (now : Nat) (t : TcbId) : Stack :=
  st.setTcb t (tcpClose now (st.heap t).tcb).1

/-- The block of an open socket. -/
def owned (st : Stack) (s : SockId) : Option TcbId := (st.socks s).bind Sock.tcb

/-- `tcb_find` and `tcb_find6`; only the latter passes over listeners. -/
def tcbFind (st : Stack) (six : Bool) (ip sport dport : Nat) : Option TcbId :=
  st.gTcbs.find? fun t =>
    let b := st.heap t
    b.six == six && !(six && b.tcb.isListener) && b.localPort == dport && b.remotePort == sport &&
      b.remoteIp == ip

/-- `find_listener` and `find_listener6`: the state of the listener is not looked at. -/
def findListener (st : Stack) (six : Bool) (port : Nat) : Option TcbId :=
  st.gTcbs.find? fun t =>
    let b := st.heap t
    b.tcb.isListener && b.localPort == port && b.six == six

/-- The test of `tcp_listen` for a port that is taken. `tcp_listen6` has no such test. -/
def portTaken (st : Stack) (port : Nat) : Bool :=
  st.gTcbs.any fun t =>
    let b := st.heap t
    b.tcb.isListener && b.localPort == port && b.tcb.state == .listen

end Stack

/-- The zeroed block of `tcp_listen`, in state `LISTEN`. -/
def listenTcb : TcpTcb :=
  { newTcb (fun _ => 0) 0 with
    state := .listen, isListener := true, sndNxt := 0, pendSyn := false, srtt := 0, rtoMs := 0
    cwnd := 0, ssthresh := 0, rcvWscale := 0, peerMss := 0 }

/-- A call, an arriving segment, the second half of a call under way, or the timer. A block or
    socket argument that is allocated is the address that the allocation returns, and `eport` is
    the port that `g_eport` gives. -/
inductive StackEvent where
  | socket (s : SockId) (six : Bool)
  | bind (s : SockId) (port : Nat)
  | connect (s : SockId) (c : TcbId) (ip port eport now : Nat) (nonblock : Bool)
      (buf : Nat → UInt8)
  | connectEnd (s : SockId) (c : TcbId) (ok : Bool)
  | listen (s : SockId) (c : TcbId)
  | accept (s : SockId) (new : Option SockId) (now : Nat)
  | shutdown (s : SockId) (how now : Nat)
  | close (s : SockId) (now : Nat)
  | arrive (now : Nat) (alloc six : Bool) (ip sport dport : Nat) (seg : TcpSegment)
      (child : Option TcbId) (buf : Nat → UInt8)
  | enqueue (c : TcbId)
  | tick (now : Nat) (waited : TcbId → Bool)

namespace Stack

/-- `sock_op_connect` and `sock_op_connect6`. The latter always blocks and does not look at a
    block that the socket has already. -/
def connect (st : Stack) (s : SockId) (c : TcbId) (ip port eport now : Nat) (nonblock : Bool)
    (buf : Nat → UInt8) : Stack :=
  match st.socks s with
  | none => st
  | some k =>
    if !k.six && k.tcb.isSome then st
    else
      let st := st.insert c ⟨(tcpConnectStart now buf).1, k.six, eport, ip, port, none, []⟩
      if nonblock && !k.six then st.setSock s (some { k with tcb := some c })
      else { st with pending := .connect s c :: st.pending }

/-- The end of a blocking connect. `tcp_connect` stores the block also when it failed. -/
def connectEnd (st : Stack) (s : SockId) (c : TcbId) (ok : Bool) : Stack :=
  let st := { st with pending := st.pending.erase (.connect s c) }
  match st.socks s with
  | none => st
  | some k => st.setSock s (some { k with tcb := if k.six && !ok then none else some c })

/-- `sock_op_listen` -/
def listen (st : Stack) (s : SockId) (c : TcbId) : Stack :=
  match st.socks s with
  | none => st
  | some k =>
    if !k.bound || k.tcb.isSome || (!k.six && st.portTaken k.localPort) then st
    else
      (st.insert c ⟨listenTcb, k.six, k.localPort, 0, 0, none, []⟩).setSock s
        (some { k with tcb := some c })

/-- `sock_op_accept`; a pass that finds the queue empty changes nothing. -/
def accept (st : Stack) (s : SockId) (new : Option SockId) (now : Nat) : Stack :=
  match st.socks s with
  | none => st
  | some k =>
    match k.tcb with
    | none => st
    | some l =>
      match (st.heap l).acceptQ with
      | [] => st
      | c :: q =>
        let st := st.setQueue l q
        match new with
        | some n => st.setSock n (some { six := k.six, tcb := some c })
        | none => st.closeTcb now c

/-- `sock_op_shutdown` -/
def shutdown (st : Stack) (s : SockId) (how now : Nat) : Stack :=
  match st.socks s with
  | none => st
  | some k =>
    if (how = 1 ∨ how = 2) ∧ k.wrShutdown = false then
      let st := st.setSock s (some { k with wrShutdown := true })
      match k.tcb with
      | some t => st.closeTcb now t
      | none => st
    else st

/-- `sock_unref_op` -/
def close (st : Stack) (s : SockId) (now : Nat) : Stack :=
  match st.owned s with
  | some t => (st.closeTcb now t).setSock s none
  | none => st.setSock s none

/-- `tcp_rx` and `tcp6_rx`: a segment of a connection, or a SYN for a listener. The last step of
    the handshake is left to `enqueue`. -/
def arrive (st : Stack) (now : Nat) (alloc six : Bool) (ip sport dport : Nat)
    (seg : TcpSegment) (child : Option TcbId) (buf : Nat → UInt8) : Stack :=
  match st.tcbFind six ip sport dport with
  | some t =>
    let tcb := (tcpInput now alloc (st.heap t).tcb seg).1
    let st' := st.setTcb t tcb
    if (st.heap t).tcb.state = .synRcvd ∧ tcb.state = .established ∧
        (st.heap t).listener.isSome then
      { st' with pending := .handshake t :: st'.pending }
    else st'
  | none =>
    match st.findListener six dport, child with
    | some l, some c =>
      if seg.flags.syn ∧ seg.flags.ack = false then
        st.insert c
          ⟨(tcpAcceptSyn now buf seg.seq).1, six, (st.heap l).localPort, ip, sport, some l, []⟩
      else st
    | _, _ => st

/-- The child goes to the head of its listener's accept queue. -/
def enqueue (st : Stack) (c : TcbId) : Stack :=
  let st := { st with pending := st.pending.erase (.handshake c) }
  match (st.heap c).listener with
  | none => st
  | some l => st.setQueue l (c :: (st.heap l).acceptQ)

/-- `tcp_tick`: each block is reaped or served on its own. -/
def tick (st : Stack) (now : Nat) (waited : TcbId → Bool) : Stack :=
  { st with
    heap := fun t =>
      if t ∈ st.gTcbs then { st.heap t with tcb := (tcpTick now (st.heap t).tcb).1 } else st.heap t
    gTcbs := st.gTcbs.filter fun t => !reaps now (st.heap t).tcb (waited t) }

def next (st : Stack) : StackEvent → Stack
  | .socket s six => st.setSock s (some { six })
  | .bind s port =>
    match st.socks s with
    | none => st
    | some k => st.setSock s (some { k with bound := true, localPort := port })
  | .connect s c ip port eport now nonblock buf => st.connect s c ip port eport now nonblock buf
  | .connectEnd s c ok => st.connectEnd s c ok
  | .listen s c => st.listen s c
  | .accept s new now => st.accept s new now
  | .shutdown s how now => st.shutdown s how now
  | .close s now => st.close s now
  | .arrive now alloc six ip sport dport seg child buf =>
    st.arrive now alloc six ip sport dport seg child buf
  | .enqueue c => st.enqueue c
  | .tick now waited => st.tick now waited

/-- What an event needs: allocated addresses are not in use, a second half has a first half,
    and a socket is not closed under a call that has its file (`fd_put`). -/
def allows (st : Stack) : StackEvent → Prop
  | .socket s _ => (st.socks s).isNone
  | .connect _ c .. => c ∉ st.gTcbs
  | .connectEnd s c _ => .connect s c ∈ st.pending
  | .listen _ c => c ∉ st.gTcbs
  | .accept _ new _ => ∀ n ∈ new, (st.socks n).isNone
  | .close s _ => ∀ p ∈ st.pending, p.sock ≠ some s
  | .arrive _ _ _ _ _ _ _ child _ => ∀ c ∈ child, c ∉ st.gTcbs
  | .enqueue c => .handshake c ∈ st.pending
  | _ => True

/-- The order of calls that keeps the blocks: no shutdown for writing of a socket with a block,
    a listener is closed only when no block names it, and takes no SYN after that. -/
def Careful (st : Stack) : StackEvent → Prop
  | .shutdown s how _ => how = 1 ∨ how = 2 → st.owned s = none
  | .close s _ => ∀ t ∈ st.owned s, ∀ c ∈ st.gTcbs, (st.heap c).listener ≠ some t
  | .arrive _ _ six ip sport dport seg _ _ =>
    st.tcbFind six ip sport dport = none → seg.flags.syn = true → seg.flags.ack = false →
      ∀ l ∈ st.findListener six dport, (st.heap l).tcb.appClosed = false
  | _ => True

end Stack

/-- No block, no socket and no call under way at the start. -/
def stackSystem : System Stack StackEvent where
  init := fun st => st.gTcbs = [] ∧ (∀ s, st.socks s = none) ∧ st.pending = []
  step := fun st e st' => st.allows e ∧ st' = st.next e

/-- Nothing points at the block: no socket, no accept queue, no child. -/
structure SafeReap (st : Stack) (t : TcbId) : Prop where
  sock     : ∀ s, st.owned s ≠ some t
  queue    : ∀ l ∈ st.gTcbs, t ∉ (st.heap l).acceptQ
  listener : ∀ c ∈ st.gTcbs, c ≠ t → (st.heap c).listener ≠ some t

/-! ## Section 2: What a segment and the timer keep of a block -/

/-- The states that only `tcp_close` leads to. -/
def TcpState.finishing : TcpState → Bool
  | .finWait1 | .finWait2 | .lastAck | .timeWait => true
  | _ => false

structure Kept (t t' : TcpTcb) : Prop where
  appClosed  : t'.appClosed = t.appClosed
  isListener : t'.isListener = t.isListener
  synRcvd    : t'.state = .synRcvd → t.state = .synRcvd
  finishing  : t'.state.finishing = true → t.state.finishing = true

theorem Kept.refl (t : TcpTcb) : Kept t t := ⟨rfl, rfl, id, id⟩

theorem Kept.trans {t1 t2 t3 : TcpTcb} (h : Kept t1 t2) (h' : Kept t2 t3) : Kept t1 t3 where
  appClosed := h'.appClosed.trans h.appClosed
  isListener := h'.isListener.trans h.isListener
  synRcvd := fun hs => h.synRcvd (h'.synRcvd hs)
  finishing := fun hf => h.finishing (h'.finishing hf)

theorem Kept.of_eq {t t' : TcpTcb} (h : (t'.appClosed, t'.isListener, t'.state) =
    (t.appClosed, t.isListener, t.state)) : Kept t t' := by
  simp only [Prod.mk.injEq] at h
  obtain ⟨ha, hl, hs⟩ := h
  exact ⟨ha, hl, hs ▸ id, hs ▸ id⟩

variable (now : Nat)

theorem tcpTrySend_kept (t : TcpTcb) : Kept t (tcpTrySend now t).1 := by
  obtain ⟨nxt, timing, seq, start, rexmit, fin, hloop⟩ := trySendLoop_eq now (t.sndBuflen + 1) t
  rw [tcpTrySend, hloop]
  exact .of_eq rfl

theorem inputAck_kept (t : TcpTcb) (seg : TcpSegment) :
    Kept t (inputAck now t seg).1 := by
  have hrtt : ∀ u : TcpTcb, Kept u (ackRtt now u seg.ack) := by
    intro u
    unfold ackRtt
    split
    · exact .of_eq rfl
    · exact .refl u
  unfold inputAck
  split
  · split
    · have hdrop : Kept t { t with sndbuf := t.sndbuf.drop (dataAcked t seg.ack) } := .of_eq rfl
      exact (hdrop.trans (hrtt _)).trans (.of_eq rfl)
    split
    · dsimp only
      split
      · exact .of_eq rfl
      · exact .of_eq rfl
    · exact .refl t
  · exact .refl t

theorem inputStart_kept (t : TcpTcb) (seg : TcpSegment) :
    Kept t (inputStart now t seg).1 := by
  have hwnd : Kept t (inputWnd (inputOpts t seg) seg) := by
    obtain ⟨mss, ws, rws, ok, hopts⟩ := inputOpts_eq t seg
    rw [hopts]
    exact .of_eq rfl
  unfold inputStart
  split
  · exact ⟨rfl, rfl, nofun, nofun⟩
  refine hwnd.trans ?_
  unfold inputSynchronize
  split
  · split
    · exact ⟨rfl, rfl, nofun, nofun⟩
    · exact .refl _
  split
  · split
    · exact ⟨rfl, rfl, nofun, nofun⟩
    · exact .refl _
  · exact inputAck_kept now _ seg

theorem inputSection_kept (alloc : Bool) (t : TcpTcb) (pc : InputPc) :
    Kept t (inputSection now alloc t pc).1 := by
  cases pc with
  | idle => exact .refl t
  | start seg => exact inputStart_kept now t seg
  | resend seg => exact tcpTrySend_kept now t
  | transitions seg =>
    simp only [inputSection, ackTransitions]
    split
    · rename_i h
      exact ⟨rfl, rfl, by simp, fun _ => by rw [h.1]; rfl⟩
    · split
      · exact ⟨rfl, rfl, by simp, by simp [TcpState.finishing]⟩
      · exact .refl t
  | data seg =>
    obtain ⟨rcv, nxt, ooo, hdata⟩ := inputData_eq alloc t seg
    rw [inputSection, hdata]
    exact .of_eq rfl
  | fin seg =>
    simp only [inputSection, inputFin]
    split
    · unfold finTransitions
      split
      · exact ⟨rfl, rfl, by simp, by simp [TcpState.finishing]⟩
      split
      · rename_i h
        refine ⟨rfl, rfl, by simp, fun _ => ?_⟩
        obtain hs | hs := h
        · rw [show t.state = .finWait1 from hs]; rfl
        · rw [show t.state = .finWait2 from hs]; rfl
      · exact .of_eq rfl
    · exact .refl t
  | trySend => exact tcpTrySend_kept now t

theorem tcpInput_kept (alloc : Bool) (t : TcpTcb) (seg : TcpSegment) :
    Kept t (tcpInput now alloc t seg).1 := by
  have hrun : ∀ n (t : TcpTcb) pc, Kept t (inputSections now alloc n t pc).1 := by
    intro n
    induction n with
    | zero => exact fun t _ => .refl t
    | succ n ih => exact fun t pc => (inputSection_kept now alloc t pc).trans (ih _ _)
  exact hrun 6 t (.start seg)

theorem tcpTick_kept (t : TcpTcb) : Kept t (tcpTick now t).1 := by
  unfold tcpTick
  split
  · exact .refl t
  split
  · dsimp only
    split
    · exact .of_eq rfl
    split
    · exact .of_eq rfl
    · have hback : Kept t (rewind (backOff now t (t.retries + 1))) := .of_eq rfl
      exact hback.trans (tcpTrySend_kept now _)
  · exact .refl t

/-- What `tcp_close` does to a block. -/
theorem tcpClose_closed (t : TcpTcb) :
    (tcpClose now t).1.appClosed = true ∧ (tcpClose now t).1.isListener = t.isListener ∧
      ((tcpClose now t).1.state = .synRcvd → t.state = .synRcvd) := by
  unfold tcpClose
  split
  · exact ⟨rfl, rfl, nofun⟩
  split
  · have hsend := tcpTrySend_kept now (requestFin (noteClose now t) .finWait1)
    exact ⟨hsend.appClosed, hsend.isListener, fun hs => nomatch hsend.synRcvd hs⟩
  split
  · have hsend := tcpTrySend_kept now (requestFin (noteClose now t) .lastAck)
    exact ⟨hsend.appClosed, hsend.isListener, fun hs => nomatch hsend.synRcvd hs⟩
  · exact ⟨rfl, rfl, id⟩

end Cervus.Tcp
