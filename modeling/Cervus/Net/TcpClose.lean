import Cervus.Framework.System
import Cervus.Net.Tcp

/-! # Orderly close

    A connection is closed in order when it leaves `FIN_WAIT1` or `LAST_ACK`
    only after its FIN has gone out and the peer has acknowledged everything.
    The code decides this by `snd_una == snd_nxt`, but the FIN waits for the
    send buffer to drain and only then advances `snd_nxt`: when the last byte in
    flight is acknowledged before the FIN was sent, the test succeeds too early
    (`finWait2_before_fin`). The lock is also released between the section of
    `tcp_close` that asks for the FIN, or one that goes back to `snd_una`, and
    the round of `tcp_try_send` that sends it. The test is right in every run
    where no segment is worked on while the FIN is due (`orderly_close`).

    A step is one section under the lock, of any call at any time, so the runs
    contain every interleaving of calls. Positions count sequence numbers from
    the initial one: the SYN is at 0, byte `i` of the application at `1 + i`,
    the FIN after the last byte. -/

namespace Cervus.Tcp

/-! ## Section 1: Runs of a closing connection -/

/-- A connection with what has happened on it: the bytes handed to `tcp_send`,
    the highest position the peer acknowledged, the position of `snd_una`, the
    end of what was transmitted, and whether that includes the FIN. -/
structure Closer where
  tcb : TcpTcb
  handed : Nat
  acked : Nat
  una : Nat
  sent : Nat
  finOut : Bool

/-- The position just after a transmitted segment. -/
def outEnd (t : TcpTcb) (una : Nat) (o : TcpOut) : Nat :=
  una + sub32 o.seq t.sndUna + o.data.length + o.flags.syn.toNat + o.flags.fin.toNat

/-- Note what a section did to the control block and what it transmitted. -/
def Closer.observe (st : Closer) (t : TcpTcb) (outs : List TcpOut) : Closer :=
  let una := st.una + sub32 t.sndUna st.tcb.sndUna
  { st with
    tcb := t
    una := una
    sent := (outs.map (outEnd t una)).foldl max st.sent
    finOut := st.finOut || outs.any (·.flags.fin) }

/-- The sections of the calls. The acknowledgement number of the segment that
    `tcp_input` begins with stands for position `k`. -/
inductive CloserCall where
  | input (now : Nat) (alloc : Bool) (pc : InputPc) (k : Nat)
  | send (data : List UInt8)
  | recv (len : Nat) (nonblock killed : Bool)
  | close (now : Nat)
  | round (now : Nat)
  | tick (now : Nat)

/-- The segment of the first section acknowledges everything before `k`. -/
def Closer.hear (st : Closer) (k : Nat) : InputPc → Closer
  | .start seg => { st with acked := if seg.flags.ack then max st.acked k else st.acked }
  | _ => st

def Closer.next (st : Closer) : CloserCall → Closer
  | .input now alloc pc k =>
    let r := inputSection now alloc st.tcb pc
    (st.hear k pc).observe r.1 r.2.1
  | .send data =>
    let piece := data.take (sendTake st.tcb data)
    { st with tcb := appendSnd st.tcb piece, handed := st.handed + piece.length }
  | .recv len nonblock killed =>
    let r := tcpRecv st.tcb len nonblock killed
    st.observe r.1 r.2.1
  | .close now => st.observe (closeSection now st.tcb) []
  | .round now => let r := sendRound now st.tcb; st.observe r.1 r.2
  | .tick now => let r := tickSection now st.tcb; st.observe r.1 r.2

/-- The acknowledgement number of the segment stands for position `k`, less
    than `2 ^ 31` away from that of `snd_una`. -/
structure AckAt (iss una : Nat) (seg : TcpSegment) (k : Nat) : Prop where
  ack_eq : seg.ack = serial iss k
  above : una < k + 2 ^ 31
  below : k < una + 2 ^ 31

/-- A conforming peer's segments: no RST, and what is acknowledged was sent. -/
structure Conforming (iss : Nat) (st : Closer) (seg : TcpSegment) (k : Nat) : Prop where
  rst : seg.flags.rst = false
  ack : seg.flags.ack = true → AckAt iss st.una seg k ∧ k ≤ st.sent

/-- Segments come from a conforming peer. -/
def Closer.allows (iss : Nat) (st : Closer) : CloserCall → Prop
  | .input _ _ (.start seg) k => Conforming iss st seg k
  | _ => True

/-- A connection that was just opened, from either side. -/
def Closer.Opened (iss : Nat) (st : Closer) : Prop :=
  ∃ now buf,
    (st.tcb = (tcpConnectStart now buf).1 ∨ ∃ seq, st.tcb = (tcpAcceptSyn now buf seq).1) ∧
    iss = st.tcb.iss ∧ st.handed = 0 ∧ st.acked = 0 ∧ st.una = 0 ∧ st.sent = 1 ∧
    st.finOut = false

/-- All runs of a connection. -/
def closerSystem (iss : Nat) : System Closer CloserCall where
  init := Closer.Opened iss
  step := fun st call st' => st.allows iss call ∧ st' = st.next call

/-- `FIN_WAIT2`, `TIME_WAIT` and, from `LAST_ACK`, `CLOSED` are entered only after
    the FIN was transmitted and everything handed over, in the first and last
    case the FIN too, was acknowledged. -/
structure OrderlyStep (st st' : Closer) : Prop where
  finWait2 : st.tcb.state ≠ .finWait2 → st'.tcb.state = .finWait2 →
    st'.finOut = true ∧ 2 + st'.handed ≤ st'.acked
  timeWait : st.tcb.state ≠ .timeWait → st'.tcb.state = .timeWait →
    st'.finOut = true ∧ 1 + st'.handed ≤ st'.acked
  closed : st.tcb.state = .lastAck → st'.tcb.state = .closed →
    st'.finOut = true ∧ 2 + st'.handed ≤ st'.acked

/-- The application is done, and `tcp_try_send` has yet to send the FIN. -/
def TcpTcb.FinDue (t : TcpTcb) : Prop :=
  (t.state = .finWait1 ∨ t.state = .lastAck) ∧ t.finSent = false

/-- The sections of `tcp_input` that are calls of `tcp_try_send`. -/
def InputPc.sends : InputPc → Bool
  | .resend _ | .trySend => true
  | _ => false

/-- While the FIN is due, no segment is worked on. -/
def finFirst (st : Closer) : CloserCall → Prop
  | .input _ _ pc _ => st.tcb.FinDue → pc.sends = true
  | _ => True

/-! ## Section 2: Phases of a connection -/

/-- Before the FIN is sent: the buffer holds the bytes from `snd_una` on, and
    part of it is in flight. -/
structure Sending (iss una handed : Nat) (t : TcpTcb) : Prop where
  una_eq : t.sndUna = serial iss una
  inflight : ∃ f : Nat, f ≤ t.sndbuf.length ∧ t.sndNxt = serial iss (una + f : Nat)
  handed_eq : 1 + handed = una + t.sndbuf.length
  buf_le : t.sndbuf.length ≤ tcpSndbuf
  finSent : t.finSent = false

/-- Before the handshake has been acknowledged. -/
structure Opening (iss una handed : Nat) (t : TcpTcb) : Prop where
  una_eq : una = 0
  sndUna : t.sndUna = serial iss 0
  sndNxt : t.sndNxt = serial iss 1
  handed_eq : handed = 0
  buf_nil : t.sndbuf = []
  pendSyn : t.pendSyn = true
  pendFin : t.pendFin = false
  finSent : t.finSent = false
  iss_eq : iss = t.iss

/-- The FIN is sent: it is the only thing in flight, or all is acknowledged and
    the timer is off. -/
structure FinFlight (iss una handed : Nat) (t : TcpTcb) : Prop where
  una_eq : t.sndUna = serial iss una
  buf_nil : t.sndbuf = []
  finSent : t.finSent = true
  place : (una = 1 + handed ∧ t.sndNxt = serial iss (una + 1 : Nat)) ∨
    (una = 2 + handed ∧ t.sndNxt = serial iss una ∧ t.rexmitMs = 0)

/-- After the close: the FIN is due, or it is sent and was transmitted. -/
def Closing (iss una handed : Nat) (finOut : Bool) (t : TcpTcb) : Prop :=
  Sending iss una handed t ∨ (FinFlight iss una handed t ∧ finOut = true)

/-- The phases of a connection. -/
inductive Phase where
  | opening
  | sending
  | closing
  | finAcked
  | ended
  deriving DecidableEq

def TcpState.phase : TcpState → Phase
  | .synSent | .synRcvd => .opening
  | .established | .closeWait => .sending
  | .finWait1 | .lastAck => .closing
  | .finWait2 => .finAcked
  | .closed | .listen | .timeWait => .ended

/-- What holds in each phase. -/
def PhaseOk (iss : Nat) (st : Closer) : Phase → Prop
  | .opening => Opening iss st.una st.handed st.tcb
  | .sending => (Sending iss st.una st.handed st.tcb ∧ st.tcb.pendFin = false) ∧ st.una ≤ st.acked
  | .closing => Closing iss st.una st.handed st.finOut st.tcb ∧ st.una ≤ st.acked
  | .finAcked => st.finOut = true ∧ 2 + st.handed ≤ st.acked
  | .ended => True

structure CloserInv (iss : Nat) (st : Closer) : Prop where
  listener : st.tcb.isListener = false
  phase : PhaseOk iss st st.tcb.state.phase

/-- `snd_una` stays, or moves to a position that was acknowledged, where `P` holds. -/
def Moved (P : Nat → Prop) (una acked : Nat) : Prop :=
  ∃ una', una ≤ una' ∧ una' < una + 2 ^ 31 ∧ P una' ∧ (una' = una ∨ una' ≤ acked)

theorem Moved.stay {P : Nat → Prop} {una acked : Nat} (h : P una) : Moved P una acked :=
  ⟨una, le_refl _, by omega, h, .inl rfl⟩

/-! ## Section 3: Calls that leave the send side alone -/

/-- The send side and the state of the control block are unchanged. -/
structure SendSame (t t' : TcpTcb) : Prop where
  state : t'.state = t.state
  iss : t'.iss = t.iss
  sndUna : t'.sndUna = t.sndUna
  sndNxt : t'.sndNxt = t.sndNxt
  sndbuf : t'.sndbuf = t.sndbuf
  pendSyn : t'.pendSyn = t.pendSyn
  pendFin : t'.pendFin = t.pendFin
  finSent : t'.finSent = t.finSent
  rexmitMs : t'.rexmitMs = t.rexmitMs
  isListener : t'.isListener = t.isListener

theorem SendSame.refl (t : TcpTcb) : SendSame t t :=
  ⟨rfl, rfl, rfl, rfl, rfl, rfl, rfl, rfl, rfl, rfl⟩

variable {iss una handed k : Nat} {t t' : TcpTcb} {st : Closer} {pc : InputPc} (now : Nat)

theorem Sending.of_sendSame (h : Sending iss una handed t) (hs : SendSame t t') :
    Sending iss una handed t' where
  una_eq := hs.sndUna.trans h.una_eq
  inflight := by rw [hs.sndbuf, hs.sndNxt]; exact h.inflight
  handed_eq := by rw [hs.sndbuf]; exact h.handed_eq
  buf_le := by rw [hs.sndbuf]; exact h.buf_le
  finSent := hs.finSent.trans h.finSent

theorem Opening.of_sendSame (h : Opening iss una handed t) (hs : SendSame t t') :
    Opening iss una handed t' where
  una_eq := h.una_eq
  sndUna := hs.sndUna.trans h.sndUna
  sndNxt := hs.sndNxt.trans h.sndNxt
  handed_eq := h.handed_eq
  buf_nil := hs.sndbuf.trans h.buf_nil
  pendSyn := hs.pendSyn.trans h.pendSyn
  pendFin := hs.pendFin.trans h.pendFin
  finSent := hs.finSent.trans h.finSent
  iss_eq := h.iss_eq.trans hs.iss.symm

theorem FinFlight.of_sendSame (h : FinFlight iss una handed t) (hs : SendSame t t') :
    FinFlight iss una handed t' where
  una_eq := hs.sndUna.trans h.una_eq
  buf_nil := hs.sndbuf.trans h.buf_nil
  finSent := hs.finSent.trans h.finSent
  place := by rw [hs.sndNxt, hs.rexmitMs]; exact h.place

theorem Closing.of_sendSame {out : Bool} (h : Closing iss una handed out t) (hs : SendSame t t') :
    Closing iss una handed out t' :=
  h.imp (·.of_sendSame hs) fun h => ⟨h.1.of_sendSame hs, h.2⟩

theorem inputWnd_sendSame (t : TcpTcb) (seg : TcpSegment) :
    SendSame t (inputWnd (inputOpts t seg) seg) := by
  obtain ⟨mss, ws, rws, ok, hopts⟩ := inputOpts_eq t seg
  rw [hopts]
  exact ⟨rfl, rfl, rfl, rfl, rfl, rfl, rfl, rfl, rfl, rfl⟩

theorem inputData_sendSame (alloc : Bool) (t : TcpTcb) (seg : TcpSegment) :
    SendSame t (inputData alloc t seg).1 := by
  obtain ⟨rcv, nxt, ooo, hdata⟩ := inputData_eq alloc t seg
  rw [hdata]
  exact ⟨rfl, rfl, rfl, rfl, rfl, rfl, rfl, rfl, rfl, rfl⟩

theorem tcpRecv_sendSame (t : TcpTcb) (len : Nat) (nonblock killed : Bool) :
    SendSame t (tcpRecv t len nonblock killed).1 := by
  unfold tcpRecv
  split
  · exact ⟨rfl, rfl, rfl, rfl, rfl, rfl, rfl, rfl, rfl, rfl⟩
  split
  · exact .refl t
  split
  · exact .refl t
  split
  · exact .refl t
  split
  · exact .refl t
  · exact .refl t

/-! ## Section 4: Sending -/

theorem sendChunk_nil (h : t.sndbuf = []) : sendChunk t = 0 := by
  simp [sendChunk, TcpTcb.sndBuflen, h]

/-- What a call on the send side keeps in every state. -/
structure SameCore (t t' : TcpTcb) : Prop where
  state : t'.state = t.state
  isListener : t'.isListener = t.isListener

theorem trySendLoop_sameCore (fuel : Nat) (t : TcpTcb) :
    SameCore t (trySendLoop now fuel t).1 := by
  obtain ⟨nxt, timing, seq, start, rexmit, fin, hloop⟩ := trySendLoop_eq now fuel t
  rw [hloop]
  exact ⟨rfl, rfl⟩

theorem trySendLoop_of_not_sends (fuel : Nat) (h : t.state.sends = false) :
    trySendLoop now fuel t = (t, []) := by
  cases fuel with
  | zero => rfl
  | succ fuel => simp [trySendLoop, h]

/-- With the FIN sent, `tcp_try_send` does nothing. -/
theorem FinFlight.trySendLoop (h : FinFlight iss una handed t) (now fuel : Nat) :
    trySendLoop now fuel t = (t, []) := by
  cases fuel with
  | zero => rfl
  | succ fuel => simp [Tcp.trySendLoop, sendChunk_nil h.buf_nil, h.finSent]

section Sending

variable {iss una handed acked : Nat} {t : TcpTcb}

variable {f k : Nat} {seg : TcpSegment}

theorem Sending.sub32_eq (h : Sending iss una handed t) (hf : f ≤ t.sndbuf.length)
    (hn : t.sndNxt = serial iss (una + f : Nat)) : sub32 t.sndNxt t.sndUna = f := by
  have hlen := h.buf_le
  have hbuf : tcpSndbuf = 16384 := rfl
  rw [hn, h.una_eq, sub32_serial (by omega) (by omega)]
  omega

/-- A data round moves `snd_nxt` on within the buffer. -/
theorem Sending.sendData (h : Sending iss una handed t) (now : Nat) :
    Sending iss una handed (sendData now t).1 := by
  obtain ⟨f, hf, hn⟩ := h.inflight
  have hsub := h.sub32_eq hf hn
  have hchunk : sendChunk t ≤ t.sndbuf.length - f := by
    unfold sendChunk TcpTcb.sndBuflen
    rw [hsub]
    dsimp only
    split <;> omega
  refine ⟨h.una_eq, ⟨f + sendChunk t, ?_, ?_⟩, h.handed_eq, h.buf_le, h.finSent⟩
  · show f + sendChunk t ≤ t.sndbuf.length
    omega
  show u32 (t.sndNxt + sendChunk t) = _
  rw [hn, u32_serial_add]
  congr 1
  push_cast
  omega

/-- The FIN round, when all bytes are acknowledged. -/
theorem Sending.sendFin (h : Sending iss una handed t) (now : Nat) (hbuf : t.sndbuf = [])
    (hnxt : t.sndUna = t.sndNxt) : FinFlight iss una handed (sendFin now t).1 := by
  have hhanded := h.handed_eq
  rw [hbuf] at hhanded
  refine ⟨h.una_eq, hbuf, rfl, .inl ⟨hhanded.symm, ?_⟩⟩
  show u32 (t.sndNxt + 1) = _
  rw [← hnxt, h.una_eq, u32_serial_add]
  congr 1

/-- The rounds of `tcp_try_send`: the FIN goes out when it was asked for and is next. -/
theorem Sending.trySendLoop (fuel : Nat) {t : TcpTcb} (h : Sending iss una handed t) :
    Sending iss una handed (trySendLoop now fuel t).1 ∨
      (t.pendFin = true ∧ FinFlight iss una handed (trySendLoop now fuel t).1 ∧
        (trySendLoop now fuel t).2.any (·.flags.fin)) := by
  induction fuel generalizing t with
  | zero => exact .inl h
  | succ fuel ih =>
    rw [Tcp.trySendLoop]
    split
    · exact .inl h
    split
    · -- a data round
      refine (ih (h.sendData now)).imp_right ?_
      rintro ⟨hpend, hfin, hout⟩
      refine ⟨hpend, hfin, ?_⟩
      rw [List.any_cons, hout, Bool.or_true]
    split
    · next hdue =>
      simp only [Bool.and_eq_true, beq_iff_eq] at hdue
      obtain ⟨⟨⟨hpend, -⟩, hlen⟩, hnxt⟩ := hdue
      exact .inr ⟨hpend, h.sendFin now (List.length_eq_zero_iff.mp hlen) hnxt, rfl⟩
    · exact .inl h

/-- Going back to the first byte that is not acknowledged. -/
theorem Sending.rewound (huna : t.sndUna = serial iss una)
    (hhanded : 1 + handed = una + t.sndbuf.length) (hle : t.sndbuf.length ≤ tcpSndbuf)
    (hnxt : t.sndNxt = t.sndUna) (hfin : t.finSent = false) : Sending iss una handed t :=
  ⟨huna, ⟨0, Nat.zero_le _, hnxt.trans huna⟩, hhanded, hle, hfin⟩

/-- The window test of `tcp_input` on positions. -/
theorem AckAt.window_iff (hk : AckAt iss una seg k) (huna : t.sndUna = serial iss una)
    (hn : t.sndNxt = serial iss (una + f : Nat)) (hf : f < 2 ^ 31) :
    (0 < i32 (sub32 seg.ack t.sndUna) ∧ i32 (sub32 seg.ack t.sndNxt) ≤ 0) ↔
      una < k ∧ k ≤ una + f := by
  have habove := hk.above
  have hbelow := hk.below
  have hrel : i32 (sub32 seg.ack t.sndUna) = (k : Int) - una := by
    rw [hk.ack_eq, huna, i32_sub_serial] <;> omega
  by_cases hnew : una < k
  · have hrel' : i32 (sub32 seg.ack t.sndNxt) = (k : Int) - (una + f) := by
      rw [hk.ack_eq, hn, i32_sub_serial] <;> push_cast <;> omega
    omega
  · omega

/-- What `ackAdvance` does to the send side. -/
theorem ackAdvance_fields (t : TcpTcb) (ack : Nat) :
    (ackAdvance now t ack).sndUna = ack ∧
      (ackAdvance now t ack).sndbuf = t.sndbuf.drop (dataAcked t ack) ∧
      (ackAdvance now t ack).sndNxt = t.sndNxt ∧ (ackAdvance now t ack).pendFin = t.pendFin ∧
      (ackAdvance now t ack).finSent = t.finSent ∧
      (ack = t.sndNxt → (ackAdvance now t ack).rexmitMs = 0) ∧
      SameCore t (ackAdvance now t ack) := by
  unfold ackAdvance ackRtt
  split <;> exact ⟨rfl, rfl, rfl, rfl, rfl, fun heq => if_pos heq, rfl, rfl⟩

/-- New data is acknowledged: the bytes up to the acknowledged position leave
    the buffer. -/
theorem Sending.ackAdvance (h : Sending iss una handed t) (now : Nat) (hk : AckAt iss una seg k)
    (hf : f ≤ t.sndbuf.length) (hn : t.sndNxt = serial iss (una + f : Nat)) (hnew : una < k)
    (hle : k ≤ una + f) : Sending iss k handed (ackAdvance now t seg.ack) := by
  obtain ⟨hunaEq, hbufEq, hnxtEq, -, hfin, -⟩ := ackAdvance_fields now t seg.ack
  have hlen := h.buf_le
  have hsnd : tcpSndbuf = 16384 := rfl
  have hhanded := h.handed_eq
  have hsub : sub32 seg.ack t.sndUna = k - una := by
    rw [hk.ack_eq, h.una_eq, sub32_serial (by omega) (by omega)]
  have hacked : dataAcked t seg.ack = k - una := by
    simp only [dataAcked, h.finSent, Bool.false_and, Bool.false_eq_true, if_false, hsub,
      TcpTcb.sndBuflen]
    omega
  have hlen' : (Tcp.ackAdvance now t seg.ack).sndbuf.length = t.sndbuf.length - (k - una) := by
    rw [hbufEq, hacked, List.length_drop]
  refine ⟨hunaEq.trans hk.ack_eq, ⟨una + f - k, by omega, ?_⟩, by omega, by omega,
    hfin.trans h.finSent⟩
  rw [hnxtEq, hn]
  congr 1
  omega

/-- An acknowledgement while sending: `snd_una` stays or moves to the
    acknowledged position, and the buffer with it. -/
theorem Sending.inputAck (h : Sending iss una handed t) (now : Nat)
    (hack : seg.flags.ack = true → ∃ k, AckAt iss una seg k ∧ k ≤ acked) :
    Moved (fun una => Sending iss una handed (inputAck now t seg).1) una acked := by
  obtain ⟨f, hf, hn⟩ := h.inflight
  have hlen := h.buf_le
  have hsnd : tcpSndbuf = 16384 := rfl
  unfold Tcp.inputAck
  split
  case isFalse => exact .stay h
  next hflag =>
  obtain ⟨k, hk, hkacked⟩ := hack hflag
  split
  · next hwin =>
    have hadv := (hk.window_iff h.una_eq hn (by omega)).mp hwin
    exact ⟨k, by omega, hk.below, h.ackAdvance now hk hf hn hadv.1 hadv.2, .inr hkacked⟩
  split
  · -- a duplicate: the third one goes back to `snd_una`
    dsimp only
    split
    · exact .stay (.rewound h.una_eq h.handed_eq h.buf_le rfl rfl)
    · exact .stay ⟨h.una_eq, h.inflight, h.handed_eq, h.buf_le, h.finSent⟩
  · exact .stay h

end Sending

theorem inputAck_pendFin (t : TcpTcb) (seg : TcpSegment) :
    (inputAck now t seg).1.pendFin = t.pendFin := by
  unfold inputAck
  split
  · split
    · exact (ackAdvance_fields now t seg.ack).2.2.2.1
    split
    · dsimp only
      split <;> rfl
    · rfl
  · rfl

theorem inputAck_sameCore (t : TcpTcb) (seg : TcpSegment) :
    SameCore t (inputAck now t seg).1 := by
  unfold inputAck
  split
  · split
    · exact (ackAdvance_fields now t seg.ack).2.2.2.2.2.2
    split
    · dsimp only
      split <;> exact ⟨rfl, rfl⟩
    · exact ⟨rfl, rfl⟩
  · exact ⟨rfl, rfl⟩

/-! ## Section 5: Closing -/

/-- An acknowledgement while the FIN is in flight is for the FIN or does not count. -/
theorem FinFlight.inputAck {acked : Nat} {seg : TcpSegment} (h : FinFlight iss una handed t)
    (now : Nat) (hack : seg.flags.ack = true → ∃ k, AckAt iss una seg k ∧ k ≤ acked) :
    Moved (fun una => Sending iss una handed (inputAck now t seg).1 ∨
      FinFlight iss una handed (inputAck now t seg).1) una acked := by
  unfold Tcp.inputAck
  split
  case isFalse => exact .stay (.inr h)
  next hflag =>
  obtain ⟨k, hk, hkacked⟩ := hack hflag
  rcases h.place with ⟨hu, hn⟩ | ⟨hu, hn, hoff⟩
  · split
    · next hwin =>
      have hadv := (hk.window_iff h.una_eq hn (by omega)).mp hwin
      obtain rfl : k = una + 1 := by omega
      obtain ⟨hunaEq, hbufEq, hnxtEq, -, hfin, hrexmit, -⟩ := ackAdvance_fields now t seg.ack
      have hall : seg.ack = t.sndNxt := hk.ack_eq.trans hn.symm
      refine ⟨una + 1, by omega, hk.below, .inr ⟨hunaEq.trans hk.ack_eq, ?_, hfin.trans h.finSent,
        .inr ⟨by omega, hnxtEq.trans hn, hrexmit hall⟩⟩, .inr hkacked⟩
      rw [hbufEq, h.buf_nil, List.drop_nil]
    split
    · dsimp only
      split
      · -- the third duplicate: the FIN is due again
        refine .stay (.inl (.rewound h.una_eq ?_ ?_ rfl rfl))
        · show 1 + handed = una + t.sndbuf.length
          rw [h.buf_nil]
          exact hu.symm
        · show t.sndbuf.length ≤ tcpSndbuf
          rw [h.buf_nil]
          exact Nat.zero_le _
      · exact .stay (.inr ⟨h.una_eq, h.buf_nil, h.finSent, .inl ⟨hu, hn⟩⟩)
    · exact .stay (.inr h)
  · -- all is acknowledged, and nothing is in flight
    have hsame : t.sndNxt = t.sndUna := hn.trans h.una_eq.symm
    split
    · next hwin =>
      have hzero : t.sndNxt = serial iss (una + 0 : Nat) := hn
      have := (hk.window_iff h.una_eq hzero (by omega)).mp hwin
      omega
    split
    · next hdup => exact absurd hsame hdup.2.2.1
    · exact .stay (.inr h)

/-- When the timer has run out, the FIN is due again. -/
theorem FinFlight.rewind (h : FinFlight iss una handed t) (now retries : Nat)
    (htimer : t.rexmitMs ≠ 0) : Sending iss una handed (rewind (backOff now t retries)) := by
  rcases h.place with ⟨hu, -⟩ | ⟨-, -, hoff⟩
  · refine .rewound h.una_eq ?_ ?_ rfl rfl
    · show 1 + handed = una + t.sndbuf.length
      rw [h.buf_nil]
      exact hu.symm
    · show t.sndbuf.length ≤ tcpSndbuf
      rw [h.buf_nil]
      exact Nat.zero_le _
  · exact absurd hoff htimer

/-- All bytes are acknowledged by then. -/
theorem FinFlight.handed_le (h : FinFlight iss una handed t) : 1 + handed ≤ una := by
  rcases h.place with ⟨hu, -⟩ | ⟨hu, -⟩ <;> omega

/-! ## Section 6: Steps -/

section Steps

variable {iss una k : Nat} {st st' : Closer} {t t' : TcpTcb} {pc : InputPc} {s : TcpState}
    {seg : TcpSegment}

theorem Closer.observe_una (h : st.tcb.sndUna = serial iss st.una) (h' : t.sndUna = serial iss una)
    (hle : st.una ≤ una) (hlt : una < st.una + 2 ^ 31) (outs : List TcpOut) :
    (st.observe t outs).una = una := by
  show st.una + sub32 t.sndUna st.tcb.sndUna = una
  rw [h, h', sub32_serial hle (by omega)]
  omega

theorem Closer.observe_una_same (h : t.sndUna = st.tcb.sndUna) (outs : List TcpOut) :
    (st.observe t outs).una = st.una := by
  show st.una + sub32 t.sndUna st.tcb.sndUna = st.una
  unfold sub32 u32
  omega

theorem Closer.observe_finOut (h : st.finOut = true) (outs : List TcpOut) :
    (st.observe t outs).finOut = true := by
  simp [Closer.observe, h]

/-- A step that stays in its state is orderly. -/
theorem orderlyStep_of_state_eq (h : st'.tcb.state = st.tcb.state) : OrderlyStep st st' := by
  refine ⟨?_, ?_, ?_⟩
  · intro hne heq
    exact absurd (h.symm.trans heq) hne
  · intro hne heq
    exact absurd (h.symm.trans heq) hne
  · intro hl hc
    rw [h, hl] at hc
    cases hc

/-- So is one into a state that the property does not mention. -/
theorem orderlyStep_of_enters (hs : st'.tcb.state = s) (h : s ≠ .finWait2) (h' : s ≠ .timeWait)
    (h'' : s ≠ .closed) : OrderlyStep st st' := by
  rw [← hs] at h h' h''
  exact ⟨fun _ he => absurd he h, fun _ he => absurd he h', fun _ hc => absurd hc h''⟩

/-- The invariant holds after a section, and the section was orderly. -/
def Carried (iss : Nat) (st st' : Closer) : Prop := CloserInv iss st' ∧ OrderlyStep st st'

theorem Closing.una_eq {handed : Nat} {out : Bool} (h : Closing iss una handed out t) :
    t.sndUna = serial iss una :=
  h.elim (·.una_eq) (·.1.una_eq)

theorem Closing.observe {handed : Nat} (h : Closing iss una handed st.finOut t')
    (outs : List TcpOut) : Closing iss una handed (st.observe t outs).finOut t' :=
  h.imp_right fun h => ⟨h.1, Closer.observe_finOut h.2 outs⟩

/-- If the FIN is not due any more, it is sent. -/
theorem Closing.sent {handed : Nat} {out : Bool} (h : Closing iss una handed out t)
    (hp : t.state.phase = .closing) (hdue : ¬ t.FinDue) :
    FinFlight iss una handed t ∧ out = true := by
  refine h.resolve_left fun hsend => hdue ⟨?_, hsend.finSent⟩
  revert hp
  cases t.state <;> simp [TcpState.phase]

/-- A section that keeps the state keeps its phase, whether or not `snd_una` moves. -/
theorem CloserInv.stay (h : CloserInv iss st) (hcore : SameCore st.tcb t) (outs : List TcpOut)
    (hopen : st.tcb.state.phase = .opening → Opening iss st.una st.handed st.tcb →
      Opening iss st.una st.handed t)
    (hsend : st.tcb.state.phase = .sending → Sending iss st.una st.handed st.tcb →
      st.tcb.pendFin = false →
      t.pendFin = false ∧ Moved (fun una => Sending iss una st.handed t) st.una st.acked)
    (hclose : st.tcb.state.phase = .closing → Closing iss st.una st.handed st.finOut st.tcb →
      Moved (fun una => Closing iss una st.handed (st.observe t outs).finOut t) st.una st.acked) :
    Carried iss st (st.observe t outs) := by
  refine ⟨⟨hcore.isListener.trans h.listener, ?_⟩, orderlyStep_of_state_eq hcore.state⟩
  show PhaseOk iss _ t.state.phase
  rw [hcore.state]
  have hphase := h.phase
  cases hp : st.tcb.state.phase with
  | opening =>
    rw [hp] at hphase
    have hnew := hopen hp hphase
    show Opening iss (st.observe t outs).una st.handed t
    rw [Closer.observe_una_same (hnew.sndUna.trans (Opening.sndUna hphase).symm)]
    exact hnew
  | sending =>
    rw [hp] at hphase
    obtain ⟨⟨hold, hpend⟩, hle⟩ := hphase
    obtain ⟨hpend', una, hge, hlt, hnew, hacked⟩ := hsend hp hold hpend
    have hobs := Closer.observe_una hold.una_eq hnew.una_eq hge hlt outs
    show (Sending iss (st.observe t outs).una st.handed t ∧ _) ∧
      (st.observe t outs).una ≤ st.acked
    rw [hobs]
    exact ⟨⟨hnew, hpend'⟩, by omega⟩
  | closing =>
    rw [hp] at hphase
    obtain ⟨hold, hle⟩ := hphase
    obtain ⟨una, hge, hlt, hnew, hacked⟩ := hclose hp hold
    have hobs := Closer.observe_una (Closing.una_eq hold) (Closing.una_eq hnew) hge hlt outs
    show Closing iss (st.observe t outs).una st.handed _ t ∧ (st.observe t outs).una ≤ st.acked
    rw [hobs]
    exact ⟨hnew, by omega⟩
  | finAcked =>
    rw [hp] at hphase
    exact ⟨Closer.observe_finOut hphase.1 outs, hphase.2⟩
  | ended => trivial

/-- A section that leaves the send side alone keeps the invariant. -/
theorem CloserInv.of_sendSame (h : CloserInv iss st) (hs : SendSame st.tcb t)
    (outs : List TcpOut) : Carried iss st (st.observe t outs) := by
  refine h.stay ⟨hs.state, hs.isListener⟩ outs ?_ ?_ ?_
  · exact fun _ hopen => hopen.of_sendSame hs
  · exact fun _ hsend hpend => ⟨hs.pendFin.trans hpend, .stay (hsend.of_sendSame hs)⟩
  · exact fun _ hclosing => .stay ((hclosing.of_sendSame hs).observe outs)

/-- The rounds of `tcp_try_send`. -/
theorem CloserInv.trySendLoop (h : CloserInv iss st) (now fuel : Nat) :
    Carried iss st
      (st.observe (trySendLoop now fuel st.tcb).1 (trySendLoop now fuel st.tcb).2) := by
  refine h.stay (trySendLoop_sameCore now fuel _) _ ?_ ?_ ?_
  · intro hp hopen
    have hidle : st.tcb.state.sends = false := by
      revert hp
      cases st.tcb.state <;> simp [TcpState.phase, TcpState.sends]
    rw [trySendLoop_of_not_sends now fuel hidle]
    exact hopen
  · intro _ hsend hpend
    refine ⟨?_, ?_⟩
    · obtain ⟨nxt, timing, seq, start, rexmit, fin, hloop⟩ := trySendLoop_eq now fuel st.tcb
      rw [hloop]
      exact hpend
    rcases hsend.trySendLoop now fuel with hsend | ⟨hdue, -⟩
    · exact .stay hsend
    · rw [hpend] at hdue
      cases hdue
  · rintro _ (hsend | ⟨hfin, hout⟩)
    · rcases hsend.trySendLoop now fuel with hsend | ⟨-, hfin, hout⟩
      · exact .stay (.inl hsend)
      · exact .stay (.inr ⟨hfin, by simp [Closer.observe, hout]⟩)
    · rw [hfin.trySendLoop]
      exact .stay (.inr ⟨hfin, Closer.observe_finOut hout []⟩)

/-- The handshake is acknowledged: sending can begin. -/
theorem Opening.establish {handed : Nat} {t' : TcpTcb} (h : Opening iss una handed t)
    (hack : seg.ack = u32 (t.iss + 1)) (huna : t'.sndUna = seg.ack) (hnxt : t'.sndNxt = t.sndNxt)
    (hbuf : t'.sndbuf = t.sndbuf) (hfin : t'.finSent = t.finSent) :
    Sending iss 1 handed t' := by
  have hone : u32 (t.iss + 1) = serial iss 1 := by
    rw [h.iss_eq]
    unfold u32 serial
    omega
  refine ⟨by rw [huna, hack, hone]; rfl, ⟨0, Nat.zero_le _, ?_⟩, ?_, ?_, hfin.trans h.finSent⟩
  · rw [hnxt, h.sndNxt]
    rfl
  · rw [hbuf, h.buf_nil, h.handed_eq]
    rfl
  · rw [hbuf, h.buf_nil]
    exact Nat.zero_le _

/-- The acknowledgement of the handshake counts as acknowledged. -/
theorem AckAt.handshake (hk : AckAt iss una seg k) (huna : una = 0) (hiss : iss = t.iss)
    (hack : seg.ack = u32 (t.iss + 1)) : k = 1 := by
  have hbelow := hk.below
  have hone : serial iss k = serial iss 1 := by
    rw [← hk.ack_eq, hack, hiss]
    unfold u32 serial
    omega
  have := serial_inj (by omega) (by omega) hone
  omega

section

variable (h : CloserInv iss st)
include h

/-- The handshake part of the first section. -/
theorem closerInv_establish (hp : st.tcb.state.phase = .opening)
    (hseg : seg.ack = u32 (st.tcb.iss + 1)) (hack : ∃ k, AckAt iss st.una seg k ∧ k ≤ st.acked)
    (hstate : t.state = .established) (hlist : t.isListener = st.tcb.isListener)
    (huna : t.sndUna = seg.ack) (hnxt : t.sndNxt = st.tcb.sndNxt) (hbuf : t.sndbuf = st.tcb.sndbuf)
    (hpend : t.pendFin = st.tcb.pendFin) (hfin : t.finSent = st.tcb.finSent) (outs : List TcpOut) :
    Carried iss st (st.observe t outs) := by
  have hopen : Opening iss st.una st.handed st.tcb := by
    have hphase := h.phase
    rw [hp] at hphase
    exact hphase
  have hsend := hopen.establish hseg huna hnxt hbuf hfin
  obtain ⟨k, hk, hle⟩ := hack
  have hk1 := hk.handshake hopen.una_eq hopen.iss_eq hseg
  have hzero := hopen.una_eq
  have hsnd : st.tcb.sndUna = serial iss st.una := by rw [hzero]; exact hopen.sndUna
  have hobs := Closer.observe_una hsnd hsend.una_eq (by omega) (by omega) outs
  refine ⟨⟨hlist.trans h.listener, ?_⟩, ?_⟩
  · show PhaseOk iss _ t.state.phase
    rw [hstate]
    show (Sending iss (st.observe t outs).una st.handed t ∧ _) ∧ (st.observe t outs).una ≤ st.acked
    rw [hobs]
    exact ⟨⟨hsend, hpend.trans hopen.pendFin⟩, by omega⟩
  · exact orderlyStep_of_enters hstate nofun nofun nofun

/-- The acknowledgement part of the first section. The FIN is not due. -/
theorem closerInv_inputAck (now : Nat) (hs : SendSame st.tcb t)
    (hack : seg.flags.ack = true → ∃ k, AckAt iss st.una seg k ∧ k ≤ st.acked)
    (hdue : ¬ st.tcb.FinDue) (hsent : st.tcb.state ≠ .synSent)
    (hrcvd : st.tcb.state ≠ .synRcvd) :
    Carried iss st (st.observe (inputAck now t seg).1 []) := by
  have hcore := inputAck_sameCore now t seg
  refine h.stay ⟨hcore.state.trans hs.state, hcore.isListener.trans hs.isListener⟩ [] ?_ ?_ ?_
  · intro hp
    exfalso
    revert hp hsent hrcvd
    cases st.tcb.state <;> simp [TcpState.phase]
  · intro _ hsend hpend
    refine ⟨?_, (hsend.of_sendSame hs).inputAck now hack⟩
    exact (inputAck_pendFin now t seg).trans (hs.pendFin.trans hpend)
  · intro hp hclosing
    obtain ⟨hfin, hout⟩ := hclosing.sent hp hdue
    obtain ⟨una, hge, hlt, hnew, hacked⟩ := (hfin.of_sendSame hs).inputAck now hack
    have hout' := Closer.observe_finOut (t := (inputAck now t seg).1) hout []
    exact ⟨una, hge, hlt, hnew.imp_right fun hnew => ⟨hnew, hout'⟩, hacked⟩

/-- The first section of `tcp_input`. -/
theorem closerInv_start (hrst : seg.flags.rst = false)
    (hack : seg.flags.ack = true → ∃ k, AckAt iss st.una seg k ∧ k ≤ st.acked)
    (hdue : ¬ st.tcb.FinDue) (now : Nat) :
    Carried iss st (st.observe (inputStart now st.tcb seg).1 (inputStart now st.tcb seg).2.1) := by
  have hsame := inputWnd_sendSame st.tcb seg
  unfold inputStart
  rw [if_neg (by simp [hrst])]
  generalize inputWnd (inputOpts st.tcb seg) seg = t at hsame
  unfold inputSynchronize
  split
  · next hs =>
    rw [hsame.state] at hs
    split
    · next hsyn =>
      simp only [Bool.and_eq_true, beq_iff_eq] at hsyn
      obtain ⟨⟨_, hflag⟩, hseg⟩ := hsyn
      rw [hsame.iss] at hseg
      exact closerInv_establish (t := synSentEstablish t seg) h (by rw [hs]; rfl) hseg
        (hack hflag) rfl hsame.isListener rfl hsame.sndNxt hsame.sndbuf hsame.pendFin
        hsame.finSent _
    · exact h.of_sendSame hsame _
  split
  · next hs =>
    rw [hsame.state] at hs
    split
    · next hsyn =>
      simp only [Bool.and_eq_true, beq_iff_eq] at hsyn
      obtain ⟨hflag, hseg⟩ := hsyn
      rw [hsame.iss] at hseg
      exact closerInv_establish (t := synRcvdEstablish t seg) h (by rw [hs]; rfl) hseg
        (hack hflag) rfl hsame.isListener rfl hsame.sndNxt hsame.sndbuf hsame.pendFin
        hsame.finSent _
    · exact h.of_sendSame hsame _
  · next hsent hrcvd =>
    rw [hsame.state] at hsent hrcvd
    exact closerInv_inputAck h now hsame hack hdue hsent hrcvd

/-- The state changes on an acknowledgement: only an acknowledged FIN makes
    `snd_una` equal to `snd_nxt`. -/
theorem closerInv_transitions (hdue : ¬ st.tcb.FinDue) :
    Carried iss st (st.observe (ackTransitions st.tcb) []) := by
  have hphase := h.phase
  by_cases hclosing : st.tcb.state.phase = .closing
  · rw [hclosing] at hphase
    obtain ⟨hc, hle⟩ := hphase
    obtain ⟨hfin, hout⟩ := hc.sent hclosing hdue
    have hout' := Closer.observe_finOut (t := ackTransitions st.tcb) hout []
    rcases hfin.place with ⟨hu, hn⟩ | ⟨hu, hn, -⟩
    · -- something is in flight, so the test fails
      have hne : st.tcb.sndUna ≠ st.tcb.sndNxt := by
        rw [hfin.una_eq, hn]
        intro heq
        have := serial_inj (by omega) (by omega) heq
        omega
      have hsame : ackTransitions st.tcb = st.tcb := by
        simp [ackTransitions, hne]
      rw [hsame]
      exact h.of_sendSame (.refl _) []
    · have heq : st.tcb.sndUna = st.tcb.sndNxt := hfin.una_eq.trans hn.symm
      have hall : 2 + st.handed ≤ st.acked := by omega
      cases hs : st.tcb.state <;> rw [hs] at hclosing <;> try cases hclosing
      · -- FIN_WAIT1
        have hnext : ackTransitions st.tcb = { st.tcb with state := .finWait2 } := by
          simp [ackTransitions, hs, heq]
        rw [hnext] at hout' ⊢
        exact ⟨⟨h.listener, hout', hall⟩, fun _ _ => ⟨hout', hall⟩, nofun, nofun⟩
      · -- LAST_ACK
        have hnext : ackTransitions st.tcb = { st.tcb with state := .closed } := by
          simp [ackTransitions, hs, heq]
        rw [hnext] at hout' ⊢
        exact ⟨⟨h.listener, trivial⟩, nofun, nofun, fun _ _ => ⟨hout', hall⟩⟩
  -- in the other phases the state stays
  have hsame : ackTransitions st.tcb = st.tcb := by
    unfold ackTransitions
    cases hs : st.tcb.state <;> simp_all [TcpState.phase]
  rw [hsame]
  exact h.of_sendSame (.refl _) []

/-- The FIN part of `tcp_input`. -/
theorem closerInv_fin (hdue : ¬ st.tcb.FinDue) (now : Nat) :
    Carried iss st (st.observe (inputFin now st.tcb seg).1 (inputFin now st.tcb seg).2.1) := by
  unfold inputFin
  split
  case isFalse => exact h.of_sendSame (.refl _) _
  have hsame : SendSame st.tcb { st.tcb with rcvNxt := u32 (st.tcb.rcvNxt + 1), finSeen := true } :=
    ⟨rfl, rfl, rfl, rfl, rfl, rfl, rfl, rfl, rfl, rfl⟩
  generalize { st.tcb with rcvNxt := u32 (st.tcb.rcvNxt + 1), finSeen := true } = t at hsame ⊢
  have hidle : Carried iss st (st.observe t []) := h.of_sendSame hsame _
  have hphase : PhaseOk iss _ t.state.phase := hidle.1.phase
  unfold finTransitions
  split
  · -- ESTABLISHED to CLOSE_WAIT, both sending
    next hs =>
    rw [hs] at hphase
    obtain ⟨⟨hsend, hpend⟩, hle⟩ := hphase
    refine ⟨⟨hsame.isListener.trans h.listener, ?_⟩, orderlyStep_of_enters rfl nofun nofun nofun⟩
    exact ⟨⟨⟨hsend.una_eq, hsend.inflight, hsend.handed_eq, hsend.buf_le, hsend.finSent⟩, hpend⟩,
      hle⟩
  split
  · -- TIME_WAIT
    next hs =>
    have hall : st.finOut = true ∧ 1 + st.handed ≤ st.acked := by
      have hold := h.phase
      rw [hsame.state] at hs
      rcases hs with hs | hs
      · have hp : st.tcb.state.phase = .closing := by rw [hs]; rfl
        rw [hp] at hold
        obtain ⟨hfin, hout⟩ := hold.1.sent hp hdue
        exact ⟨hout, hfin.handed_le.trans hold.2⟩
      · rw [hs] at hold
        obtain ⟨hout, hle⟩ := hold
        exact ⟨hout, by omega⟩
    refine ⟨⟨hsame.isListener.trans h.listener, trivial⟩, nofun, ?_, nofun⟩
    intro _ _
    exact ⟨Closer.observe_finOut hall.1 _, hall.2⟩
  · exact h.of_sendSame hsame _

/-- The sections of `tcp_input`. -/
theorem closerInv_input (hstart : ∀ seg, pc = .start seg → seg.flags.rst = false ∧
      (seg.flags.ack = true → ∃ k, AckAt iss st.una seg k ∧ k ≤ st.acked))
    (hfirst : st.tcb.FinDue → pc.sends = true) (now : Nat) (alloc : Bool) :
    Carried iss st (st.observe (inputSection now alloc st.tcb pc).1
      (inputSection now alloc st.tcb pc).2.1) := by
  cases pc with
  | idle => exact h.of_sendSame (.refl _) _
  | start seg =>
    obtain ⟨hrst, hack⟩ := hstart seg rfl
    exact closerInv_start h hrst hack (fun hdue => Bool.noConfusion (hfirst hdue)) now
  | resend seg => exact h.trySendLoop now _
  | transitions seg => exact closerInv_transitions h fun hdue => Bool.noConfusion (hfirst hdue)
  | data seg => exact h.of_sendSame (inputData_sendSame alloc st.tcb seg) _
  | fin seg => exact closerInv_fin h (fun hdue => Bool.noConfusion (hfirst hdue)) now
  | trySend => exact h.trySendLoop now _

/-- What the peer acknowledges is only noted. -/
theorem CloserInv.hear (k : Nat) (pc : InputPc) : CloserInv iss (st.hear k pc) := by
  have hmono : st.acked ≤ (st.hear k pc).acked := by
    cases pc with
    | start seg =>
      show st.acked ≤ if seg.flags.ack then max st.acked k else st.acked
      split <;> omega
    | _ => exact Nat.le_refl _
  have hsame : st.hear k pc = { st with acked := (st.hear k pc).acked } := by
    cases pc <;> rfl
  rw [hsame]
  refine ⟨h.listener, ?_⟩
  have hphase := h.phase
  show PhaseOk iss _ st.tcb.state.phase
  cases hp : st.tcb.state.phase with
  | opening =>
    rw [hp] at hphase
    exact hphase
  | sending | closing | finAcked =>
    rw [hp] at hphase
    exact ⟨hphase.1, hphase.2.trans hmono⟩
  | ended => trivial

/-- The part of `tcp_send` under the lock. -/
theorem closerInv_send (data : List UInt8) : Carried iss st (st.next (.send data)) := by
  by_cases htake : sendTake st.tcb data = 0
  · have hsame : st.next (.send data) = st := by
      simp [Closer.next, htake, appendSnd]
    rw [hsame]
    exact ⟨h, orderlyStep_of_state_eq rfl⟩
  refine ⟨⟨h.listener, ?_⟩, orderlyStep_of_state_eq rfl⟩
  show PhaseOk iss _ st.tcb.state.phase
  have hphase := h.phase
  unfold sendTake at htake
  split at htake
  · exact absurd rfl htake
  next hs =>
  have hp : st.tcb.state.phase = .sending := by
    revert hs
    cases st.tcb.state <;> simp [TcpState.phase]
  rw [hp] at hphase ⊢
  obtain ⟨⟨hold, hpend⟩, hle⟩ := hphase
  refine ⟨⟨?_, hpend⟩, hle⟩
  -- the bytes are added behind what the buffer holds
  have hroom : (data.take (sendTake st.tcb data)).length + st.tcb.sndbuf.length ≤ tcpSndbuf := by
    have := hold.buf_le
    simp only [sendTake, if_neg hs, List.length_take, TcpTcb.sndBuflen]
    omega
  show Sending iss st.una (st.handed + (data.take (sendTake st.tcb data)).length)
    (appendSnd st.tcb (data.take (sendTake st.tcb data)))
  generalize data.take (sendTake st.tcb data) = piece at hroom ⊢
  obtain ⟨f, hf, hnxt⟩ := hold.inflight
  have hhanded := hold.handed_eq
  have hlen : (appendSnd st.tcb piece).sndbuf.length = st.tcb.sndbuf.length + piece.length := by
    simp [appendSnd]
  exact ⟨hold.una_eq, ⟨f, by omega, hnxt⟩, by omega, by omega, hold.finSent⟩

/-- The close begins: the FIN is due. -/
theorem closerInv_requestFin (hp : st.tcb.state.phase = .sending) (now : Nat)
    (hs : s.phase = .closing) :
    Carried iss st (st.observe (requestFin (noteClose now st.tcb) s) []) := by
  have hphase := h.phase
  rw [hp] at hphase
  obtain ⟨⟨hsend, -⟩, hle⟩ := hphase
  refine ⟨⟨h.listener, ?_⟩, ?_⟩
  · show PhaseOk iss _ s.phase
    rw [hs]
    show Closing iss (st.observe _ []).una st.handed _ _ ∧ (st.observe _ []).una ≤ st.acked
    rw [Closer.observe_una_same (t := requestFin (noteClose now st.tcb) s) rfl]
    exact ⟨.inl ⟨hsend.una_eq, hsend.inflight, hsend.handed_eq, hsend.buf_le, hsend.finSent⟩, hle⟩
  · refine orderlyStep_of_enters rfl ?_ ?_ ?_ <;>
      · rintro rfl
        cases hs

theorem closerInv_close (now : Nat) : Carried iss st (st.next (.close now)) := by
  simp only [Closer.next, closeSection, h.listener, Bool.false_eq_true, if_false]
  split
  · next hs => exact closerInv_requestFin h (by rw [hs]; rfl) now rfl
  split
  · next hs => exact closerInv_requestFin h (by rw [hs]; rfl) now rfl
  · exact h.of_sendSame (t := noteClose now st.tcb)
      ⟨rfl, rfl, rfl, rfl, rfl, rfl, rfl, rfl, rfl, rfl⟩ _

/-- The timer goes back to `snd_una`: bytes or the FIN are to be sent again. -/
theorem closerInv_rewind (now retries : Nat) (hsyn : st.tcb.pendSyn = false)
    (htimer : st.tcb.rexmitMs ≠ 0) :
    Carried iss st (st.observe (rewind (backOff now st.tcb retries)) []) := by
  have hcore : SameCore st.tcb (rewind (backOff now st.tcb retries)) := ⟨rfl, rfl⟩
  refine h.stay hcore [] ?_ ?_ ?_
  · intro _ hopen
    have := hopen.pendSyn
    rw [hsyn] at this
    cases this
  · exact fun _ hsend hpend =>
      ⟨hpend, .stay (.rewound hsend.una_eq hsend.handed_eq hsend.buf_le rfl rfl)⟩
  · rintro _ (hsend | ⟨hfin, -⟩)
    · exact .stay (.inl (.rewound hsend.una_eq hsend.handed_eq hsend.buf_le rfl rfl))
    · exact .stay (.inl (hfin.rewind now retries htimer))

/-- The timer runs out before the handshake is acknowledged. -/
theorem closerInv_backOff (now retries : Nat) (htimer : st.tcb.rexmitMs ≠ 0)
    (outs : List TcpOut) : Carried iss st (st.observe (backOff now st.tcb retries) outs) := by
  have hcore : SameCore st.tcb (backOff now st.tcb retries) := ⟨rfl, rfl⟩
  have hsending : ∀ {una}, Sending iss una st.handed st.tcb →
      Sending iss una st.handed (backOff now st.tcb retries) := fun hsend =>
    ⟨hsend.una_eq, hsend.inflight, hsend.handed_eq, hsend.buf_le, hsend.finSent⟩
  refine h.stay hcore outs ?_ ?_ ?_
  · exact fun _ hopen => ⟨hopen.una_eq, hopen.sndUna, hopen.sndNxt, hopen.handed_eq,
      hopen.buf_nil, hopen.pendSyn, hopen.pendFin, hopen.finSent, hopen.iss_eq⟩
  · exact fun _ hsend hpend => ⟨hpend, .stay (hsending hsend)⟩
  · rintro _ (hsend | ⟨hfin, hout⟩)
    · exact .stay (.inl (hsending hsend))
    · -- the timer is on, so the FIN is in flight
      have hplace := hfin.place.resolve_right fun hacked => htimer hacked.2.2
      exact .stay (.inr ⟨⟨hfin.una_eq, hfin.buf_nil, hfin.finSent, .inl hplace⟩,
        Closer.observe_finOut hout outs⟩)

theorem closerInv_tick (now : Nat) : Carried iss st (st.next (.tick now)) := by
  simp only [Closer.next, tickSection]
  split
  · exact h.of_sendSame (.refl _) _
  split
  · next htimer =>
    split
    · exact h.of_sendSame (t := { st.tcb with retries := st.tcb.retries + 1, reset := true })
        ⟨rfl, rfl, rfl, rfl, rfl, rfl, rfl, rfl, rfl, rfl⟩ _
    split
    · exact closerInv_backOff h now _ htimer.1 _
    · next hsyn => exact closerInv_rewind h now _ (by simpa using hsyn) htimer.1
  · exact h.of_sendSame (.refl _) _

/-- **Step.** Every section keeps the invariant and is orderly, if no segment is
    worked on while the FIN is due. -/
theorem closerInv_next {call : CloserCall} (hallow : st.allows iss call)
    (hfirst : finFirst st call) : Carried iss st (st.next call) := by
  cases call with
  | input now alloc pc k =>
    have hstart : ∀ seg, pc = .start seg → seg.flags.rst = false ∧ (seg.flags.ack = true →
        ∃ i, AckAt iss (st.hear k pc).una seg i ∧ i ≤ (st.hear k pc).acked) := by
      rintro seg rfl
      obtain ⟨hrst, hack⟩ : Conforming iss st seg k := hallow
      refine ⟨hrst, fun hflag => ⟨k, (hack hflag).1, ?_⟩⟩
      show k ≤ if seg.flags.ack then max st.acked k else st.acked
      rw [if_pos hflag]
      exact Nat.le_max_right _ _
    have htcb : (st.hear k pc).tcb = st.tcb := by cases pc <;> rfl
    have hcarried := closerInv_input (CloserInv.hear h k pc) hstart (htcb ▸ hfirst) now alloc
    cases pc <;>
      exact ⟨hcarried.1, hcarried.2.finWait2, hcarried.2.timeWait, hcarried.2.closed⟩
  | send data => exact closerInv_send h data
  | recv len nonblock killed => exact h.of_sendSame (tcpRecv_sendSame st.tcb len nonblock killed) _
  | close now => exact closerInv_close h now
  | round now => exact h.trySendLoop now 1
  | tick now => exact closerInv_tick h now

end

theorem closerInv_opened (h : st.Opened iss) : CloserInv iss st := by
  obtain ⟨now, buf, htcb, rfl, hhanded, hacked, huna, hsent, hout⟩ := h
  have hone : ∀ n : Nat, u32 (u32 n + 1) = serial (u32 n) 1 := by
    intro n
    unfold u32 serial
    omega
  have hzero : ∀ n : Nat, u32 n = serial (u32 n) 0 := by
    intro n
    unfold u32 serial
    omega
  -- the two sides differ in the state and in what was received
  rcases htcb with htcb | ⟨seq, htcb⟩ <;>
  · refine ⟨by rw [htcb]; rfl, ?_⟩
    rw [htcb]
    show Opening _ st.una st.handed st.tcb
    rw [huna, hhanded, htcb]
    exact ⟨rfl, hzero _, hone _, rfl, rfl, rfl, rfl, rfl, rfl⟩

theorem closerInv_reachable (hr : ((closerSystem iss).restrict finFirst).Reachable st) :
    CloserInv iss st := by
  refine System.Reachable.induct ?_ ?_ hr
  · exact fun s hs => closerInv_opened hs
  · rintro s call _ _ hinv ⟨hfirst, hallow, rfl⟩
    exact (closerInv_next hinv hallow hfirst).1

end Steps

/-! ## Section 7: Orderly close -/

/-- **Orderly close.** In a run where no segment is worked on while the FIN is
    due, the connection enters `FIN_WAIT2`, `TIME_WAIT` and, from `LAST_ACK`,
    `CLOSED` only when its FIN has gone out and all is acknowledged. -/
theorem orderly_close (iss : Nat) (st st' : Closer) (call : CloserCall)
    (hr : ((closerSystem iss).restrict finFirst).Reachable st)
    (hstep : ((closerSystem iss).restrict finFirst).step st call st') :
    OrderlyStep st st' := by
  obtain ⟨hfirst, hallow, rfl⟩ := hstep
  exact (closerInv_next (closerInv_reachable hr) hallow hfirst).2

instance : Decidable t.FinDue := inferInstanceAs (Decidable (_ ∧ _))

instance (call : CloserCall) : Decidable (finFirst st call) := by
  cases call <;> unfold finFirst <;> infer_instance

instance {seg : TcpSegment} : Decidable (AckAt iss una seg k) :=
  decidable_of_iff (seg.ack = serial iss k ∧ una < k + 2 ^ 31 ∧ k < una + 2 ^ 31)
    ⟨fun h => ⟨h.1, h.2.1, h.2.2⟩, fun h => ⟨h.ack_eq, h.above, h.below⟩⟩

instance {seg : TcpSegment} : Decidable (Conforming iss st seg k) :=
  decidable_of_iff (seg.flags.rst = false ∧
    (seg.flags.ack = true → AckAt iss st.una seg k ∧ k ≤ st.sent))
    ⟨fun h => ⟨h.1, h.2⟩, fun h => ⟨h.rst, h.ack⟩⟩

/-- A section, if its segment is from a conforming peer. -/
def Closer.attempt (iss : Nat) (st : Closer) (call : CloserCall) : Option Closer :=
  match call with
  | .input _ _ (.start seg) k => if Conforming iss st seg k then some (st.next call) else none
  | _ => some (st.next call)

theorem Closer.attempt_step {st' : Closer} {call : CloserCall}
    (h : st.attempt iss call = some st') :
    (closerSystem iss).step st call st' := by
  unfold Closer.attempt at h
  split at h
  · obtain ⟨hconf, hnext⟩ := Option.ite_none_right_eq_some.mp h
    exact ⟨hconf, (Option.some.inj hnext).symm⟩
  · next hne =>
    refine ⟨?_, (Option.some.inj h).symm⟩
    unfold Closer.allows
    split
    · next now alloc seg k => exact absurd rfl (hne now alloc seg k)
    · trivial

/-- An acknowledgement without data. -/
def pureAck (ack : Nat) (h : ack < 2 ^ 32) : TcpSegment :=
  ⟨1, ack, { ack := true }, 0, [], [], by decide, h, by decide⟩

/-- The initial sequence number of a connection opened at time 0. -/
def sampleIss : Nat := 0x5a5a

def sampleOpened : Closer := ⟨(tcpAcceptSyn 0 (fun _ => 0) 0).1, 0, 0, 0, 1, false⟩

theorem sampleOpened_opened : sampleOpened.Opened sampleIss :=
  ⟨0, fun _ => 0, .inr ⟨0, rfl⟩, by decide, rfl, rfl, rfl, rfl, rfl⟩

/-- Acknowledgements of the SYN, of the byte behind it, and of the FIN behind that, the last with
    the peer's FIN. -/
def ackSyn : TcpSegment := pureAck (sampleIss + 1) (by decide)

@[inherit_doc ackSyn] def ackByte : TcpSegment := pureAck (sampleIss + 2) (by decide)

@[inherit_doc ackSyn] def ackFin : TcpSegment :=
  { pureAck (sampleIss + 3) (by decide) with flags := { ack := true, fin := true } }

/-- Established, one byte handed over and in flight. -/
def sendOne : List CloserCall := [.input 0 true (.start ackSyn) 1, .send [65], .round 0]

/-- The byte is acknowledged, then the connection closed, and the FIN sent twice. -/
def closeOne : List CloserCall :=
  sendOne ++ [.input 0 true (.start ackByte) 2, .input 0 true (.transitions ackByte) 2, .close 0,
    .round 0, .tick 5000, .round 5000, .input 5000 true (.start ackFin) 3]

/-- The last section of the run, then the state changes on the acknowledgement and on the peer's
    FIN. -/
def Closer.acksFin (st : Closer) : Closer := st.next (.input 5000 true (.transitions ackFin) 3)

@[inherit_doc Closer.acksFin] def Closer.seesFin (st : Closer) : Closer :=
  st.acksFin.next (.input 5000 true (.fin ackFin) 3)

/-- The FIN, sent twice, is acknowledged together with the peer's: `FIN_WAIT2` and `TIME_WAIT` are
    entered in order. -/
theorem orderly_close_resent : ∃ st, OrderlyStep st st.acksFin ∧
    OrderlyStep st.acksFin st.seesFin ∧ st.tcb.state = .finWait1 ∧
    st.acksFin.tcb.state = .finWait2 ∧ st.seesFin.tcb.state = .timeWait ∧
    st.acksFin.finOut = true ∧ st.acksFin.handed = 1 ∧ st.acksFin.acked = 3 := by
  have hrun : (System.replay (fun st call =>
      if finFirst st call then st.attempt sampleIss call else none) sampleOpened closeOne).map
        (fun st => ([st.tcb.state, st.acksFin.tcb.state, st.seesFin.tcb.state],
          st.tcb.finSent, st.acksFin.finOut, st.acksFin.handed, st.acksFin.acked)) =
      some ([.finWait1, .finWait2, .timeWait], true, true, 1, 3) := by
    decide +kernel
  obtain ⟨st, hst, hend⟩ := Option.map_eq_some_iff.mp hrun
  simp only [Prod.mk.injEq, List.cons.injEq] at hend
  obtain ⟨⟨h1, h2, h3, -⟩, hsent, hout, hhanded, hacked⟩ := hend
  have hr : ((closerSystem sampleIss).restrict finFirst).Reachable st :=
    System.Reachable.replay_restrict (fun _ _ _ => Closer.attempt_step) (.init sampleOpened_opened)
      hst
  have hstep : ((closerSystem sampleIss).restrict finFirst).step st
      (.input 5000 true (.transitions ackFin) 3) st.acksFin :=
    ⟨fun hdue => absurd (hsent.symm.trans hdue.2) (by decide), trivial, rfl⟩
  have hstep' : ((closerSystem sampleIss).restrict finFirst).step st.acksFin
      (.input 5000 true (.fin ackFin) 3) st.seesFin := by
    refine ⟨fun hdue => absurd hdue.1 ?_, trivial, rfl⟩
    rw [h2]
    decide
  exact ⟨st, orderly_close sampleIss _ _ _ hr hstep,
    orderly_close sampleIss _ _ _ (hr.step _ hstep) hstep', h1, h2, h3, hout, hhanded, hacked⟩

/-- The close while the byte is in flight, then the byte's acknowledgement, up to the state
    changes of `tcp_input`. -/
def closeEarly : List CloserCall :=
  sendOne ++ [.close 0, .round 0, .input 0 true (.start ackByte) 2]

/-- The byte in flight at the close is acknowledged: `FIN_WAIT2` is entered although no FIN was
    ever sent. -/
theorem finWait2_before_fin : ∃ st st', (closerSystem sampleIss).Reachable st ∧
    (closerSystem sampleIss).step st (.input 0 true (.transitions ackByte) 2) st' ∧
    st.tcb.state = .finWait1 ∧ st'.tcb.state = .finWait2 ∧ st'.finOut = false ∧
    ¬ OrderlyStep st st' := by
  have hrun : (System.replay (Closer.attempt sampleIss) sampleOpened closeEarly).map (fun st =>
      (st.tcb.state, (st.next (.input 0 true (.transitions ackByte) 2)).tcb.state,
        (st.next (.input 0 true (.transitions ackByte) 2)).finOut)) =
      some (.finWait1, .finWait2, false) := by
    decide +kernel
  obtain ⟨st, hst, hend⟩ := Option.map_eq_some_iff.mp hrun
  simp only [Prod.mk.injEq] at hend
  obtain ⟨hstate, hnext, hout⟩ := hend
  have hr : (closerSystem sampleIss).Reachable st :=
    System.Reachable.replay (fun _ _ _ => Closer.attempt_step) (.init sampleOpened_opened) hst
  refine ⟨st, _, hr, ⟨trivial, rfl⟩, hstate, hnext, hout, fun horderly => ?_⟩
  have hfin := (horderly.finWait2 (by rw [hstate]; decide) hnext).1
  rw [hout] at hfin
  cases hfin

end Cervus.Tcp
