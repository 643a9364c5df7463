import Cervus.Net.TcpClose

/-! # The bytes that are sent

    The send buffer holds the bytes that are not acknowledged, and `snd_una` is the sequence
    number of the first of them. Acknowledgements shift the buffer, loss recovery takes `snd_nxt`
    back to `snd_una`, and the FIN takes one sequence number that is in no buffer. Through all
    this a data segment with sequence number `s` carries the bytes of the application from
    position `s - (iss + 1)` on (`send_stream_integrity`).

    The lock of the control block is released between the rounds of `tcp_try_send` and between
    the sections of `tcp_input`, `tcp_send`, `tcp_close` and `tcp_tick`. A step here is one
    section, of any call at any time, so the runs contain every interleaving of calls; the calls
    themselves are runs (`reachable_trySend`). -/

namespace Cervus.Tcp

open List

/-! ## Section 1: Runs of a sender -/

/-- A segment that went out when `acked` bytes were acknowledged. -/
structure Emitted where
  acked : Nat
  seg   : TcpOut

/-- A control block, the bytes that `tcp_send` took from the application, and the segments that
    went out. -/
structure Sender where
  tcb    : TcpTcb
  stream : List UInt8
  sent   : List Emitted

/-- What is not in the buffer any more is acknowledged. -/
def Sender.acked (st : Sender) : Nat := st.stream.length - st.tcb.sndBuflen

def Sender.emit (st : Sender) (r : TcpTcb × List TcpOut) : Sender :=
  { st with tcb := r.1, sent := st.sent ++ r.2.map fun seg => ⟨st.acked, seg⟩ }

inductive SenderCall where
  | send (data : List UInt8)
  | close (now : Nat)
  | input (now : Nat) (alloc : Bool) (pc : InputPc)
  | round (now : Nat)
  | tick (now : Nat)
  | recv (len : Nat) (nonblock killed : Bool)

def Sender.next (st : Sender) : SenderCall → Sender
  | .send data =>
    let piece := data.take (sendTake st.tcb data)
    { st with tcb := appendSnd st.tcb piece, stream := st.stream ++ piece }
  | .close now => { st with tcb := closeSection now st.tcb }
  | .input now alloc pc =>
    let r := inputSection now alloc st.tcb pc
    st.emit (r.1, r.2.1)
  | .round now => st.emit (sendRound now st.tcb)
  | .tick now => st.emit (tickSection now st.tcb)
  | .recv len nonblock killed =>
    let r := tcpRecv st.tcb len nonblock killed
    st.emit (r.1, r.2.1)

/-- The handshake is over: the SYN is acknowledged and nothing else was sent. -/
structure Opened (iss : Nat) (t : TcpTcb) : Prop where
  state   : t.state = .established
  sndUna  : t.sndUna = u32 (iss + 1)
  sndNxt  : t.sndNxt = u32 (iss + 1)
  sndbuf  : t.sndbuf = []
  pendFin : t.pendFin = false
  finSent : t.finSent = false

/-- All runs of an open connection. -/
def senderSystem (iss : Nat) : System Sender SenderCall where
  init := fun st => Opened iss st.tcb ∧ st.stream = [] ∧ st.sent = []
  step := fun st call st' => st' = st.next call

/-- The data of a segment is the application's, from the position of its sequence number on.
    That position is in the part of the stream that was not acknowledged when it was sent. -/
def CarriesStream (iss : Nat) (stream : List UInt8) (e : Emitted) : Prop :=
  e.seg.data ≠ [] → ∃ pos, e.acked ≤ pos ∧ pos < e.acked + tcpSndbuf ∧
    e.seg.seq = u32 (iss + 1 + pos) ∧ e.seg.data <+: stream.drop pos

/-! ## Section 2: The buffer and the sequence numbers -/

/-- The states in which `tcp_send` takes bytes. -/
def TcpState.takesData : TcpState → Bool
  | .established | .closeWait => true
  | _ => false

/-- `acked` bytes of the stream are acknowledged, the others are in the buffer, and `snd_una` and
    `snd_nxt` are positions in it. -/
structure DataPhase (iss acked : Nat) (t : TcpTcb) : Prop where
  finSent : t.finSent = false
  una_eq  : t.sndUna = serial (iss + 1) acked
  nxt_eq  : ∃ f : Nat, f ≤ t.sndbuf.length ∧ t.sndNxt = serial (iss + 1) (acked + f : Nat)

/-- Everything is acknowledged, and only the FIN can be in flight. -/
structure FinPhase (t : TcpTcb) : Prop where
  buf_nil : t.sndbuf = []
  pendFin : t.pendFin = true
  una_lt  : t.sndUna < 2 ^ 32
  nxt_eq  : t.sndNxt = t.sndUna ∨ (t.finSent = true ∧ t.sndNxt = u32 (t.sndUna + 1))

structure SendInv (iss : Nat) (stream : List UInt8) (t : TcpTcb) : Prop where
  len_le : t.sndbuf.length ≤ stream.length
  buf_eq : t.sndbuf = stream.drop (stream.length - t.sndbuf.length)
  cap    : t.sndbuf.length ≤ tcpSndbuf
  opened : t.state ≠ .synSent ∧ t.state ≠ .synRcvd
  fin    : t.pendFin = true → t.state.takesData = false
  phase  : DataPhase iss (stream.length - t.sndbuf.length) t ∨ FinPhase t

section

variable {iss acked : Nat} {stream : List UInt8} {t t' : TcpTcb}

/-- A change that leaves the send side alone. The state may change, but not back to one in which
    bytes are taken after a FIN was asked for. -/
theorem SendInv.of_same (h : SendInv iss stream t)
    (hopen : t'.state ≠ .synSent ∧ t'.state ≠ .synRcvd)
    (hfin : t'.pendFin = true → t'.state.takesData = false)
    (hside : (t'.sndbuf, t'.sndUna, t'.sndNxt, t'.pendFin, t'.finSent) =
      (t.sndbuf, t.sndUna, t.sndNxt, t.pendFin, t.finSent)) : SendInv iss stream t' := by
  simp only [Prod.mk.injEq] at hside
  obtain ⟨hbuf, huna, hnxt, hpend, hsent⟩ := hside
  refine ⟨by rw [hbuf]; exact h.len_le, by rw [hbuf]; exact h.buf_eq, by rw [hbuf]; exact h.cap,
    hopen, hfin, ?_⟩
  rw [hbuf]
  rcases h.phase with hdata | hlast
  · exact .inl ⟨hsent.trans hdata.finSent, huna.trans hdata.una_eq,
      by rw [hbuf, hnxt]; exact hdata.nxt_eq⟩
  · exact .inr ⟨hbuf.trans hlast.buf_nil, hpend.trans hlast.pendFin,
      by rw [huna]; exact hlast.una_lt, by rw [hnxt, huna, hsent]; exact hlast.nxt_eq⟩

theorem SendInv.of_sendSame (h : SendInv iss stream t) (hs : SendSame t t') :
    SendInv iss stream t' :=
  h.of_same (by rw [hs.state]; exact h.opened) (by rw [hs.pendFin, hs.state]; exact h.fin)
    (by rw [hs.sndbuf, hs.sndUna, hs.sndNxt, hs.pendFin, hs.finSent])

theorem sendInv_opened (h : Opened iss t) : SendInv iss [] t := by
  have hserial : u32 (iss + 1) = serial (iss + 1) 0 := by
    unfold u32 serial
    omega
  refine ⟨by rw [h.sndbuf], by rw [h.sndbuf]; rfl, by rw [h.sndbuf]; exact Nat.zero_le _,
    by rw [h.state]; decide, by rw [h.pendFin]; exact nofun,
    .inl ⟨h.finSent, ?_, 0, Nat.zero_le _, ?_⟩⟩
  · rw [h.sndUna, hserial, h.sndbuf]
    rfl
  · rw [h.sndNxt, hserial, h.sndbuf]
    rfl

/-- The sequence numbers in flight are those of the bytes in flight. -/
theorem DataPhase.inflight (h : DataPhase iss acked t)
    (hcap : t.sndbuf.length ≤ tcpSndbuf) {f : Nat} (hf : f ≤ t.sndbuf.length)
    (hn : t.sndNxt = serial (iss + 1) (acked + f : Nat)) : sub32 t.sndNxt t.sndUna = f := by
  have hbuf : tcpSndbuf = 16384 := rfl
  rw [hn, h.una_eq, sub32_serial (by omega) (by omega)]
  omega

/-- What is in flight is in the buffer, or it is the FIN. -/
theorem SendInv.inflight_le (h : SendInv iss stream t) :
    sub32 t.sndNxt t.sndUna ≤ t.sndBuflen + (if t.finSent then 1 else 0) := by
  rcases h.phase with hdata | hlast
  · obtain ⟨f, hf, hn⟩ := hdata.nxt_eq
    rw [hdata.inflight h.cap hf hn]
    exact Nat.le_trans hf (Nat.le_add_right _ _)
  rcases hlast.nxt_eq with heq | ⟨hsent, heq⟩
  · have hzero : sub32 t.sndNxt t.sndUna = 0 := by
      unfold sub32 u32
      omega
    rw [hzero]
    exact Nat.zero_le _
  have hone : sub32 t.sndNxt t.sndUna = 1 := by
    rw [heq]
    unfold sub32 u32
    omega
  rw [hone, hsent]
  exact Nat.le_add_left _ _

/-! ## Section 3: Rounds -/

theorem sendChunk_le (t : TcpTcb) : sendChunk t ≤ t.sndBuflen - sub32 t.sndNxt t.sndUna := by
  unfold sendChunk
  dsimp only
  split <;> omega

/-- A round that sends data, while `f` bytes are in flight. -/
theorem SendInv.sendData (h : SendInv iss stream t) (now : Nat) (hpos : 0 < sendChunk t) :
    SendInv iss stream (sendData now t).1 ∧
    CarriesStream iss stream ⟨stream.length - t.sndbuf.length, (sendData now t).2⟩ := by
  have hchunk := sendChunk_le t
  unfold TcpTcb.sndBuflen at hchunk
  rcases h.phase with hdata | hlast
  · obtain ⟨f, hf, hn⟩ := hdata.nxt_eq
    have hsub := hdata.inflight h.cap hf hn
    rw [hsub] at hchunk
    constructor
    · refine ⟨h.len_le, h.buf_eq, h.cap, h.opened, h.fin,
        .inl ⟨hdata.finSent, hdata.una_eq, f + sendChunk t, ?_, ?_⟩⟩
      · show f + sendChunk t ≤ t.sndbuf.length
        omega
      show u32 (t.sndNxt + sendChunk t) = _
      rw [hn, u32_serial_add]
      congr 1
      push_cast
      simp only [Tcp.sendData]
      omega
    intro _
    have hcap := h.cap
    refine ⟨stream.length - t.sndbuf.length + f, Nat.le_add_right _ _, ?_, ?_, ?_⟩
    · dsimp only
      omega
    · show t.sndNxt = _
      rw [hn]
      unfold serial u32
      omega
    show ((t.sndbuf.drop (sub32 t.sndNxt t.sndUna)).take (sendChunk t)).take tcpMss <+: _
    have hdrop : t.sndbuf.drop f = stream.drop (stream.length - t.sndbuf.length + f) := by
      conv_lhs => rw [h.buf_eq]
      rw [drop_drop]
    rw [hsub, hdrop, take_take]
    exact take_prefix _ _
  · rw [hlast.buf_nil] at hchunk
    exact absurd hpos (by simp only [length_nil] at hchunk; omega)

/-- A round that sends the FIN. -/
theorem SendInv.sendFin (h : SendInv iss stream t) (now : Nat) (hpend : t.pendFin = true)
    (hbuf : t.sndbuf = []) (heq : t.sndUna = t.sndNxt) : SendInv iss stream (sendFin now t).1 := by
  have hlt : t.sndUna < 2 ^ 32 := by
    rcases h.phase with hdata | hlast
    · rw [hdata.una_eq]
      exact serial_lt _ _
    · exact hlast.una_lt
  refine ⟨h.len_le, h.buf_eq, h.cap, h.opened, h.fin, .inr ⟨hbuf, hpend, hlt, .inr ⟨rfl, ?_⟩⟩⟩
  show u32 (t.sndNxt + 1) = _
  rw [← heq]
  rfl

/-- The rounds of `tcp_try_send` keep the invariant, leave the buffer as it is and send bytes of
    the stream. -/
theorem SendInv.trySendLoop (now fuel : Nat) : ∀ {t : TcpTcb}, SendInv iss stream t →
      SendInv iss stream (trySendLoop now fuel t).1 ∧
      ∀ o ∈ (trySendLoop now fuel t).2,
        CarriesStream iss stream ⟨stream.length - t.sndbuf.length, o⟩ := by
  induction fuel with
  | zero => exact fun h => ⟨h, forall_mem_nil _⟩
  | succ fuel ih =>
    intro t h
    simp only [Tcp.trySendLoop]
    split
    · exact ⟨h, forall_mem_nil _⟩
    split
    · next hpos =>
      obtain ⟨hinv, hcarries⟩ := h.sendData now hpos
      obtain ⟨hinv', hcarries'⟩ := ih hinv
      exact ⟨hinv', forall_mem_cons.mpr ⟨hcarries, hcarries'⟩⟩
    split
    · next hfin =>
      simp only [Bool.and_eq_true, beq_iff_eq, Bool.not_eq_true'] at hfin
      obtain ⟨⟨⟨hpend, -⟩, hlen⟩, heq⟩ := hfin
      refine ⟨h.sendFin now hpend (eq_nil_of_length_eq_zero hlen) heq, fun o ho => ?_⟩
      obtain rfl := mem_singleton.mp ho
      exact fun hne => absurd rfl hne
    · exact ⟨h, forall_mem_nil _⟩

/-! ## Section 4: Acknowledgements -/

section

variable (h : SendInv iss stream t)
include h

/-- Going back to the first byte that is not acknowledged. -/
theorem SendInv.rewind : SendInv iss stream (rewind t) := by
  refine ⟨h.len_le, h.buf_eq, h.cap, h.opened, h.fin, ?_⟩
  rcases h.phase with hdata | hlast
  · exact .inl ⟨rfl, hdata.una_eq, 0, Nat.zero_le _, hdata.una_eq⟩
  · exact .inr ⟨hlast.buf_nil, hlast.pendFin, hlast.una_lt, .inl rfl⟩

/-- An acknowledgement of something in flight. -/
theorem SendInv.ackAdvance (now : Nat) {ack : Nat} (hack : ack < 2 ^ 32)
    (hlow : 0 < i32 (sub32 ack t.sndUna)) (hhigh : i32 (sub32 ack t.sndNxt) ≤ 0) :
    SendInv iss stream (ackAdvance now t ack) := by
  obtain ⟨huna, hbuf, hnxt, hpend, hsent, -, hcore⟩ := ackAdvance_fields now t ack
  have hcap := h.cap
  have hlen := h.len_le
  have hsnd : tcpSndbuf = 16384 := rfl
  rcases h.phase with hdata | hlast
  · obtain ⟨f, hf, hn⟩ := hdata.nxt_eq
    -- the acknowledged position is `k` bytes on, and they are in flight
    obtain ⟨k, hk, hkf, hackeq⟩ : ∃ k : Nat, 0 < k ∧ k ≤ f ∧
        ack = serial (iss + 1) (stream.length - t.sndbuf.length + k : Nat) := by
      rw [hdata.una_eq] at hlow
      rw [hn] at hhigh
      generalize stream.length - t.sndbuf.length = acked at hlow hhigh ⊢
      refine ⟨sub32 ack (serial (iss + 1) acked), ?_, ?_, ?_⟩
      · unfold i32 sub32 u32 serial at *
        split at hlow <;> omega
      · unfold i32 sub32 u32 serial at *
        split at hlow <;> split at hhigh <;> omega
      · unfold sub32 u32 serial at *
        omega
    have hsub : sub32 ack t.sndUna = k := by
      rw [hackeq, hdata.una_eq, sub32_serial (by omega) (by omega)]
      omega
    have hacked : dataAcked t ack = k := by
      simp only [dataAcked, hdata.finSent, Bool.false_and, Bool.false_eq_true, if_false, hsub,
        TcpTcb.sndBuflen]
      omega
    have hlen' : (Tcp.ackAdvance now t ack).sndbuf.length = t.sndbuf.length - k := by
      rw [hbuf, hacked, length_drop]
    have hpos : stream.length - (t.sndbuf.length - k) = stream.length - t.sndbuf.length + k := by
      omega
    refine ⟨by omega, ?_, by omega, by rw [hcore.state]; exact h.opened,
      by rw [hpend, hcore.state]; exact h.fin, .inl ⟨hsent.trans hdata.finSent, ?_, f - k, ?_, ?_⟩⟩
    · rw [hlen', hbuf, hacked, hpos, ← drop_drop, ← h.buf_eq]
    · rw [huna, hlen', hpos, hackeq]
    · omega
    · rw [hnxt, hn, hlen', hpos]
      congr 1
      omega
  -- only the FIN can be acknowledged
  have hdrop : (Tcp.ackAdvance now t ack).sndbuf = [] := by
    rw [hbuf, hlast.buf_nil, drop_nil]
  refine ⟨by rw [hdrop]; exact Nat.zero_le _, by rw [hdrop]; simp,
    by rw [hdrop]; exact Nat.zero_le _, by rw [hcore.state]; exact h.opened,
    by rw [hpend, hcore.state]; exact h.fin,
    .inr ⟨hdrop, hpend.trans hlast.pendFin, by rw [huna]; exact hack, .inl ?_⟩⟩
  rw [hnxt, huna]
  rcases hlast.nxt_eq with heq | ⟨-, heq⟩
  · rw [heq] at hhigh
    omega
  · rw [heq] at hhigh ⊢
    unfold i32 sub32 u32 at *
    split at hlow <;> split at hhigh <;> omega

theorem SendInv.inputAck (now : Nat) (seg : TcpSegment) :
    SendInv iss stream (inputAck now t seg).1 := by
  unfold Tcp.inputAck
  split
  · split
    · next hwin => exact h.ackAdvance now seg.ack_lt hwin.1 hwin.2
    split
    · dsimp only
      split
      · -- the third duplicate goes back
        refine SendInv.rewind ?_
        exact h.of_same h.opened h.fin rfl
      · exact h.of_same h.opened h.fin rfl
    · exact h
  · exact h

/-- After the handshake a segment is reset or an acknowledgement. -/
theorem SendInv.inputStart (now : Nat) (seg : TcpSegment) :
    SendInv iss stream (inputStart now t seg).1 ∧ (inputStart now t seg).2.1 = [] := by
  unfold Tcp.inputStart
  split
  · exact ⟨h.of_same ⟨nofun, nofun⟩ (fun _ => rfl) rfl, rfl⟩
  have hwnd := h.of_sendSame (inputWnd_sendSame t seg)
  unfold inputSynchronize
  rw [if_neg hwnd.opened.1, if_neg hwnd.opened.2]
  exact ⟨hwnd.inputAck now seg, rfl⟩

theorem SendInv.ackTransitions : SendInv iss stream (ackTransitions t) := by
  unfold Tcp.ackTransitions
  split
  · exact h.of_same ⟨nofun, nofun⟩ (fun _ => rfl) rfl
  · split
    · exact h.of_same ⟨nofun, nofun⟩ (fun _ => rfl) rfl
    · exact h

theorem SendInv.inputFin (now : Nat) (seg : TcpSegment) :
    SendInv iss stream (inputFin now t seg).1 ∧ ∀ o ∈ (inputFin now t seg).2.1, o.data = [] := by
  unfold Tcp.inputFin
  split
  · refine ⟨?_, fun o ho => ?_⟩
    · have hseen : SendInv iss stream { t with rcvNxt := u32 (t.rcvNxt + 1), finSeen := true } :=
        h.of_same h.opened h.fin rfl
      simp only [finTransitions]
      split
      · next hest =>
        refine hseen.of_same ⟨nofun, nofun⟩ (fun hp => ?_) rfl
        have hno := h.fin hp
        rw [hest] at hno
        cases hno
      · split
        · exact hseen.of_same ⟨nofun, nofun⟩ (fun _ => rfl) rfl
        · exact hseen
    · obtain rfl := mem_singleton.mp ho
      rfl
  · exact ⟨h, nofun⟩

end

theorem inputData_outs (alloc : Bool) (t : TcpTcb) (seg : TcpSegment) :
    ∀ o ∈ (inputData alloc t seg).2.1, o.data = [] := by
  have hone : ∀ (t' : TcpTcb), ∀ o ∈ [ackOut t'], o.data = [] := by
    intro t' o ho
    obtain rfl := mem_singleton.mp ho
    rfl
  unfold inputData
  split
  · dsimp only
    split
    · exact hone t
    · split
      · exact hone _
      · exact hone _
  · exact nofun

theorem carriesStream_of_nil {outs : List TcpOut} (h : ∀ o ∈ outs, o.data = []) :
    ∀ o ∈ outs, CarriesStream iss stream ⟨acked, o⟩ :=
  fun o ho hne => absurd (h o ho) hne

section

variable (h : SendInv iss stream t)
include h

/-- Every section of `tcp_input` keeps the invariant and sends bytes of the stream. -/
theorem SendInv.inputSection (now : Nat) (alloc : Bool) (pc : InputPc) :
    SendInv iss stream (inputSection now alloc t pc).1 ∧
    ∀ o ∈ (inputSection now alloc t pc).2.1,
      CarriesStream iss stream ⟨stream.length - t.sndbuf.length, o⟩ := by
  cases pc with
  | idle => exact ⟨h, forall_mem_nil _⟩
  | start seg =>
    obtain ⟨hinv, houts⟩ := h.inputStart now seg
    refine ⟨hinv, ?_⟩
    simp only [Tcp.inputSection, houts]
    exact forall_mem_nil _
  | resend seg => exact SendInv.trySendLoop now _ h
  | transitions seg => exact ⟨h.ackTransitions, forall_mem_nil _⟩
  | data seg =>
    exact ⟨h.of_sendSame (inputData_sendSame alloc t seg),
      carriesStream_of_nil (inputData_outs alloc t seg)⟩
  | fin seg =>
    obtain ⟨hinv, houts⟩ := h.inputFin now seg
    exact ⟨hinv, carriesStream_of_nil houts⟩
  | trySend => exact SendInv.trySendLoop now _ h

/-! ## Section 5: The other calls -/

theorem SendInv.closeSection (now : Nat) : SendInv iss stream (closeSection now t) := by
  -- a FIN is asked for: the data phase goes on in a state that takes no bytes
  have hrequest : ∀ state : TcpState, state ≠ .synSent → state ≠ .synRcvd →
      state.takesData = false → SendInv iss stream (requestFin (noteClose now t) state) := by
    intro state hsent hrcvd htakes
    refine ⟨h.len_le, h.buf_eq, h.cap, ⟨hsent, hrcvd⟩, fun _ => htakes, ?_⟩
    rcases h.phase with hdata | hlast
    · exact .inl ⟨hdata.finSent, hdata.una_eq, hdata.nxt_eq⟩
    · exact .inr ⟨hlast.buf_nil, rfl, hlast.una_lt, hlast.nxt_eq⟩
  unfold Tcp.closeSection
  split
  · exact h.of_same ⟨nofun, nofun⟩ (fun _ => rfl) rfl
  split
  · exact hrequest .finWait1 nofun nofun rfl
  · split
    · exact hrequest .lastAck nofun nofun rfl
    · exact h.of_same h.opened h.fin rfl

theorem SendInv.tickSection (now : Nat) :
    SendInv iss stream (tickSection now t).1 ∧ ∀ o ∈ (tickSection now t).2, o.data = [] := by
  have hback : SendInv iss stream (backOff now t (t.retries + 1)) := h.of_same h.opened h.fin rfl
  unfold Tcp.tickSection
  split
  · exact ⟨h, nofun⟩
  split
  · dsimp only
    split
    · exact ⟨h.of_same h.opened h.fin rfl, nofun⟩
    split
    · refine ⟨hback, fun o ho => ?_⟩
      obtain rfl := mem_singleton.mp ho
      rfl
    · exact ⟨hback.rewind, nofun⟩
  · exact ⟨h, nofun⟩

/-- Bytes of the application go to the end of the stream and of the buffer. -/
theorem SendInv.append (data : List UInt8) :
    SendInv iss (stream ++ data.take (sendTake t data))
      (appendSnd t (data.take (sendTake t data))) := by
  by_cases hzero : sendTake t data = 0
  · rw [hzero, take_zero, append_nil]
    exact h.of_same h.opened h.fin (congrArg (·, _) (append_nil _))
  unfold sendTake at hzero ⊢
  split at hzero
  · exact absurd rfl hzero
  next hstate =>
  rw [if_neg hstate]
  have htakes : t.state.takesData = true := by
    simp only [not_or, not_and_or, not_not] at hstate
    rcases hstate.2 with hs | hs <;> rw [hs] <;> rfl
  generalize hpiece : data.take (min (u32 data.length) (tcpSndbuf - t.sndBuflen)) = piece
  have hlen : piece.length ≤ tcpSndbuf - t.sndbuf.length := by
    rw [← hpiece, length_take]
    unfold TcpTcb.sndBuflen
    omega
  have hcap := h.cap
  have hle := h.len_le
  have hpos : (stream ++ piece).length - (t.sndbuf ++ piece).length =
      stream.length - t.sndbuf.length := by
    rw [length_append, length_append]
    omega
  have hnofin : t.pendFin = false := by
    cases hp : t.pendFin with
    | false => rfl
    | true =>
      have hno := h.fin hp
      rw [htakes] at hno
      cases hno
  refine ⟨?_, ?_, ?_, h.opened, h.fin, ?_⟩
  · show (t.sndbuf ++ piece).length ≤ _
    rw [length_append, length_append]
    omega
  · show t.sndbuf ++ piece = (stream ++ piece).drop _
    rw [appendSnd, hpos, drop_append_of_le_length (Nat.sub_le _ _), ← h.buf_eq]
  · show (t.sndbuf ++ piece).length ≤ _
    rw [length_append]
    omega
  rcases h.phase with hdata | hlast
  · obtain ⟨f, hf, hn⟩ := hdata.nxt_eq
    left
    refine ⟨hdata.finSent, ?_, f, ?_, ?_⟩
    · show t.sndUna = _
      rw [appendSnd, hpos]
      exact hdata.una_eq
    · show f ≤ (t.sndbuf ++ piece).length
      rw [length_append]
      omega
    · show t.sndNxt = _
      rw [appendSnd, hpos]
      exact hn
  · have hp := hlast.pendFin
    rw [hnofin] at hp
    cases hp

end

end

/-! ## Section 6: Whole runs -/

section

variable {iss : Nat} {st : Sender} (now : Nat)

/-- What was sent stays right when the application goes on. -/
theorem CarriesStream.mono {stream more : List UInt8} {e : Emitted}
    (h : CarriesStream iss stream e) : CarriesStream iss (stream ++ more) e := by
  intro hne
  obtain ⟨pos, hlow, hhigh, hseq, hprefix⟩ := h hne
  refine ⟨pos, hlow, hhigh, hseq, hprefix.trans ?_⟩
  rw [drop_append]
  exact prefix_append _ _

structure SenderInv (iss : Nat) (st : Sender) : Prop where
  send : SendInv iss st.stream st.tcb
  sent : ∀ e ∈ st.sent, CarriesStream iss st.stream e

theorem SenderInv.emit (h : SenderInv iss st) {r : TcpTcb × List TcpOut}
    (hsend : SendInv iss st.stream r.1)
    (houts : ∀ o ∈ r.2, CarriesStream iss st.stream ⟨st.stream.length - st.tcb.sndbuf.length, o⟩) :
    SenderInv iss (st.emit r) := by
  refine ⟨hsend, fun e he => ?_⟩
  rcases mem_append.mp he with hold | hnew
  · exact h.sent e hold
  · obtain ⟨o, ho, rfl⟩ := mem_map.mp hnew
    exact houts o ho

theorem SenderInv.next (h : SenderInv iss st) (call : SenderCall) :
    SenderInv iss (st.next call) := by
  cases call with
  | send data => exact ⟨h.send.append data, fun e he => (h.sent e he).mono⟩
  | close now => exact ⟨h.send.closeSection now, h.sent⟩
  | input now alloc pc =>
    obtain ⟨hinv, houts⟩ := h.send.inputSection now alloc pc
    exact h.emit hinv houts
  | round now =>
    obtain ⟨hinv, houts⟩ := SendInv.trySendLoop now 1 h.send
    exact h.emit hinv houts
  | tick now =>
    obtain ⟨hinv, houts⟩ := h.send.tickSection now
    exact h.emit hinv (carriesStream_of_nil houts)
  | recv len nonblock killed =>
    refine h.emit (h.send.of_sendSame (tcpRecv_sendSame st.tcb len nonblock killed))
      (carriesStream_of_nil ?_)
    intro o ho
    unfold tcpRecv at ho
    split at ho
    · dsimp only at ho
      split at ho
      · obtain rfl := mem_singleton.mp ho
        rfl
      · cases ho
    split at ho
    · cases ho
    split at ho
    · cases ho
    · split at ho
      · cases ho
      · split at ho <;> cases ho

/-- In every run, every data segment carries the application's bytes at the position of its
    sequence number, and what is in flight is in the buffer or is the FIN. -/
theorem send_stream_integrity (iss : Nat) (st : Sender) (h : (senderSystem iss).Reachable st) :
    (∀ e ∈ st.sent, CarriesStream iss st.stream e) ∧
    sub32 st.tcb.sndNxt st.tcb.sndUna ≤ st.tcb.sndBuflen + (if st.tcb.finSent then 1 else 0) := by
  have hinv : SenderInv iss st := by
    refine h.induct ?_ ?_
    · intro s ⟨hopen, hstream, hsent⟩
      refine ⟨by rw [hstream]; exact sendInv_opened hopen, ?_⟩
      rw [hsent]
      exact nofun
    · intro s call s' _ hs hstep
      obtain rfl := hstep
      exact hs.next call
  exact ⟨hinv.sent, hinv.send.inflight_le⟩

/-! ## Section 7: Calls are runs -/

/-- `tcp_try_send` is a run of its rounds. -/
theorem reachable_trySend (fuel : Nat) : ∀ {st : Sender}, (senderSystem iss).Reachable st →
      (senderSystem iss).Reachable (st.emit (trySendLoop now fuel st.tcb)) := by
  induction fuel with
  | zero =>
    intro st h
    simpa [Sender.emit, trySendLoop] using h
  | succ fuel ih =>
    intro st h
    have hround : (senderSystem iss).Reachable (st.next (.round now)) := .step (.round now) h rfl
    simp only [Sender.next, sendRound, trySendLoop] at hround ⊢
    by_cases hsends : !st.tcb.state.sends
    · rw [if_pos hsends] at hround ⊢
      exact hround
    rw [if_neg hsends] at hround ⊢
    by_cases hpos : 0 < sendChunk st.tcb
    · rw [if_pos hpos] at hround ⊢
      have hrest := ih hround
      simpa [Sender.emit, Sender.acked, sendData, TcpTcb.sndBuflen] using hrest
    rw [if_neg hpos] at hround ⊢
    exact hround

/-- `tcp_send` is one section and a call of `tcp_try_send`. -/
theorem reachable_tcpSend (data : List UInt8) (h : (senderSystem iss).Reachable st) :
    ∃ st', (senderSystem iss).Reachable st' ∧ st'.tcb = (tcpSend now st.tcb data).1 ∧
      st'.stream = st.stream ++ data.take (tcpSend now st.tcb data).2.2 := by
  have happend : (senderSystem iss).Reachable (st.next (.send data)) := .step (.send data) h rfl
  unfold tcpSend
  by_cases hstate : st.tcb.reset = true ∨ (st.tcb.state ≠ .established ∧ st.tcb.state ≠ .closeWait)
  · rw [if_pos hstate]
    exact ⟨st, h, rfl, (append_nil _).symm⟩
  rw [if_neg hstate]
  dsimp only
  split
  · exact ⟨st, h, rfl, (append_nil _).symm⟩
  · have hsend := reachable_trySend now ((st.next (.send data)).tcb.sndBuflen + 1) happend
    simp only [Sender.next, sendTake, if_neg hstate] at hsend
    exact ⟨_, hsend, rfl, rfl⟩

/-- `tcp_close` is one section and, at most, a call of `tcp_try_send`. -/
theorem reachable_tcpClose (h : (senderSystem iss).Reachable st) :
    ∃ st', (senderSystem iss).Reachable st' ∧ st'.tcb = (tcpClose now st.tcb).1 := by
  have hclose : (senderSystem iss).Reachable (st.next (.close now)) := .step (.close now) h rfl
  have hsend := reachable_trySend now ((st.next (.close now)).tcb.sndBuflen + 1) hclose
  simp only [Sender.next, closeSection] at hclose hsend
  unfold tcpClose
  split
  · next hl =>
    rw [if_pos hl] at hclose
    exact ⟨_, hclose, rfl⟩
  next hl =>
  rw [if_neg hl] at hclose hsend
  split
  · next hest =>
    rw [if_pos hest] at hsend
    exact ⟨_, hsend, rfl⟩
  next hest =>
  rw [if_neg hest] at hclose hsend
  split
  · next hwait =>
    rw [if_pos hwait] at hsend
    exact ⟨_, hsend, rfl⟩
  · next hwait =>
    rw [if_neg hwait] at hclose
    exact ⟨_, hclose, rfl⟩

/-- `tcp_tick` is one section and, after a timeout, a call of `tcp_try_send`. -/
theorem reachable_tcpTick (h : (senderSystem iss).Reachable st) :
    ∃ st', (senderSystem iss).Reachable st' ∧ st'.tcb = (tcpTick now st.tcb).1 := by
  have htick : (senderSystem iss).Reachable (st.next (.tick now)) := .step (.tick now) h rfl
  have hsend := reachable_trySend now ((st.next (.tick now)).tcb.sndBuflen + 1) htick
  simp only [Sender.next, tickSection] at htick hsend
  unfold tcpTick
  split
  · exact ⟨st, h, rfl⟩
  next hover =>
  rw [if_neg hover] at htick hsend
  split
  · next hout =>
    rw [if_pos hout] at htick hsend
    dsimp only at htick hsend ⊢
    split
    · next hmany =>
      rw [if_pos hmany] at htick
      exact ⟨_, htick, rfl⟩
    next hmany =>
    rw [if_neg hmany] at htick hsend
    split
    · next hsyn =>
      rw [if_pos hsyn] at htick
      exact ⟨_, htick, rfl⟩
    · next hsyn =>
      rw [if_neg hsyn] at hsend
      exact ⟨_, hsend, rfl⟩
  · exact ⟨st, h, rfl⟩

/-- `tcp_input` is a run of its sections. -/
theorem reachable_inputSections (alloc : Bool) (n : Nat) :
    ∀ {st : Sender} (pc : InputPc), (senderSystem iss).Reachable st →
      ∃ st', (senderSystem iss).Reachable st' ∧ st'.stream = st.stream ∧
        st'.tcb = (inputSections now alloc n st.tcb pc).1 := by
  induction n with
  | zero => exact fun _ h => ⟨_, h, rfl, rfl⟩
  | succ n ih =>
    intro st pc h
    have hsection : (senderSystem iss).Reachable (st.next (.input now alloc pc)) :=
      .step (.input now alloc pc) h rfl
    obtain ⟨st', hr, hstream, htcb⟩ := ih (inputSection now alloc st.tcb pc).2.2 hsection
    exact ⟨st', hr, hstream, htcb⟩

/-- The handshake of a connection that was accepted ends in an open connection. -/
theorem opened_accept (buf : Nat → UInt8) (seq : Nat) (seg : TcpSegment)
    (hrst : seg.flags.rst = false) (hack : seg.flags.ack = true)
    (heq : seg.ack = u32 ((tcpAcceptSyn now buf seq).1.iss + 1)) :
    Opened (tcpAcceptSyn now buf seq).1.iss
      (inputStart now (tcpAcceptSyn now buf seq).1 seg).1 := by
  obtain ⟨mss, ws, rws, ok, hopts⟩ := inputOpts_eq (tcpAcceptSyn now buf seq).1 seg
  have hstart : inputStart now (tcpAcceptSyn now buf seq).1 seg =
      (synRcvdEstablish (inputWnd (inputOpts (tcpAcceptSyn now buf seq).1 seg) seg) seg, [],
        .idle) := by
    simp only [inputStart, hrst, hopts, inputSynchronize, inputWnd]
    simp [tcpAcceptSyn, newTcb, tcpRtoInit, hack] at heq ⊢
    exact fun h => absurd heq h
  rw [hstart, hopts]
  exact ⟨rfl, heq, rfl, rfl, rfl, rfl⟩

/-- And so does that of a connection that was opened. -/
theorem opened_connect (buf : Nat → UInt8) (seg : TcpSegment)
    (hrst : seg.flags.rst = false) (hsyn : seg.flags.syn = true) (hack : seg.flags.ack = true)
    (heq : seg.ack = u32 ((tcpConnectStart now buf).1.iss + 1)) :
    Opened (tcpConnectStart now buf).1.iss (inputStart now (tcpConnectStart now buf).1 seg).1 := by
  obtain ⟨mss, ws, rws, ok, hopts⟩ := inputOpts_eq (tcpConnectStart now buf).1 seg
  have hstart : (inputStart now (tcpConnectStart now buf).1 seg).1 =
      synSentEstablish (inputWnd (inputOpts (tcpConnectStart now buf).1 seg) seg) seg := by
    simp only [inputStart, hrst, hopts, inputSynchronize, inputWnd]
    simp [tcpConnectStart, newTcb, tcpRtoInit, hsyn, hack] at heq ⊢
    rw [if_pos heq]
  rw [hstart, hopts]
  exact ⟨rfl, heq, rfl, rfl, rfl, rfl⟩

end

/-! ## Section 8: A byte is lost -/

/-- An accepted connection after its handshake. -/
def sampleSender : Sender :=
  { tcb := { (tcpAcceptSyn 0 (fun _ => 0) 99).1 with
      state := .established, sndUna := 0x5a5b, pendSyn := false, rexmitMs := 0 }
    stream := []
    sent := [] }

/-- The peer's window is closed, so one byte goes out at a time. The first is lost, sent again
    after a timeout and acknowledged. -/
def lossRun : List SenderCall :=
  [.send [10, 11, 12], .round 0, .tick 5000, .round 5000,
    .input 5001 true (.start (pureAck 0x5a5c (by decide))), .round 5001, .close 5001]

theorem reachable_run {iss : Nat} {st : Sender} (h : (senderSystem iss).Reachable st)
    (calls : List SenderCall) : (senderSystem iss).Reachable (calls.foldl Sender.next st) := by
  induction calls generalizing st with
  | nil => exact h
  | cons call calls ih => exact ih (.step call h rfl)

theorem lossRun_integrity :
    let st := lossRun.foldl Sender.next sampleSender
    (senderSystem 0x5a5a).Reachable st ∧
    (st.sent.map fun e => (e.seg.seq, e.seg.data)) =
      [(0x5a5b, [10]), (0x5a5b, [10]), (0x5a5c, [11])] ∧
    ∀ e ∈ st.sent, CarriesStream 0x5a5a st.stream e := by
  have hinit : (senderSystem 0x5a5a).Reachable sampleSender :=
    .init ⟨⟨rfl, rfl, rfl, rfl, rfl, rfl⟩, rfl, rfl⟩
  have hrun := reachable_run hinit lossRun
  exact ⟨hrun, by decide +kernel, (send_stream_integrity 0x5a5a _ hrun).1⟩

end Cervus.Tcp
