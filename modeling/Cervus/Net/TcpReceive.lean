import Cervus.Framework.System
import Cervus.Net.Tcp

/-! # Receive stream integrity

    The receiving half of a control block delivers a byte stream: whatever
    arrives, in whatever order and however often, what `tcp_recv` has returned
    is a prefix of what the peer sent, and end of stream is reported only when
    all of it has been returned.

    The peer's stream is a list of bytes; the byte at index `i` has sequence
    number `irs + 1 + i` and the FIN follows the last byte. A SYN has the number
    `irs` for itself, so that its payload begins at `irs + 1`; `tcp_input`
    numbers every payload from `seq` on, and takes a duplicate of a SYN with
    payload for bytes one position too early (`syn_payload_skips_byte`). The
    other segments are read as they were meant.

    A state of the run keeps, next to the control block, how far the current
    `tcp_input` call has got and the bytes returned so far.

    The invariant ties ring, queue and `rcv_nxt` to one number, the count of
    accepted bytes: the returned bytes and the ring are the first `accepted`
    bytes of the stream, `rcv_nxt` is the serial number of the next one, and
    each queued segment is a piece of the stream that starts further on. -/

namespace Cervus.Tcp

open List

/-! ## Section 1: Calls that leave the receive side alone -/

/-- The states from which no data is accepted any more. -/
def TcpState.deaf : TcpState → Bool
  | .closeWait | .lastAck | .timeWait | .closed | .listen => true
  | _ => false

/-- The receive side of the control block is unchanged, a deaf state stays deaf
    and the handshake is not entered again. -/
structure RecvSame (t t' : TcpTcb) : Prop where
  rcv : t'.rcv = t.rcv
  rcvNxt : t'.rcvNxt = t.rcvNxt
  ooo : t'.ooo = t.ooo
  finSeen : t'.finSeen = t.finSeen
  deaf : t.state.deaf → t'.state.deaf
  synSent : t'.state = .synSent → t.state = .synSent
  synRcvd : t'.state = .synRcvd → t.state = .synRcvd

theorem RecvSame.refl (t : TcpTcb) : RecvSame t t := ⟨rfl, rfl, rfl, rfl, id, id, id⟩

theorem RecvSame.trans {t1 t2 t3 : TcpTcb} (h : RecvSame t1 t2) (h' : RecvSame t2 t3) :
    RecvSame t1 t3 where
  rcv := h'.rcv.trans h.rcv
  rcvNxt := h'.rcvNxt.trans h.rcvNxt
  ooo := h'.ooo.trans h.ooo
  finSeen := h'.finSeen.trans h.finSeen
  deaf := fun hp => h'.deaf (h.deaf hp)
  synSent := fun hs => h.synSent (h'.synSent hs)
  synRcvd := fun hs => h.synRcvd (h'.synRcvd hs)

variable {t : TcpTcb}

/-- A change of the send side only. -/
theorem RecvSame.of_state_eq {t' : TcpTcb} (h : (t'.rcv, t'.rcvNxt, t'.ooo, t'.finSeen, t'.state) =
    (t.rcv, t.rcvNxt, t.ooo, t.finSeen, t.state)) : RecvSame t t' := by
  simp only [Prod.mk.injEq] at h
  obtain ⟨hr, hn, ho, hf, hs⟩ := h
  exact ⟨hr, hn, ho, hf, hs ▸ id, hs ▸ id, hs ▸ id⟩

theorem trySendLoop_recvSame (now fuel : Nat) (t : TcpTcb) :
    RecvSame t (trySendLoop now fuel t).1 := by
  obtain ⟨nxt, timing, seq, start, rexmit, fin, hloop⟩ := trySendLoop_eq now fuel t
  rw [hloop]
  exact .of_state_eq rfl

theorem tcpTrySend_recvSame (now : Nat) (t : TcpTcb) : RecvSame t (tcpTrySend now t).1 :=
  trySendLoop_recvSame now _ t

theorem ackAdvance_recvSame (now : Nat) (t : TcpTcb) (ack : Nat) :
    RecvSame t (ackAdvance now t ack) := by
  unfold ackAdvance ackRtt
  split <;> exact .of_state_eq rfl

theorem inputAck_recvSame (now : Nat) (t : TcpTcb) (seg : TcpSegment) :
    RecvSame t (inputAck now t seg).1 := by
  unfold inputAck
  split
  · split
    · exact ackAdvance_recvSame now t seg.ack
    split
    · dsimp only
      split <;> exact .of_state_eq rfl
    · exact .refl t
  · exact .refl t

theorem inputOpts_recvSame (t : TcpTcb) (seg : TcpSegment) : RecvSame t (inputOpts t seg) := by
  obtain ⟨mss, ws, rws, ok, hopts⟩ := inputOpts_eq t seg
  rw [hopts]
  exact .of_state_eq rfl

theorem inputSynchronize_recvSame (now : Nat) (seg : TcpSegment) (h : t.state ≠ .synSent) :
    RecvSame t (inputSynchronize now t seg).1 := by
  unfold inputSynchronize
  rw [if_neg h]
  split
  · next hrcvd =>
    split
    · refine ⟨rfl, rfl, rfl, rfl, ?_, nofun, nofun⟩
      rw [hrcvd]
      exact nofun
    · exact .refl t
  · exact inputAck_recvSame now t seg

theorem inputStart_recvSame (now : Nat) (seg : TcpSegment) (h : t.state ≠ .synSent) :
    RecvSame t (inputStart now t seg).1 := by
  unfold inputStart
  split
  · exact ⟨rfl, rfl, rfl, rfl, fun _ => rfl, nofun, nofun⟩
  have hopts := inputOpts_recvSame t seg
  have hwnd : RecvSame t (inputWnd (inputOpts t seg) seg) := hopts.trans (.of_state_eq rfl)
  exact hwnd.trans (inputSynchronize_recvSame now seg fun hs => h (hwnd.synSent hs))

theorem ackTransitions_recvSame (t : TcpTcb) : RecvSame t (ackTransitions t) := by
  unfold ackTransitions
  split
  · next h =>
    refine ⟨rfl, rfl, rfl, rfl, ?_, nofun, nofun⟩
    rw [h.1]
    exact nofun
  · split
    · exact ⟨rfl, rfl, rfl, rfl, fun _ => rfl, nofun, nofun⟩
    · exact .refl t

theorem tcpSend_recvSame (now : Nat) (t : TcpTcb) (data : List UInt8) :
    RecvSame t (tcpSend now t data).1 := by
  unfold tcpSend
  split
  · exact .refl t
  dsimp only
  split
  · exact .refl t
  · have happ : RecvSame t (appendSnd t (data.take (min (u32 data.length)
        (tcpSndbuf - t.sndBuflen)))) := .of_state_eq rfl
    exact happ.trans (tcpTrySend_recvSame now _)

theorem tcpClose_recvSame (now : Nat) (t : TcpTcb) : RecvSame t (tcpClose now t).1 := by
  unfold tcpClose
  split
  · exact ⟨rfl, rfl, rfl, rfl, fun _ => rfl, nofun, nofun⟩
  split
  · next hs =>
    have hreq : RecvSame t (requestFin (noteClose now t) .finWait1) := by
      refine ⟨rfl, rfl, rfl, rfl, ?_, nofun, nofun⟩
      rw [hs]
      exact nofun
    exact hreq.trans (tcpTrySend_recvSame now _)
  split
  · have hreq : RecvSame t (requestFin (noteClose now t) .lastAck) :=
      ⟨rfl, rfl, rfl, rfl, fun _ => rfl, nofun, nofun⟩
    exact hreq.trans (tcpTrySend_recvSame now _)
  · exact .of_state_eq rfl

theorem tcpTick_recvSame (now : Nat) (t : TcpTcb) : RecvSame t (tcpTick now t).1 := by
  unfold tcpTick
  split
  · exact .refl t
  split
  · dsimp only
    split
    · exact .of_state_eq rfl
    split
    · exact .of_state_eq rfl
    · have hback : RecvSame t (rewind (backOff now t (t.retries + 1))) := .of_state_eq rfl
      exact hback.trans (tcpTrySend_recvSame now _)
  · exact .refl t

/-! ## Section 2: Accepted bytes -/

section Accepted

variable (irs : Nat) (stream : List UInt8)

/-- The number of stream bytes accepted so far: returned, or still in the ring. -/
def accepted (delivered : List UInt8) (t : TcpTcb) : Nat := delivered.length + t.rcv.count

/-- Returned bytes and ring are the beginning of the stream, and `rcv_nxt` is
    the serial number of the next byte (no FIN accepted). -/
structure Accepted (delivered : List UInt8) (t : TcpTcb) : Prop where
  ring : t.rcv.Ok
  bytes : delivered ++ t.rcv.contents <+: stream
  rcvNxt : t.rcvNxt = serial irs (1 + accepted delivered t)

/-- A queued segment that starts after the first `n` bytes of the stream. -/
structure Queued (n : Nat) (q : TcpOoo) (pos : Nat) : Prop where
  seq : q.seq = serial irs (1 + pos)
  after : n < pos
  near : pos < n + 2 ^ 31
  len : q.data.length < 2 ^ 16
  piece : q.data <+: stream.drop pos

/-- The parts of a control block that accepting data does not change. -/
structure SameStatus (t t' : TcpTcb) : Prop where
  state : t'.state = t.state
  finSeen : t'.finSeen = t.finSeen

/-- What a pass of `ooo_drain` over the entries `qs` achieves: a pass without
    progress has found every entry beyond `rcv_nxt`. -/
structure Drained (delivered : List UInt8) (t : TcpTcb) (qs : List TcpOoo)
    (r : TcpTcb × List TcpOoo × Bool) : Prop where
  accepted : Accepted irs stream delivered r.1
  status : SameStatus t r.1
  mono : Tcp.accepted delivered t ≤ Tcp.accepted delivered r.1
  kept : r.2.1 ⊆ qs
  shorter : r.2.1.length + r.2.2.toNat ≤ qs.length
  settled : r.2.2 = false →
    r.1 = t ∧ ∀ q ∈ qs, ∃ pos, Queued irs stream (Tcp.accepted delivered t) q pos

variable {irs stream}

theorem SameStatus.trans {t1 t2 t3 : TcpTcb} (h : SameStatus t1 t2) (h' : SameStatus t2 t3) :
    SameStatus t1 t3 :=
  ⟨h'.state.trans h.state, h'.finSeen.trans h.finSeen⟩

variable {delivered : List UInt8} {t : TcpTcb}

theorem Accepted.accepted_le (h : Accepted irs stream delivered t) :
    accepted delivered t ≤ delivered.length + tcpRcvbuf := by
  have := h.ring.count_le
  unfold accepted
  omega

theorem Accepted.take_eq (h : Accepted irs stream delivered t) :
    delivered ++ t.rcv.contents = stream.take (accepted delivered t) := by
  have hlen : (delivered ++ t.rcv.contents).length = accepted delivered t := by
    simp [accepted]
  rw [← hlen]
  exact prefix_iff_eq_take.mp h.bytes

variable {data : List UInt8} {pos n : Nat}

/-- Dropping the part of a piece that is already accepted. -/
theorem drop_prefix_drop (h : data <+: stream.drop pos) (hn : pos ≤ n) :
    data.drop (n - pos) <+: stream.drop n := by
  obtain ⟨rest, hrest⟩ := h
  have hdrop : stream.drop n = (data ++ rest).drop (n - pos) := by
    rw [hrest, drop_drop, Nat.add_sub_cancel' hn]
  rw [hdrop, drop_append]
  exact prefix_append _ _

/-- **Push.** Data that continues the stream is accepted as far as it fits. -/
theorem rcvPush_accepted (h : Accepted irs stream delivered t)
    (hdata : data <+: stream.drop (accepted delivered t)) :
    Accepted irs stream delivered (rcvPush t data) ∧ SameStatus t (rcvPush t data) ∧
      accepted delivered t ≤ accepted delivered (rcvPush t data) := by
  have hcount : (rcvPush t data).rcv.count =
      t.rcv.count + min data.length (tcpRcvbuf - t.rcv.count) := by
    show (t.rcv.push data).count = _
    rw [Ring.push_count, length_take, Nat.min_comm]
  refine ⟨⟨h.ring.push data, ?_, ?_⟩, ⟨rfl, rfl⟩, ?_⟩
  · show delivered ++ (t.rcv.push data).contents <+: stream
    rw [Ring.contents_push h.ring, ← append_assoc, h.take_eq]
    have hpiece : data.take (tcpRcvbuf - t.rcv.count) <+: stream.drop (accepted delivered t) :=
      (List.take_prefix _ _).trans hdata
    obtain ⟨rest, hrest⟩ := hpiece
    refine ⟨rest, ?_⟩
    rw [append_assoc, hrest, take_append_drop]
  · show u32 (t.rcvNxt + min data.length (tcpRcvbuf - t.rcv.count)) = _
    rw [h.rcvNxt, u32_serial_add]
    unfold accepted
    congr 1
    push_cast
    omega
  · unfold accepted
    omega

/-! ## Section 3: The out-of-order queue -/

/-- The offset that `ooo_drain` computes is the true distance. -/
theorem Queued.off_eq {q : TcpOoo} (hq : Queued irs stream n q pos)
    (h : Accepted irs stream delivered t) (hlo : n ≤ accepted delivered t)
    (hhi : accepted delivered t ≤ n + tcpRcvbuf) :
    i32 (sub32 t.rcvNxt q.seq) = accepted delivered t - pos := by
  have hafter := hq.after
  have hnear := hq.near
  have hbuf : tcpRcvbuf = 65536 := rfl
  rw [h.rcvNxt, hq.seq, i32_sub_serial] <;> omega

section

variable (h : Accepted irs stream delivered t)
include h

theorem oooDrainPass_spec {qs : List TcpOoo} (hqs : ∀ q ∈ qs, ∃ pos, Queued irs stream n q pos)
    (hlo : n ≤ accepted delivered t) (hhi : delivered.length ≤ n) :
    Drained irs stream delivered t qs (oooDrainPass t qs) := by
  induction qs generalizing t with
  | nil => exact ⟨h, ⟨rfl, rfl⟩, le_rfl, by simp [oooDrainPass], by simp [oooDrainPass],
      by simp [oooDrainPass]⟩
  | cons q rest ih =>
    obtain ⟨pos, hq⟩ := hqs q (by simp)
    have hrest : ∀ q ∈ rest, ∃ pos, Queued irs stream n q pos := by
      intro q' hq'
      exact hqs q' (by simp [hq'])
    have hle := h.accepted_le
    have hoff := hq.off_eq h hlo (by omega)
    simp only [oooDrainPass, hoff]
    by_cases hnext : 0 ≤ (accepted delivered t : Int) - pos ∧
        ((accepted delivered t : Int) - pos).toNat < q.data.length
    · -- the entry continues the stream: its remainder is pushed
      have hpiece := drop_prefix_drop hq.piece (show pos ≤ accepted delivered t by omega)
      rw [show accepted delivered t - pos = ((accepted delivered t : Int) - pos).toNat by omega]
        at hpiece
      obtain ⟨hacc, hstatus, hmono⟩ := rcvPush_accepted h hpiece
      have hr := ih hacc hrest (by omega)
      simp only [hnext, and_self, if_true]
      refine ⟨hr.accepted, hstatus.trans hr.status, hmono.trans hr.mono,
        subset_cons_of_subset _ hr.kept, ?_, by simp⟩
      have := hr.shorter
      simp only [length_cons, Bool.toNat_true]
      omega
    have hr := ih h hrest hlo
    have hlen := i32_of_lt (show q.data.length < 2 ^ 31 by have := hq.len; omega)
    simp only [hnext, if_false, hlen]
    have hshorter := hr.shorter
    by_cases hold : (q.data.length : Int) ≤ (accepted delivered t : Int) - pos
    · -- the entry lies wholly before `rcv_nxt`
      simp only [hold, if_true]
      refine ⟨hr.accepted, hr.status, hr.mono, subset_cons_of_subset _ hr.kept, ?_, by simp⟩
      simp only [length_cons, Bool.toNat_true]
      omega
    -- a gap remains before the entry: it is kept
    simp only [hold, if_false]
    refine ⟨hr.accepted, hr.status, hr.mono, cons_subset_cons q hr.kept, ?_, ?_⟩
    · simp only [length_cons]
      omega
    intro hp
    obtain ⟨ht, hafter⟩ := hr.settled hp
    refine ⟨ht, ?_⟩
    refine forall_mem_cons.mpr ⟨?_, hafter⟩
    have hnear := hq.near
    exact ⟨pos, hq.seq, by omega, by omega, hq.len, hq.piece⟩

/-- What `ooo_drain` achieves: it terminates with every entry beyond `rcv_nxt`. -/
theorem oooDrainLoop_spec {fuel : Nat} (hqs : ∀ q ∈ t.ooo, ∃ pos, Queued irs stream n q pos)
    (hlo : n ≤ accepted delivered t) (hhi : delivered.length ≤ n) (hfuel : t.ooo.length < fuel) :
    Accepted irs stream delivered (oooDrainLoop fuel t) ∧ SameStatus t (oooDrainLoop fuel t) ∧
      accepted delivered t ≤ accepted delivered (oooDrainLoop fuel t) ∧
      ∀ q ∈ (oooDrainLoop fuel t).ooo, ∃ pos,
        Queued irs stream (accepted delivered (oooDrainLoop fuel t)) q pos := by
  induction fuel generalizing t with
  | zero => omega
  | succ fuel ih =>
    have hr := oooDrainPass_spec h hqs hlo hhi
    have hmono := hr.mono
    simp only [oooDrainLoop]
    cases hp : (oooDrainPass t t.ooo).2.2 with
    | true =>
      have hshorter := hr.shorter
      rw [hp, Bool.toNat_true] at hshorter
      obtain ⟨hacc, hstatus, hmono', hq⟩ :=
        ih (t := { (oooDrainPass t t.ooo).1 with ooo := (oooDrainPass t t.ooo).2.1 })
          ⟨hr.accepted.ring, hr.accepted.bytes, hr.accepted.rcvNxt⟩
          (fun q hq => hqs q (hr.kept hq)) (hlo.trans hmono) (by simp only; omega)
      exact ⟨hacc, hr.status.trans ⟨hstatus.state, hstatus.finSeen⟩, hmono.trans hmono', hq⟩
    | false =>
      obtain ⟨ht, hafter⟩ := hr.settled hp
      refine ⟨⟨hr.accepted.ring, hr.accepted.bytes, hr.accepted.rcvNxt⟩,
        ⟨hr.status.state, hr.status.finSeen⟩, hmono, ?_⟩
      intro q hq
      rw [ht]
      exact hafter q (hr.kept hq)

theorem oooDrain_spec (hqs : ∀ q ∈ t.ooo, ∃ pos, Queued irs stream n q pos)
    (hlo : n ≤ accepted delivered t) (hhi : delivered.length ≤ n) :
    Accepted irs stream delivered (oooDrain t) ∧ SameStatus t (oooDrain t) ∧
      accepted delivered t ≤ accepted delivered (oooDrain t) ∧
      ∀ q ∈ (oooDrain t).ooo, ∃ pos, Queued irs stream (accepted delivered (oooDrain t)) q pos :=
  oooDrainLoop_spec h hqs hlo hhi (Nat.lt_succ_self _)

end

end Accepted

theorem mem_oooPlace {q q' : TcpOoo} {qs : List TcpOoo} :
    q' ∈ oooPlace q qs ↔ q' = q ∨ q' ∈ qs := by
  induction qs with
  | nil => simp [oooPlace]
  | cons p rest ih =>
    unfold oooPlace
    split
    · simp only [mem_cons, ih]
      tauto
    · simp

/-- An insertion adds at most the arriving segment to the queue. -/
theorem oooInsert_spec (alloc : Bool) (t : TcpTcb) (seq : Nat) (data : List UInt8) :
    SameStatus t (oooInsert alloc t seq data) ∧ (oooInsert alloc t seq data).rcv = t.rcv ∧
      (oooInsert alloc t seq data).rcvNxt = t.rcvNxt ∧
      ∀ q ∈ (oooInsert alloc t seq data).ooo, q = { seq, data } ∨ q ∈ t.ooo := by
  have hself : SameStatus t t ∧ t.rcv = t.rcv ∧ t.rcvNxt = t.rcvNxt ∧
      ∀ q ∈ t.ooo, q = { seq, data } ∨ q ∈ t.ooo :=
    ⟨⟨rfl, rfl⟩, rfl, rfl, fun q hq => .inr hq⟩
  unfold oooInsert
  split
  · exact hself
  split
  · exact hself
  split
  · exact ⟨⟨rfl, rfl⟩, rfl, rfl, fun q hq => mem_oooPlace.mp hq⟩
  · exact hself

/-! ## Section 4: Runs of a receiver -/

/-- Segment `seg` starts at position `pos` of the peer's sequence: a SYN is the
    one before the stream, the bytes are the stream's, and a FIN comes after the
    last byte of the stream. -/
structure Carries (irs : Nat) (stream : List UInt8) (seg : TcpSegment) (pos : Int) : Prop where
  seq : seg.seq = serial irs (1 + pos)
  syn : seg.flags.syn = true → pos = -1
  bytes : ∀ j (h : j < seg.data.length), 0 ≤ pos + seg.flags.syn.toNat + j ∧
    stream[(pos + seg.flags.syn.toNat + j).toNat]? = some seg.data[j]
  fin : seg.flags.fin = true → pos + seg.flags.syn.toNat + seg.data.length = stream.length

/-- The segment as `tcp_input` reads it: the bytes begin at `seq`, and a FIN comes
    after the last byte of the stream, or with the SYN before it. -/
structure Reads (irs : Nat) (stream : List UInt8) (seg : TcpSegment) (pos : Int) : Prop where
  seq : seg.seq = serial irs (1 + pos)
  bytes : ∀ j (h : j < seg.data.length),
    0 ≤ pos + j ∧ stream[(pos + j).toNat]? = some seg.data[j]
  fin : seg.flags.fin = true →
    pos + seg.data.length = stream.length ∨ pos + seg.data.length < 0

/-- A segment is read as it was meant, unless it is a SYN with payload. -/
theorem Carries.reads {irs : Nat} {stream : List UInt8} {seg : TcpSegment} {pos : Int}
    (h : Carries irs stream seg pos) (hplain : seg.flags.syn = true → seg.data = []) :
    Reads irs stream seg pos := by
  have hbytes := h.bytes
  have hfin := h.fin
  refine ⟨h.seq, ?_, ?_⟩
  · intro j hj
    cases hsyn : seg.flags.syn with
    | true => simp [hplain hsyn] at hj
    | false => simpa [hsyn] using hbytes j hj
  · intro hflag
    cases hsyn : seg.flags.syn with
    | true =>
      right
      simp [h.syn hsyn, hplain hsyn]
    | false =>
      left
      simpa [hsyn] using hfin hflag

/-- Every sequence number of the segment is less than `2 ^ 31` from position `nxt`. -/
structure Near (nxt : Nat) (seg : TcpSegment) (pos : Int) : Prop where
  below : nxt - 2 ^ 31 < pos
  above : pos + seg.data.length < nxt + 2 ^ 31

/-- A receiver: its control block, the call of `tcp_input` that is under way,
    the bytes returned by `tcp_recv`, and whether one has reported end of stream. -/
structure Receiver where
  tcb : TcpTcb
  pc : InputPc
  delivered : List UInt8
  ended : Bool

/-- The position that `rcv_nxt` stands for: accepted bytes, and the FIN. -/
def Receiver.nxtPos (st : Receiver) : Nat :=
  accepted st.delivered st.tcb + st.tcb.finSeen.toNat

inductive ReceiverCall where
  /-- The network calls `tcp_input`. -/
  | arrive (seg : TcpSegment)
  /-- The call under way goes on with its next section. -/
  | proceed (now : Nat) (alloc : Bool)
  | recv (len : Nat) (nonblock killed : Bool)
  | send (now : Nat) (data : List UInt8)
  | close (now : Nat)
  | tick (now : Nat)

/-- A round of `tcp_recv` with room for `len` bytes reports end of stream when
    it returns 0 although bytes were asked for. -/
def RecvResult.endOfStream (len : Nat) : RecvResult → Bool
  | .ret value _ => value == 0 && decide (0 < len)
  | .sleep => false

def RecvResult.bytes : RecvResult → List UInt8
  | .ret _ bytes => bytes
  | .sleep => []

/-- The effect of a call. -/
def Receiver.next (st : Receiver) : ReceiverCall → Receiver
  | .arrive seg => { st with pc := .start seg }
  | .proceed now alloc =>
    let r := inputSection now alloc st.tcb st.pc
    { st with tcb := r.1, pc := r.2.2 }
  | .recv len nonblock killed =>
    let r := tcpRecv st.tcb len nonblock killed
    { st with
      tcb := r.1
      delivered := st.delivered ++ r.2.2.bytes
      ended := st.ended || r.2.2.endOfStream len }
  | .send now data => { st with tcb := (tcpSend now st.tcb data).1 }
  | .close now => { st with tcb := (tcpClose now st.tcb).1 }
  | .tick now => { st with tcb := (tcpTick now st.tcb).1 }

/-- Arriving segments carry the peer's stream, and calls of `tcp_input` on one
    control block do not overlap. -/
def Receiver.allows (irs : Nat) (stream : List UInt8) (st : Receiver) : ReceiverCall → Prop
  | .arrive seg => st.pc = .idle ∧ ∃ pos, Carries irs stream seg pos ∧ Near st.nxtPos seg pos
  | _ => True

/-- No segment has a payload together with a SYN. -/
def Plain (_ : Receiver) : ReceiverCall → Prop
  | .arrive seg => seg.flags.syn = true → seg.data = []
  | _ => True

/-- A connection on which nothing has arrived after the peer's SYN `irs`. -/
structure Fresh (irs : Nat) (st : Receiver) : Prop where
  ring : st.tcb.rcv.Ok
  empty : st.tcb.rcv.count = 0
  rcvNxt : st.tcb.rcvNxt = serial irs 1
  ooo : st.tcb.ooo = []
  finSeen : st.tcb.finSeen = false
  state : st.tcb.state ≠ .synSent
  pc : st.pc = .idle
  delivered : st.delivered = []
  ended : st.ended = false

/-- All runs of a receiver whose peer sends `stream` after the SYN `irs`. -/
def receiverSystem (irs : Nat) (stream : List UInt8) : System Receiver ReceiverCall where
  init := Fresh irs
  step := fun st call st' => st.allows irs stream call ∧ st' = st.next call

section Invariant

variable (irs : Nat) (stream : List UInt8)

/-- The handshake is over once a segment has got past the first section. -/
def InputPc.started : InputPc → Bool
  | .idle | .start _ => false
  | _ => true

/-- What is known of the segment that is being processed. After the data part
    `rcv_nxt` may have moved on by up to a ring's capacity. -/
def PcOk (nxt : Nat) : InputPc → Prop
  | .idle | .trySend => True
  | .start seg | .resend seg | .transitions seg | .data seg =>
    ∃ pos, Reads irs stream seg pos ∧ Near nxt seg pos
  | .fin seg => ∃ pos, Reads irs stream seg pos ∧
    (nxt : Int) - 2 ^ 32 + 2 < pos + seg.data.length ∧ pos + seg.data.length < nxt + 2 ^ 31

structure ReceiverInv (st : Receiver) : Prop where
  ring : st.tcb.rcv.Ok
  bytes : st.delivered ++ st.tcb.rcv.contents <+: stream
  rcvNxt : st.tcb.rcvNxt = serial irs (1 + st.nxtPos)
  state : st.tcb.state ≠ .synSent
  synced : st.pc.started → st.tcb.state ≠ .synRcvd
  finState : st.tcb.finSeen → st.tcb.state.deaf
  finAt : st.tcb.finSeen → accepted st.delivered st.tcb = stream.length
  queue : ∀ q ∈ st.tcb.ooo, ∃ pos, Queued irs stream (accepted st.delivered st.tcb) q pos
  pc : PcOk irs stream st.nxtPos st.pc
  ended : st.ended → st.delivered = stream

variable {irs stream}

variable {st : Receiver} {t : TcpTcb} {now : Nat} {seg : TcpSegment}

theorem ReceiverInv.toAccepted (h : ReceiverInv irs stream st) (hfin : st.tcb.finSeen = false) :
    Accepted irs stream st.delivered st.tcb := by
  refine ⟨h.ring, h.bytes, ?_⟩
  rw [h.rcvNxt]
  simp [Receiver.nxtPos, hfin]

theorem receiverInv_fresh (h : Fresh irs st) : ReceiverInv irs stream st where
  ring := h.ring
  bytes := by
    have hnil : st.tcb.rcv.contents = [] := by
      rw [← length_eq_zero_iff, Ring.length_contents, h.empty]
    simp [h.delivered, hnil]
  rcvNxt := by simp [h.rcvNxt, Receiver.nxtPos, accepted, h.delivered, h.empty, h.finSeen]
  state := h.state
  synced := by simp [h.pc, InputPc.started]
  finState := by simp [h.finSeen]
  finAt := by simp [h.finSeen]
  queue := by simp [h.ooo]
  pc := by simp [h.pc, PcOk]
  ended := by simp [h.ended]

/-- A connection that a SYN has just opened is fresh. -/
theorem fresh_acceptSyn (now : Nat) (buf : Nat → UInt8) (seq : Nat) :
    Fresh seq ⟨(tcpAcceptSyn now buf seq).1, .idle, [], false⟩ := by
  refine ⟨⟨?_, Nat.zero_le _, rfl⟩, rfl, ?_, rfl, rfl, nofun, rfl, rfl, rfl⟩
  · show 0 < tcpRcvbuf
    decide
  · show u32 (seq + 1) = serial seq 1
    unfold u32 serial
    omega

/-- So is the connecting side when the peer's SYN has come. -/
theorem fresh_connect (now : Nat) (buf : Nat → UInt8) (seg : TcpSegment) :
    Fresh seg.seq ⟨synSentEstablish
      (inputWnd (inputOpts (tcpConnectStart now buf).1 seg) seg) seg, .idle, [], false⟩ := by
  have hsame := inputOpts_recvSame (tcpConnectStart now buf).1 seg
  have hpos : 0 < tcpRcvbuf := by decide
  refine ⟨?_, ?_, ?_, hsame.ooo, hsame.finSeen, nofun, rfl, rfl, rfl⟩
  · show (inputOpts (tcpConnectStart now buf).1 seg).rcv.Ok
    rw [hsame.rcv]
    exact ⟨hpos, Nat.zero_le _, rfl⟩
  · show (inputOpts (tcpConnectStart now buf).1 seg).rcv.count = 0
    rw [hsame.rcv]
    rfl
  · show u32 (seg.seq + 1) = serial seg.seq 1
    unfold u32 serial
    omega

/-- Calls that only touch the send side keep the invariant. -/
theorem ReceiverInv.of_recvSame (h : ReceiverInv irs stream st) (hsame : RecvSame st.tcb t)
    {pc : InputPc} (hpc : PcOk irs stream st.nxtPos pc) (hsync : pc.started → t.state ≠ .synRcvd) :
    ReceiverInv irs stream { st with tcb := t, pc := pc } := by
  have hacc : accepted st.delivered t = accepted st.delivered st.tcb := by
    simp [accepted, hsame.rcv]
  have hnxt : Receiver.nxtPos { st with tcb := t, pc := pc } = st.nxtPos := by
    simp [Receiver.nxtPos, hacc, hsame.finSeen]
  constructor
  · rw [hsame.rcv]; exact h.ring
  · rw [hsame.rcv]; exact h.bytes
  · rw [hsame.rcvNxt, hnxt]; exact h.rcvNxt
  · exact fun hs => h.state (hsame.synSent hs)
  · exact hsync
  · rw [hsame.finSeen]; exact fun hf => hsame.deaf (h.finState hf)
  · rw [hsame.finSeen, hacc]; exact h.finAt
  · rw [hsame.ooo, hacc]; exact h.queue
  · rw [hnxt]; exact hpc
  · exact h.ended

/-- The first section goes on with the same segment, if it goes on at all. -/
theorem inputStart_pcOk {nxt : Nat} (h : PcOk irs stream nxt (.start seg)) :
    PcOk irs stream nxt (inputStart now t seg).2.2 := by
  unfold inputStart
  split
  · trivial
  unfold inputSynchronize
  split
  · split <;> trivial
  split
  · split <;> trivial
  unfold inputAck
  split
  · split
    · exact h
    split
    · dsimp only
      split <;> exact h
    · exact h
  · exact h

/-- The payload of a segment is a piece of the stream. -/
theorem Reads.piece {pos : Int} (h : Reads irs stream seg pos) (hlen : 0 < seg.data.length) :
    ∃ p : Nat, pos = p ∧ seg.data <+: stream.drop p := by
  have h0 := (h.bytes 0 hlen).1
  refine ⟨pos.toNat, by omega, ?_⟩
  rw [prefix_iff_getElem?]
  intro i hi
  obtain ⟨_, hget⟩ := h.bytes i hi
  rw [List.getElem?_drop, ← hget]
  congr 1
  omega

/-- The data part of `tcp_input`. -/
theorem receiverInv_data (h : ReceiverInv irs stream st) (hpc : st.pc = .data seg) (alloc : Bool) :
    ReceiverInv irs stream { st with
      tcb := (inputData alloc st.tcb seg).1, pc := (inputData alloc st.tcb seg).2.2 } := by
  obtain ⟨pos, hcar, hnear⟩ : PcOk irs stream st.nxtPos (.data seg) := hpc ▸ h.pc
  have hsync : st.tcb.state ≠ .synRcvd := h.synced (by rw [hpc]; rfl)
  have hbelow := hnear.below
  have habove := hnear.above
  unfold inputData
  split
  case isFalse => exact h.of_recvSame (.refl _) ⟨pos, hcar, by omega, habove⟩ fun _ => hsync
  next hdata =>
  -- a state that takes data has not seen the FIN
  have hfin : st.tcb.finSeen = false := by
    by_contra hf
    have hpast := h.finState (by simpa using hf)
    have hok := hdata.2
    revert hpast hok
    cases st.tcb.state <;> simp [TcpState.deaf, TcpState.dataOk]
  have hacc := h.toAccepted hfin
  have hnxt : st.nxtPos = accepted st.delivered st.tcb := by simp [Receiver.nxtPos, hfin]
  obtain ⟨p, rfl, hpiece⟩ := hcar.piece hdata.1
  have hoff : i32 (sub32 st.tcb.rcvNxt seg.seq) = accepted st.delivered st.tcb - p := by
    rw [hacc.rcvNxt, hcar.seq, i32_sub_serial] <;> omega
  have hdlen := seg.data_len
  have hlen := i32_of_lt (show seg.data.length < 2 ^ 31 by omega)
  simp only [hoff, hlen]
  by_cases hold : (seg.data.length : Int) ≤ (accepted st.delivered st.tcb : Int) - p
  · simp only [hold, if_true]
    exact h.of_recvSame (.refl _) trivial fun _ => hsync
  simp only [hold, if_false]
  by_cases hnext : 0 ≤ (accepted st.delivered st.tcb : Int) - p
  · -- the segment continues the stream
    simp only [hnext, if_true]
    have hrest := drop_prefix_drop hpiece (show p ≤ accepted st.delivered st.tcb by omega)
    rw [show accepted st.delivered st.tcb - p =
      ((accepted st.delivered st.tcb : Int) - p).toNat by omega] at hrest
    obtain ⟨hacc1, hstatus1, hmono1⟩ := rcvPush_accepted hacc hrest
    obtain ⟨hacc2, hstatus2, hmono2, hqueue⟩ :=
      oooDrain_spec hacc1 h.queue hmono1 (by simp [accepted])
    have hstatus := hstatus1.trans hstatus2
    have hle := hacc2.accepted_le
    have hbuf : tcpRcvbuf = 65536 := rfl
    have hge : st.delivered.length ≤ accepted st.delivered st.tcb := by simp [accepted]
    generalize oooDrain _ = t at *
    have hfin' : t.finSeen = false := hstatus.finSeen.trans hfin
    have hnxt' : Receiver.nxtPos { st with tcb := t, pc := .fin seg } =
        accepted st.delivered t := by
      simp [Receiver.nxtPos, hfin']
    refine ⟨hacc2.ring, hacc2.bytes, ?_, ?_, ?_, by simp [hfin'], by simp [hfin'], hqueue, ?_,
      h.ended⟩
    · rw [hnxt']; exact hacc2.rcvNxt
    · rw [hstatus.state]; exact h.state
    · exact fun _ => by rw [hstatus.state]; exact hsync
    · exact ⟨p, hcar, by omega, by omega⟩
  -- a gap: the segment is kept for later, if there is room and memory
  simp only [hnext, if_false]
  obtain ⟨hstatus, hrcv, hrcvNxt, hmem⟩ := oooInsert_spec alloc st.tcb seg.seq seg.data
  generalize oooInsert alloc st.tcb seg.seq seg.data = t at *
  have hacc' : accepted st.delivered t = accepted st.delivered st.tcb := by
    simp [accepted, hrcv]
  have hfin' : t.finSeen = false := hstatus.finSeen.trans hfin
  refine ⟨hrcv ▸ h.ring, by rw [hrcv]; exact h.bytes, ?_, ?_, nofun,
    by simp [hfin'], by simp [hfin'], ?_, trivial, h.ended⟩
  · rw [hrcvNxt, hacc.rcvNxt]
    simp [Receiver.nxtPos, hacc', hfin']
  · rw [hstatus.state]; exact h.state
  intro q hq
  rw [hacc']
  rcases hmem q hq with rfl | hq
  · exact ⟨p, hcar.seq, by omega, by omega, hdlen, hpiece⟩
  · exact h.queue q hq

theorem finTransitions_spec (now : Nat) (h : t.state ≠ .synSent) (h' : t.state ≠ .synRcvd) :
    (finTransitions now t).state.deaf ∧ (finTransitions now t).rcv = t.rcv ∧
      (finTransitions now t).rcvNxt = t.rcvNxt ∧ (finTransitions now t).ooo = t.ooo ∧
      (finTransitions now t).finSeen = t.finSeen := by
  unfold finTransitions
  split
  · exact ⟨rfl, rfl, rfl, rfl, rfl⟩
  next hest =>
  split
  · exact ⟨rfl, rfl, rfl, rfl, rfl⟩
  next hwait =>
  refine ⟨?_, rfl, rfl, rfl, rfl⟩
  cases hs : t.state <;> simp_all [TcpState.deaf]

section

variable (h : ReceiverInv irs stream st)
include h

/-- The FIN part of `tcp_input`: it is taken exactly at the end of the stream. -/
theorem receiverInv_fin (hpc : st.pc = .fin seg) (now : Nat) :
    ReceiverInv irs stream { st with
      tcb := (inputFin now st.tcb seg).1, pc := (inputFin now st.tcb seg).2.2 } := by
  obtain ⟨pos, hcar, hlo, hhi⟩ : PcOk irs stream st.nxtPos (.fin seg) := hpc ▸ h.pc
  have hsync : st.tcb.state ≠ .synRcvd := h.synced (by rw [hpc]; rfl)
  unfold inputFin
  split
  case isFalse => exact h.of_recvSame (.refl _) trivial fun _ => hsync
  next hf =>
  obtain ⟨hflag, hseq⟩ := hf
  have hend := hcar.fin hflag
  have hpos : pos + seg.data.length = st.nxtPos := by
    rw [hcar.seq, u32_serial_add, h.rcvNxt] at hseq
    have := serial_inj (by omega) (by omega) hseq
    omega
  have hend : pos + seg.data.length = stream.length := hend.resolve_right (by omega)
  -- a FIN that was accepted before would be one position further
  have hfin : st.tcb.finSeen = false := by
    by_contra hseen
    have hseen : st.tcb.finSeen = true := by simpa using hseen
    have hat := h.finAt hseen
    simp only [Receiver.nxtPos, hat, hseen, Bool.toNat_true] at hpos
    omega
  have hat : accepted st.delivered st.tcb = stream.length := by
    simp only [Receiver.nxtPos, hfin, Bool.toNat_false] at hpos
    omega
  obtain ⟨hdeaf, hrcv, hrcvNxt, hooo, hseen⟩ := finTransitions_spec now
      (t := { st.tcb with rcvNxt := u32 (st.tcb.rcvNxt + 1), finSeen := true }) h.state hsync
  generalize finTransitions now _ = t at *
  have hacc : accepted st.delivered t = accepted st.delivered st.tcb := by
    simp [accepted, hrcv]
  refine ⟨hrcv ▸ h.ring, by rw [hrcv]; exact h.bytes, ?_, ?_, ?_, fun _ => hdeaf, ?_, ?_, trivial,
    h.ended⟩
  · rw [hrcvNxt]
    rw [h.rcvNxt, u32_serial_add]
    simp only [Receiver.nxtPos, hacc, hseen, hfin, Bool.toNat_true, Bool.toNat_false]
    congr 1
  · intro hs
    rw [hs] at hdeaf
    cases hdeaf
  · exact nofun
  · exact fun _ => hacc.trans hat
  · rw [hooo, hacc]
    exact h.queue

/-- Bytes taken from the front of the ring are returned to the caller. -/
theorem ReceiverInv.deliver {rcv : Ring UInt8 tcpRcvbuf} {bytes : List UInt8} {ended : Bool}
    (hok : rcv.Ok) (hcat : st.tcb.rcv.contents = bytes ++ rcv.contents)
    (hend : ended = true → st.delivered ++ bytes = stream) : ReceiverInv irs stream { st with
      tcb := { st.tcb with rcv := rcv }, delivered := st.delivered ++ bytes, ended := ended } := by
  have hacc : (st.delivered ++ bytes).length + rcv.count =
      st.delivered.length + st.tcb.rcv.count := by
    have := congrArg List.length hcat
    simp only [Ring.length_contents, length_append] at this ⊢
    omega
  refine ⟨hok, ?_, ?_, h.state, h.synced, h.finState, ?_, ?_, ?_, hend⟩
  · show (st.delivered ++ bytes) ++ rcv.contents <+: stream
    rw [append_assoc, ← hcat]
    exact h.bytes
  · show st.tcb.rcvNxt = _
    simp only [h.rcvNxt, Receiver.nxtPos, accepted, hacc]
  · simp only [accepted, hacc]
    exact h.finAt
  · simp only [accepted, hacc]
    exact h.queue
  · simp only [Receiver.nxtPos, accepted, hacc]
    exact h.pc

/-- A round of `tcp_recv` moves bytes from the ring to the caller; it returns 0
    to a caller with room only when the whole stream has been returned. -/
theorem receiverInv_recv (len : Nat) (nonblock killed : Bool) :
    ReceiverInv irs stream (st.next (.recv len nonblock killed)) := by
  -- a round that takes nothing from the ring
  have hstay : ∀ res : RecvResult, res.bytes = [] →
      (res.endOfStream len = true → st.delivered = stream) →
      ReceiverInv irs stream { st with
        delivered := st.delivered ++ res.bytes, ended := st.ended || res.endOfStream len } := by
    intro res hb he
    refine h.deliver h.ring (by simp [hb]) ?_
    rw [hb, append_nil, Bool.or_eq_true]
    exact fun hend => hend.elim h.ended he
  simp only [Receiver.next, tcpRecv]
  split
  · next hcount =>
    obtain ⟨hcat, hok, hlen⟩ := Ring.pop_spec h.ring len
    refine h.deliver hok hcat ?_
    simp only [RecvResult.endOfStream, RecvResult.bytes, Bool.or_eq_true, Bool.and_eq_true,
      beq_iff_eq, decide_eq_true_eq]
    rintro (hend | ⟨hzero, hpos⟩)
    · -- end of stream was reported before, so nothing can be left in the ring
      have hpre := h.bytes.length_le
      rw [h.ended hend, length_append, Ring.length_contents] at hpre
      omega
    · omega
  split
  · exact hstay (.ret (-eINVAL) []) rfl (by simp [RecvResult.endOfStream, eINVAL])
  split
  · next hempty _ hfin =>
    -- the FIN was accepted and the ring is empty: everything has been returned
    refine hstay (.ret 0 []) rfl fun _ => ?_
    have hcount : st.tcb.rcv.count = 0 := by omega
    have hat := h.finAt hfin
    have hpre := (prefix_append _ _).trans h.bytes
    exact hpre.eq_of_length (by simpa [accepted, hcount] using hat)
  split
  · exact hstay (.ret (-eAGAIN) []) rfl (by simp [RecvResult.endOfStream, eAGAIN])
  split
  · exact hstay (.ret (-eINTR) []) rfl (by simp [RecvResult.endOfStream, eINTR])
  · exact hstay .sleep rfl (by simp [RecvResult.endOfStream])

end

/-- A section that left the first one behind is past the handshake. -/
theorem inputStart_started (h : (inputStart now t seg).2.2.started) :
    (inputStart now t seg).1.state ≠ .synRcvd := by
  revert h
  unfold inputStart
  split
  · exact nofun
  unfold inputSynchronize
  split
  · split <;> exact nofun
  split
  · split <;> exact nofun
  next hs =>
  intro _ hs'
  exact hs ((inputAck_recvSame now _ seg).synRcvd hs')

/-- **Step.** Every call keeps the invariant. -/
theorem receiverInv_next (h : ReceiverInv irs stream st) {call : ReceiverCall}
    (hallow : st.allows irs stream call) (hplain : Plain st call) :
    ReceiverInv irs stream (st.next call) := by
  cases call with
  | arrive seg =>
    obtain ⟨-, pos, hcar, hnear⟩ := hallow
    exact h.of_recvSame (.refl _) ⟨pos, hcar.reads hplain, hnear⟩ nofun
  | proceed now alloc =>
    have hpcok := h.pc
    have hsync := h.synced
    simp only [Receiver.next, inputSection]
    cases hpc : st.pc with
    | idle => exact h.of_recvSame (.refl _) trivial nofun
    | start seg =>
      rw [hpc] at hpcok
      exact h.of_recvSame (inputStart_recvSame now seg h.state) (inputStart_pcOk hpcok)
        inputStart_started
    | resend seg =>
      rw [hpc] at hpcok hsync
      have hsame := tcpTrySend_recvSame now st.tcb
      exact h.of_recvSame hsame hpcok fun _ hs => hsync rfl (hsame.synRcvd hs)
    | transitions seg =>
      rw [hpc] at hpcok hsync
      have hsame := ackTransitions_recvSame st.tcb
      exact h.of_recvSame hsame hpcok fun _ hs => hsync rfl (hsame.synRcvd hs)
    | data seg => exact receiverInv_data h hpc alloc
    | fin seg => exact receiverInv_fin h hpc now
    | trySend => exact h.of_recvSame (tcpTrySend_recvSame now st.tcb) trivial nofun
  | recv len nonblock killed => exact receiverInv_recv h len nonblock killed
  | send now data =>
    have hsame := tcpSend_recvSame now st.tcb data
    exact h.of_recvSame hsame h.pc fun hp hs => h.synced hp (hsame.synRcvd hs)
  | close now =>
    have hsame := tcpClose_recvSame now st.tcb
    exact h.of_recvSame hsame h.pc fun hp hs => h.synced hp (hsame.synRcvd hs)
  | tick now =>
    have hsame := tcpTick_recvSame now st.tcb
    exact h.of_recvSame hsame h.pc fun hp hs => h.synced hp (hsame.synRcvd hs)

theorem receiverInv_reachable (hr : ((receiverSystem irs stream).restrict Plain).Reachable st) :
    ReceiverInv irs stream st := by
  refine System.Reachable.induct ?_ ?_ hr
  · exact fun s hs => receiverInv_fresh hs
  · rintro s call _ _ hinv ⟨hplain, hallow, rfl⟩
    exact receiverInv_next hinv hallow hplain

end Invariant

/-! ## Section 5: Integrity -/

/-- **Receive stream integrity.** Whatever arrives but a SYN with payload, in whatever
    order, the bytes returned by `tcp_recv` are a prefix of the peer's stream, and
    end of stream is reported only after all of it. -/
theorem recv_stream_integrity (irs : Nat) (stream : List UInt8) (st : Receiver)
    (hr : ((receiverSystem irs stream).restrict Plain).Reachable st) :
    st.delivered <+: stream ∧ (st.ended = true → st.delivered = stream) := by
  have h := receiverInv_reachable hr
  exact ⟨(prefix_append _ _).trans h.bytes, h.ended⟩

/-- A call of `tcp_input` that nothing interrupts. -/
def Receiver.input (st : Receiver) (seg : TcpSegment) : Receiver :=
  (List.replicate 6 (ReceiverCall.proceed 0 true)).foldl Receiver.next (st.next (.arrive seg))

theorem reachable_input {irs : Nat} {stream : List UInt8} {st : Receiver}
    {ok : Receiver → ReceiverCall → Prop} (hok : ∀ st, ok st (.proceed 0 true))
    (hr : ((receiverSystem irs stream).restrict ok).Reachable st) (hidle : st.pc = .idle)
    (seg : TcpSegment) (hseg : ok st (.arrive seg)) (pos : Int) (hc : Carries irs stream seg pos)
    (hn : Near st.nxtPos seg pos) :
    ((receiverSystem irs stream).restrict ok).Reachable (st.input seg) := by
  have hproceed : ∀ {st}, ((receiverSystem irs stream).restrict ok).Reachable st →
      ((receiverSystem irs stream).restrict ok).Reachable (st.next (.proceed 0 true)) :=
    fun h => .step (.proceed 0 true) h ⟨hok _, trivial, rfl⟩
  have harrive : ((receiverSystem irs stream).restrict ok).Reachable (st.next (.arrive seg)) :=
    .step (.arrive seg) hr ⟨hseg, ⟨hidle, pos, hc, hn⟩, rfl⟩
  exact hproceed (hproceed (hproceed (hproceed (hproceed (hproceed harrive)))))

/-- A duplicate of the SYN; the last bytes of the stream, before the first one and
    across the wrap of the sequence number; the FIN. -/
def wrapSyn : TcpSegment :=
  ⟨2 ^ 32 - 2, 0, { syn := true }, 0, [], [], by decide, by decide, Nat.two_pow_pos 16⟩

@[inherit_doc wrapSyn] def wrapTail : TcpSegment :=
  ⟨0, 0, {}, 0, [], [98, 99], by decide, by decide, by decide⟩

@[inherit_doc wrapSyn] def wrapHead : TcpSegment :=
  ⟨2 ^ 32 - 1, 0, {}, 0, [], [97], by decide, by decide, by decide⟩

@[inherit_doc wrapSyn] def wrapFin : TcpSegment :=
  ⟨2, 0, { fin := true }, 0, [], [], by decide, by decide, Nat.two_pow_pos 16⟩

def wrapStart : Receiver :=
  ⟨{ (tcpAcceptSyn 0 (fun _ => 0) (2 ^ 32 - 2)).1 with state := .established }, .idle, [], false⟩

def wrapEnd : Receiver :=
  (((((wrapStart.input wrapSyn).input wrapTail).input wrapHead).input wrapFin).next
    (.recv 10 true false)).next (.recv 10 true false)

theorem wrapStart_fresh : Fresh (2 ^ 32 - 2) wrapStart :=
  ⟨⟨by decide, by decide, by decide⟩, rfl, by decide, rfl, rfl, by decide, rfl, rfl, rfl⟩

theorem recv_stream_integrity_wrap :
    ((receiverSystem (2 ^ 32 - 2) [97, 98, 99]).restrict Plain).Reachable wrapEnd ∧
      wrapEnd.ended = true ∧ wrapEnd.delivered = [97, 98, 99] := by
  have h0 : ((receiverSystem (2 ^ 32 - 2) [97, 98, 99]).restrict Plain).Reachable wrapStart :=
    .init wrapStart_fresh
  have h1 := reachable_input (fun _ => trivial) h0 rfl wrapSyn (fun _ => rfl) (-1)
    ⟨by decide, by decide, by decide, by decide⟩ ⟨by decide, by decide⟩
  have h2 := reachable_input (fun _ => trivial) h1 rfl wrapTail nofun 1
    ⟨by decide, by decide, by decide, by decide⟩ ⟨by decide, by decide⟩
  have h3 := reachable_input (fun _ => trivial) h2 rfl wrapHead nofun 0
    ⟨by decide, by decide, by decide, by decide⟩ ⟨by decide, by decide⟩
  have h4 := reachable_input (fun _ => trivial) h3 rfl wrapFin nofun 3
    ⟨by decide, by decide, by decide, by decide⟩ ⟨by decide, by decide⟩
  have h6 : ((receiverSystem (2 ^ 32 - 2) [97, 98, 99]).restrict Plain).Reachable wrapEnd :=
    .step (.recv 10 true false) (.step (.recv 10 true false) h4 ⟨trivial, trivial, rfl⟩)
      ⟨trivial, trivial, rfl⟩
  exact ⟨h6, by decide, (recv_stream_integrity _ _ _ h6).2 (by decide)⟩

/-- A SYN with the two bytes of the stream as its payload. -/
def synData : TcpSegment :=
  ⟨2 ^ 32 - 2, 0, { syn := true }, 0, [], [97, 98], by decide, by decide, by decide⟩

/-- **A byte is skipped** when a duplicate of a SYN with payload arrives. -/
theorem syn_payload_skips_byte :
    ∃ st, (receiverSystem (2 ^ 32 - 2) [97, 98]).Reachable st ∧ st.delivered = [98] ∧
      ¬ st.delivered <+: [97, 98] := by
  have h0 : ((receiverSystem (2 ^ 32 - 2) [97, 98]).restrict fun _ _ => True).Reachable wrapStart :=
    .init wrapStart_fresh
  have h1 := reachable_input (fun _ => trivial) h0 rfl synData trivial (-1)
    ⟨by decide, by decide, by decide, by decide⟩ ⟨by decide, by decide⟩
  exact ⟨(wrapStart.input synData).next (.recv 10 true false),
    .step (.recv 10 true false) h1.of_restrict ⟨trivial, rfl⟩, by decide, by decide⟩

end Cervus.Tcp
