import Cervus.Net.TcpFin
import Cervus.Net.TcpSend

/-! # Which segments are acted on

    Two questions about `tcp_input` in the synchronized states. Is an acknowledgement of something
    that was sent honoured? It is compared with `snd_nxt`, which loss recovery takes back, and not
    with the highest number sent (`valid_ack_honoured_iff`). Is a RST or a SYN from outside the
    receive window ignored? The reset, the options and the window are taken without a look at the
    sequence number; the segment is ignored exactly when it carries nothing new
    (`off_path_segment`). -/

namespace Cervus.Tcp

def TcpState.synchronized : TcpState → Bool
  | .established | .finWait1 | .finWait2 | .closeWait | .lastAck | .timeWait => true
  | _ => false

/-! ## Section 1: Acknowledgements -/

/-- The sequence number after a segment; a FIN takes one. -/
def TcpOut.stop (o : TcpOut) : Nat := u32 (o.seq + o.data.length + if o.flags.fin then 1 else 0)

/-- The number is after `snd_una` and not after the highest one that was sent. -/
def Sender.Acknowledgeable (st : Sender) (ack : Nat) : Prop :=
  0 < i32 (sub32 ack st.tcb.sndUna) ∧ ∃ e ∈ st.sent, i32 (sub32 ack e.seg.stop) ≤ 0

/-- `snd_una` advances to the number, and the bytes before it leave the buffer. -/
def Honoured (t : TcpTcb) (ack : Nat) (t' : TcpTcb) : Prop :=
  t'.sndUna = ack ∧ t'.sndbuf = t.sndbuf.drop
    (sub32 ack t.sndUna - if t.finSent = true ∧ ack = t.sndNxt then 1 else 0)

theorem drop_dataAcked (t : TcpTcb) {ack : Nat} (h : 0 < i32 (sub32 ack t.sndUna)) :
    t.sndbuf.drop (dataAcked t ack) = t.sndbuf.drop
      (sub32 ack t.sndUna - if t.finSent = true ∧ ack = t.sndNxt then 1 else 0) := by
  have hpos := pos_of_i32 h
  have hdrop : ∀ n, t.sndbuf.drop (min n t.sndBuflen) = t.sndbuf.drop n := by
    intro n
    obtain hle | hlt := Nat.le_total n t.sndBuflen
    · rw [Nat.min_eq_left hle]
    · rw [Nat.min_eq_right hlt, List.drop_of_length_le hlt]
      exact List.drop_length
  simp only [dataAcked, hdrop, Bool.and_eq_true, beq_iff_eq, decide_eq_true_eq, hpos, and_true]
  split
  · rfl
  · rw [Nat.sub_zero]

variable {t t1 : TcpTcb} {seg : TcpSegment}

theorem TcpState.synchronized_ne {st : TcpState} (h : st.synchronized = true) :
    st ≠ .synSent ∧ st ≠ .synRcvd := by
  constructor
  · rintro rfl
    cases h
  · rintro rfl
    cases h

/-- **Acknowledgements**: one that lies after `snd_una` and not after the highest number sent is
    honoured exactly if it is not after `snd_nxt`, in every state of every run. -/
theorem valid_ack_honoured_iff (st : Sender) (now : Nat) (seg : TcpSegment)
    (hsync : st.tcb.state.synchronized = true)
    (hflags : seg.flags.ack = true ∧ seg.flags.rst = false)
    (hack : st.Acknowledgeable seg.ack) :
    Honoured st.tcb seg.ack (inputStart now st.tcb seg).1 ↔
      i32 (sub32 seg.ack st.tcb.sndNxt) ≤ 0 := by
  obtain ⟨wnd, mss, ws, rws, ok, hwnd, hstart⟩ := inputStart_settled now
    (TcpState.synchronized_ne hsync).1 (TcpState.synchronized_ne hsync).2 hflags.2
  rw [hstart, inputAck, if_pos hflags.1, hwnd]
  by_cases hle : i32 (sub32 seg.ack st.tcb.sndNxt) ≤ 0
  · rw [if_pos ⟨hack.1, hle⟩]
    obtain ⟨huna, hbuf, -⟩ := ackAdvance_fields now { st.tcb with
      sndWnd := wnd, peerMss := mss, sndWscale := ws, rcvWscale := rws, wscaleOk := ok } seg.ack
    exact ⟨fun _ => hle, fun _ => ⟨huna, hbuf.trans (drop_dataAcked st.tcb hack.1)⟩⟩
  -- the number is not `snd_una` either, so nothing happens
  have hne : seg.ack ≠ st.tcb.sndUna := by
    intro he
    have hpos := pos_of_i32 hack.1
    rw [← he, sub32_of_le seg.ack_lt (le_refl _), Nat.sub_self] at hpos
    exact Nat.not_lt_zero _ hpos
  rw [if_neg (fun h => hle h.2), if_neg (fun h => hne h.2.1)]
  exact ⟨fun h => absurd h.1.symm hne, fun h => absurd h hle⟩

/-- An acknowledgement with a window. -/
def ackSegment (ack win : Nat) (h : ack < 2 ^ 32) : TcpSegment :=
  { pureAck ack h with win := win }

/-- Three bytes are sent into a window of ten. Then the window shrinks to one, the timer runs out,
    and the first byte is sent again. -/
def shrinkRun : List SenderCall :=
  [.input 0 true (.start (ackSegment 0x5a5b 10 (by decide))), .send [10, 11, 12], .round 0,
    .input 1 true (.start (ackSegment 0x5a5b 1 (by decide))), .tick 5000, .round 5000]

/-- The three bytes are in flight. -/
theorem ack_after_round_honoured :
    let st := (shrinkRun.take 3).foldl Sender.next sampleSender
    Honoured st.tcb 0x5a5e (inputStart 2 st.tcb (ackSegment 0x5a5e 10 (by decide))).1 := by
  refine (valid_ack_honoured_iff _ 2 (ackSegment 0x5a5e 10 (by decide)) ?_ ⟨rfl, rfl⟩
    ⟨?_, ?_⟩).mpr ?_
  · decide +kernel
  · decide +kernel
  · decide +kernel
  · decide +kernel

/-- All three bytes arrived the first time, and their acknowledgement is ignored. -/
theorem ack_after_rewind_ignored :
    let st := shrinkRun.foldl Sender.next sampleSender
    let seg := ackSegment 0x5a5e 1 (by decide)
    (senderSystem 0x5a5a).Reachable st ∧ st.tcb.state.synchronized = true ∧
      st.Acknowledgeable seg.ack ∧ ¬ Honoured st.tcb seg.ack (inputStart 5001 st.tcb seg).1 := by
  have hinit : (senderSystem 0x5a5a).Reachable sampleSender :=
    .init ⟨⟨rfl, rfl, rfl, rfl, rfl, rfl⟩, rfl, rfl⟩
  refine ⟨reachable_run hinit shrinkRun, by decide +kernel,
    ⟨by decide +kernel, by decide +kernel⟩, ?_⟩
  intro h
  exact absurd h.1 (by decide +kernel)

/-! ## Section 2: Segments from outside the window -/

/-- A RST or a SYN whose sequence number is not in the receive window. -/
def OffPath (t : TcpTcb) (seg : TcpSegment) : Prop :=
  (seg.flags.rst = true ∨ seg.flags.syn = true) ∧
    tcpRcvbuf - t.rcv.count ≤ sub32 seg.seq t.rcvNxt

/-- State, reset flag, send window, scale factors, and the bytes on both sides are as before. -/
structure Untouched (t t' : TcpTcb) : Prop where
  state     : t'.state = t.state
  reset     : t'.reset = t.reset
  sndWnd    : t'.sndWnd = t.sndWnd
  sndWscale : t'.sndWscale = t.sndWscale
  rcvWscale : t'.rcvWscale = t.rcvWscale
  rcv       : t'.rcv = t.rcv
  ooo       : t'.ooo = t.ooo
  sndbuf    : t'.sndbuf = t.sndbuf

/-- The scale factor of an option, if it is the window scale option. -/
def optionScale (kind : UInt8) (body : List UInt8) : Option Nat :=
  match kind.toNat, body with
  | 3, [ws] => some (min ws.toNat 14)
  | _, _ => none

/-- The last window scale option on the walk over the options. -/
def scaleOption : Nat → List UInt8 → Option Nat
  | 0, _ => none
  | fuel + 1, kind :: olen :: rest =>
    if kind = 0 then none
    else if kind = 1 then scaleOption fuel (olen :: rest)
    else if olen < 2 ∨ rest.length + 2 < olen.toNat then none
    else
      (scaleOption fuel (rest.drop (olen.toNat - 2))).or
        (optionScale kind (rest.take (olen.toNat - 2)))
  | _ + 1, _ => none

/-- The segment acknowledges something new. -/
def AcksNew (t : TcpTcb) (seg : TcpSegment) : Prop :=
  0 < i32 (sub32 seg.ack t.sndUna) ∧ i32 (sub32 seg.ack t.sndNxt) ≤ 0

instance (t : TcpTcb) (seg : TcpSegment) : Decidable (AcksNew t seg) :=
  inferInstanceAs (Decidable (_ ∧ _))

/-- `ooo_drain` takes the entry out of the queue. -/
def TcpOoo.Taken (q : TcpOoo) (nxt : Nat) : Prop :=
  q.GoesOn nxt ∨ i32 q.data.length ≤ i32 (sub32 nxt q.seq)

/-- The data of the segment is dropped: all of it is old; or some of it is new but the ring is full,
    and the queue has nothing old; or it is behind `rcv_nxt` and not put into the queue. A FIN is
    not next in sequence. -/
@[mk_iff] structure DataIgnored (alloc : Bool) (t : TcpTcb) (seg : TcpSegment) : Prop where
  data : 0 < seg.data.length → t.state.dataOk = true →
    i32 seg.data.length ≤ i32 (sub32 t.rcvNxt seg.seq) ∨
    (0 ≤ i32 (sub32 t.rcvNxt seg.seq) ∧ t.space = 0 ∧ ∀ q ∈ t.ooo, ¬ q.Taken t.rcvNxt) ∨
    (i32 (sub32 t.rcvNxt seg.seq) < 0 ∧
      (t.ooo.any (fun q => q.seq == seg.seq && decide (seg.data.length ≤ q.data.length)) = true ∨
        tcpOooMax ≤ t.ooo.length ∨ alloc = false))
  fin  : seg.data.length = 0 → t.state.dataOk = true → seg.flags.fin = true → seg.seq ≠ t.rcvNxt

/-- The segment carries nothing new: no RST, the window and the scale factors that the block has,
    no acknowledgement that frees bytes or ends a close, and no data or FIN that is taken. -/
structure NothingNew (alloc : Bool) (t : TcpTcb) (seg : TcpSegment) : Prop where
  rst    : seg.flags.rst = false
  win    : u32 seg.win = t.sndWnd
  scale  : (scaleOption seg.opts.length seg.opts).elim
    (t.wscaleOk = true ∨ t.sndWscale = 0 ∧ t.rcvWscale = 0) (· = t.sndWscale)
  acked  : seg.flags.ack = true → AcksNew t seg →
    t.sndbuf = [] ∨ t.finSent = true ∧ seg.ack = t.sndNxt ∧ sub32 seg.ack t.sndUna = 1
  closes : seg.flags.ack = true → t.state = .finWait1 ∨ t.state = .lastAck →
    (if AcksNew t seg then seg.ack else t.sndUna) ≠ t.sndNxt
  data   : DataIgnored alloc t seg

/-! ### The options -/

theorem tcpOption_scale (t : TcpTcb) (kind : UInt8) (body : List UInt8) :
    (tcpOption t kind body).sndWscale = (optionScale kind body).getD t.sndWscale ∧
      (tcpOption t kind body).wscaleOk = (t.wscaleOk || (optionScale kind body).isSome) := by
  unfold tcpOption optionScale
  split
  · split <;> simp
  · rename_i hkind
    simp [hkind]
  · rename_i hmss hscale
    split
    · rename_i ws hkind
      exact absurd rfl (hscale ws hkind)
    · simp

theorem tcpParseOpts_scale (fuel : Nat) (t : TcpTcb) (opts : List UInt8) :
    (tcpParseOpts fuel t opts).sndWscale = (scaleOption fuel opts).getD t.sndWscale ∧
      (tcpParseOpts fuel t opts).wscaleOk = (t.wscaleOk || (scaleOption fuel opts).isSome) := by
  fun_induction tcpParseOpts fuel t opts with
  | case3 fuel t olen rest h ih =>
    simp only [scaleOption]
    exact ih
  | case5 fuel t kind olen rest h0 h1 hlen ih =>
    obtain ⟨hscale, hok⟩ := tcpOption_scale t kind (rest.take (olen.toNat - 2))
    rw [hscale, hok] at ih
    simp only [scaleOption, if_neg h0, if_neg h1, if_neg hlen]
    cases hrest : scaleOption fuel (rest.drop (olen.toNat - 2)) with
    | none => simpa [hrest] using ih
    | some ws => simpa [hrest] using ih
  | case1 | case2 | case4 | case6 => simp [scaleOption, *]

theorem inputOpts_scale (hsyn : seg.flags.syn = true) :
    (inputOpts t seg).sndWscale = t.sndWscale ∧ (inputOpts t seg).rcvWscale = t.rcvWscale ↔
      (scaleOption seg.opts.length seg.opts).elim
        (t.wscaleOk = true ∨ t.sndWscale = 0 ∧ t.rcvWscale = 0) (· = t.sndWscale) := by
  obtain ⟨mss, ws, ok, hparse⟩ := tcpParseOpts_eq seg.opts.length t seg.opts
  obtain ⟨hscale, hok⟩ := tcpParseOpts_scale seg.opts.length t seg.opts
  simp only [inputOpts, if_pos hsyn]
  rw [hparse] at hscale hok ⊢
  dsimp only at hscale hok ⊢
  rw [hscale, hok]
  cases scaleOption seg.opts.length seg.opts with
  | some ws => simp
  | none => cases t.wscaleOk <;> simp [eq_comm]

/-! ### The late sections -/

/-- The sections from the data part on. -/
def InputPc.late : InputPc → Bool
  | .data _ | .fin _ | .trySend | .idle => true
  | _ => false

/-- What a late section leaves alone, and the states that it does not enter. -/
structure LateSame (t t' : TcpTcb) : Prop where
  sndWnd    : t'.sndWnd = t.sndWnd
  sndWscale : t'.sndWscale = t.sndWscale
  rcvWscale : t'.rcvWscale = t.rcvWscale
  reset     : t'.reset = t.reset
  sndbuf    : t'.sndbuf = t.sndbuf
  finWait1  : t'.state = .finWait1 → t.state = .finWait1
  lastAck   : t'.state = .lastAck → t.state = .lastAck

theorem LateSame.refl (t : TcpTcb) : LateSame t t := ⟨rfl, rfl, rfl, rfl, rfl, id, id⟩

theorem LateSame.trans {t2 t3 : TcpTcb} (h : LateSame t1 t2) (h' : LateSame t2 t3) :
    LateSame t1 t3 :=
  ⟨h'.sndWnd.trans h.sndWnd, h'.sndWscale.trans h.sndWscale, h'.rcvWscale.trans h.rcvWscale,
    h'.reset.trans h.reset, h'.sndbuf.trans h.sndbuf, fun hs => h.finWait1 (h'.finWait1 hs),
    fun hs => h.lastAck (h'.lastAck hs)⟩

section

variable (now : Nat) (alloc : Bool) (n : Nat)

theorem tcpTrySend_lateSame (t : TcpTcb) : LateSame t (tcpTrySend now t).1 ∧
    (tcpTrySend now t).1.state = t.state ∧ (tcpTrySend now t).1.rcv = t.rcv ∧
    (tcpTrySend now t).1.ooo = t.ooo := by
  obtain ⟨nxt, timing, seq, start, rexmit, fin, hloop⟩ := trySendLoop_eq now (t.sndBuflen + 1) t
  rw [tcpTrySend, hloop]
  exact ⟨⟨rfl, rfl, rfl, rfl, rfl, id, id⟩, rfl, rfl, rfl⟩

/-- The FIN part changes the state of a block that takes data. -/
theorem inputFin_spec (t : TcpTcb) (seg : TcpSegment) : LateSame t (inputFin now t seg).1 ∧
    (inputFin now t seg).1.rcv = t.rcv ∧ (inputFin now t seg).1.ooo = t.ooo ∧
    ((inputFin now t seg).1.state = t.state ↔ ¬ (seg.flags.fin = true ∧
      u32 (seg.seq + seg.data.length) = t.rcvNxt ∧ t.state.dataOk = true)) ∧
    ((inputFin now t seg).2.2 = .idle ∨ (inputFin now t seg).2.2 = .trySend) := by
  unfold inputFin
  by_cases hfin : seg.flags.fin = true ∧ u32 (seg.seq + seg.data.length) = t.rcvNxt
  · rw [if_pos hfin]
    cases hstate : t.state <;>
      simp [finTransitions, hfin.1, hfin.2, TcpState.dataOk] <;>
      exact ⟨rfl, rfl, rfl, rfl, rfl, by simp [hstate], by simp [hstate]⟩
  · rw [if_neg hfin]
    exact ⟨.refl t, rfl, rfl, iff_of_true rfl fun h => hfin ⟨h.1, h.2.1⟩, .inr rfl⟩

theorem inputSection_late {pc : InputPc} (h : pc.late = true) :
    LateSame t (inputSection now alloc t pc).1 ∧
      (inputSection now alloc t pc).2.2.late = true := by
  cases pc with
  | idle => exact ⟨.refl t, rfl⟩
  | trySend => exact ⟨(tcpTrySend_lateSame now t).1, rfl⟩
  | fin seg =>
    obtain ⟨hsame, -, -, -, hpc⟩ := inputFin_spec now t seg
    refine ⟨hsame, ?_⟩
    rcases hpc with hpc | hpc <;> simp [inputSection, hpc, InputPc.late]
  | data seg =>
    obtain ⟨rcv, nxt, ooo, hdata⟩ := inputData_eq alloc t seg
    refine ⟨?_, ?_⟩
    · rw [inputSection, hdata]
      exact ⟨rfl, rfl, rfl, rfl, rfl, id, id⟩
    · simp only [inputSection, inputData]
      repeat' split
      all_goals rfl
  | start | resend | transitions => cases h

theorem inputSections_late {pc : InputPc} (h : pc.late = true) :
    LateSame t (inputSections now alloc n t pc).1 := by
  induction n generalizing t pc with
  | zero => exact .refl t
  | succ n ih =>
    obtain ⟨hsame, hlate⟩ := inputSection_late now alloc (t := t) h
    rw [inputSections_succ]
    exact hsame.trans (ih hlate)

/-- The same state, ring and queue. -/
def RecvUntouched (t t' : TcpTcb) : Prop := t'.state = t.state ∧ t'.rcv = t.rcv ∧ t'.ooo = t.ooo

theorem finSections_untouched (t : TcpTcb) (seg : TcpSegment) :
    (inputSections now alloc (n + 2) t (.fin seg)).1.rcv = t.rcv ∧
    (inputSections now alloc (n + 2) t (.fin seg)).1.ooo = t.ooo ∧
    ((inputSections now alloc (n + 2) t (.fin seg)).1.state = t.state ↔ ¬ (seg.flags.fin = true ∧
      u32 (seg.seq + seg.data.length) = t.rcvNxt ∧ t.state.dataOk = true)) := by
  obtain ⟨-, hrcv, hooo, hstate, hpc⟩ := inputFin_spec now t seg
  rw [inputSections_succ]
  simp only [inputSection]
  rcases hpc with hpc | hpc
  · rw [hpc, inputSections_idle]
    exact ⟨hrcv, hooo, hstate⟩
  · obtain ⟨-, hstate', hrcv', hooo'⟩ := tcpTrySend_lateSame now (inputFin now t seg).1
    rw [hpc, inputSections_succ]
    simp only [inputSection, inputSections_idle]
    rw [hstate', hrcv', hooo']
    exact ⟨hrcv, hooo, hstate⟩

end

/-! ### The queue -/

/-- A pass over a queue of which nothing is taken. -/
theorem oooDrainPass_none {qs : List TcpOoo} (h : ∀ q ∈ qs, ¬ q.Taken t.rcvNxt) :
    oooDrainPass t qs = (t, qs, false) := by
  induction qs with
  | nil => rfl
  | cons q qs ih =>
    obtain ⟨hq, hqs⟩ := List.forall_mem_cons.mp h
    have hgo : ¬ (0 ≤ i32 (sub32 t.rcvNxt q.seq) ∧
        (i32 (sub32 t.rcvNxt q.seq)).toNat < q.data.length) := fun hgo => hq (.inl hgo)
    have hold : ¬ i32 q.data.length ≤ i32 (sub32 t.rcvNxt q.seq) := fun hold => hq (.inr hold)
    rw [oooDrainPass, if_neg hgo, if_neg hold, ih hqs]

/-- An entry that is taken makes the queue shorter. -/
theorem oooDrainPass_shorter {qs : List TcpOoo} {q : TcpOoo} (hq : q ∈ qs)
    (h : q.Taken t.rcvNxt) : (oooDrainPass t qs).2.1.length < qs.length := by
  induction qs with
  | nil => cases hq
  | cons p qs ih =>
    have hrest := fun t => (oooDrainPass_sublist t qs).length_le
    simp only [oooDrainPass]
    split
    · exact Nat.lt_succ_of_le (hrest _)
    split
    · exact Nat.lt_succ_of_le (hrest _)
    · rename_i hgo hold
      obtain rfl | hq := List.mem_cons.mp hq
      · exact absurd h (not_or.mpr ⟨hgo, hold⟩)
      · exact Nat.succ_lt_succ (ih hq)

theorem oooDrainLoop_length_le (fuel : Nat) (t : TcpTcb) :
    (oooDrainLoop fuel t).ooo.length ≤ t.ooo.length := by
  induction fuel generalizing t with
  | zero => exact le_rfl
  | succ fuel ih =>
    have hpass := (oooDrainPass_sublist t t.ooo).length_le
    simp only [oooDrainLoop]
    split
    · exact (ih _).trans hpass
    · exact hpass

/-- `ooo_drain` leaves the queue as it is exactly when nothing is taken. -/
theorem oooDrain_ooo_eq (t : TcpTcb) :
    (oooDrain t).ooo = t.ooo ↔ ∀ q ∈ t.ooo, ¬ q.Taken t.rcvNxt := by
  constructor
  · intro hsame q hq htaken
    have hpass := oooDrainPass_shorter hq htaken
    have hlen : (oooDrain t).ooo.length ≤ (oooDrainPass t t.ooo).2.1.length := by
      unfold oooDrain
      simp only [oooDrainLoop]
      split
      · exact oooDrainLoop_length_le _ _
      · exact le_rfl
    rw [hsame] at hlen
    omega
  · intro hnone
    simp [oooDrain, oooDrainLoop, oooDrainPass_none hnone]

/-- A full ring takes nothing. -/
theorem rcvPush_full (h : t.space = 0) (data : List UInt8) : (rcvPush t data).rcv = t.rcv := by
  unfold TcpTcb.space at h
  simp [rcvPush, Ring.push, Ring.write, h]

theorem oooDrainPass_full (h : t.space = 0) (qs : List TcpOoo) :
    (oooDrainPass t qs).1.rcv = t.rcv := by
  induction qs generalizing t with
  | nil => rfl
  | cons q qs ih =>
    simp only [oooDrainPass]
    split
    · have hrcv := rcvPush_full h (q.data.drop (i32 (sub32 t.rcvNxt q.seq)).toNat)
      have hspace : (rcvPush t (q.data.drop (i32 (sub32 t.rcvNxt q.seq)).toNat)).space = 0 := by
        unfold TcpTcb.space at h ⊢
        rw [hrcv, h]
      exact (ih hspace).trans hrcv
    · split <;> exact ih h

theorem oooDrain_full (h : t.space = 0) : (oooDrain t).rcv = t.rcv := by
  have hloop : ∀ fuel (t : TcpTcb), t.space = 0 → (oooDrainLoop fuel t).rcv = t.rcv := by
    intro fuel
    induction fuel with
    | zero => exact fun t _ => rfl
    | succ fuel ih =>
      intro t h
      have hpass := oooDrainPass_full h t.ooo
      simp only [oooDrainLoop]
      split
      · refine (ih _ ?_).trans hpass
        unfold TcpTcb.space at h ⊢
        rw [hpass, h]
      · exact hpass
  exact hloop _ t h

theorem length_oooPlace (q : TcpOoo) (qs : List TcpOoo) :
    (oooPlace q qs).length = qs.length + 1 := by
  induction qs with
  | nil => rfl
  | cons p qs ih =>
    unfold oooPlace
    split
    · rw [List.length_cons, ih, List.length_cons]
    · rfl

/-- When `ooo_insert` leaves the queue as it is. -/
theorem oooInsert_ooo_eq (alloc : Bool) (t : TcpTcb) (seq : Nat) (data : List UInt8) :
    (oooInsert alloc t seq data).ooo = t.ooo ↔
      (t.ooo.any (fun q => q.seq == seq && decide (data.length ≤ q.data.length)) = true ∨
        tcpOooMax ≤ t.ooo.length ∨ alloc = false) := by
  unfold oooInsert
  split
  · rename_i hany
    exact iff_of_true rfl (.inl hany)
  rename_i hany
  split
  · rename_i hmax
    exact iff_of_true rfl (.inr (.inl hmax))
  rename_i hmax
  cases alloc with
  | false => exact iff_of_true rfl (.inr (.inr rfl))
  | true =>
    refine iff_of_false (fun hsame => ?_) (not_or.mpr ⟨hany, not_or.mpr ⟨hmax, Bool.noConfusion⟩⟩)
    have hlen := congrArg List.length hsame
    rw [if_pos rfl, length_oooPlace] at hlen
    omega

/-! ### What is ignored -/

section

variable (now : Nat) (alloc : Bool) (n : Nat)

/-- The data and FIN parts leave state, ring and queue alone exactly when they ignore what the
    segment has. -/
theorem dataSections_untouched (t : TcpTcb) (seg : TcpSegment) :
    RecvUntouched t (inputSections now alloc (n + 3) t (.data seg)).1 ↔
      DataIgnored alloc t seg := by
  have hlen := seg.data_len
  rw [inputSections_succ]
  simp only [inputSection, inputData]
  by_cases hnew : 0 < seg.data.length ∧ t.state.dataOk = true
  case neg =>
    rw [if_neg hnew]
    obtain ⟨hrcv, hooo, hstate⟩ := finSections_untouched now alloc n t seg
    simp only [RecvUntouched, hrcv, hooo, hstate, and_true]
    constructor
    · refine fun hfin => ⟨fun hpos hok => absurd ⟨hpos, hok⟩ hnew, fun hzero hok hflag hseq => ?_⟩
      exact hfin ⟨hflag, by rw [hzero, Nat.add_zero, u32_of_lt seg.seq_lt, hseq], hok⟩
    · rintro hign ⟨hflag, hseq, hok⟩
      have hzero : seg.data.length = 0 := by
        by_contra hpos
        exact hnew ⟨Nat.pos_of_ne_zero hpos, hok⟩
      rw [hzero, Nat.add_zero, u32_of_lt seg.seq_lt] at hseq
      exact hign.fin hzero hok hflag hseq
  obtain ⟨hpos, hok⟩ := hnew
  have hi32 : i32 seg.data.length = seg.data.length := i32_of_lt (by omega)
  have hnofin : seg.data.length = 0 → t.state.dataOk = true → seg.flags.fin = true →
      seg.seq ≠ t.rcvNxt := fun hzero => by omega
  rw [if_pos ⟨hpos, hok⟩]
  by_cases hdup : i32 seg.data.length ≤ i32 (sub32 t.rcvNxt seg.seq)
  · rw [if_pos hdup, inputSections_idle]
    exact iff_of_true ⟨rfl, rfl, rfl⟩ ⟨fun _ _ => .inl hdup, hnofin⟩
  rw [if_neg hdup]
  by_cases hoff : 0 ≤ i32 (sub32 t.rcvNxt seg.seq)
  · rw [if_pos hoff]
    have hpush := rcvPush_adds t (seg.data.drop (i32 (sub32 t.rcvNxt seg.seq)).toNat)
    obtain ⟨t1, ht1⟩ : ∃ t1, t1 = rcvPush t (seg.data.drop (i32 (sub32 t.rcvNxt seg.seq)).toNat) :=
      ⟨_, rfl⟩
    rw [← ht1] at hpush ⊢
    rw [List.length_drop] at hpush
    obtain ⟨rcv, nxt, ooo, hdrain⟩ := oooDrain_eq t1
    obtain ⟨k, hadds, -⟩ := oooDrain_adds (t := t1) (by rw [hpush.rcvNxt]; exact u32_lt _)
    have htotal := hpush.trans hadds
    obtain ⟨hrcv, hooo, hstate⟩ := finSections_untouched now alloc n (oooDrain t1) seg
    have hsame : (oooDrain t1).state = t.state := by rw [hdrain, ht1]; rfl
    by_cases hfull : t.space = 0
    · have hrcv1 : t1.rcv = t.rcv := by rw [ht1]; exact rcvPush_full hfull _
      have hspace1 : t1.space = 0 := by rw [hpush.space, hfull, Nat.zero_sub]
      have hooo1 : t1.ooo = t.ooo := by rw [ht1]; rfl
      have htaken : ∀ q : TcpOoo, q.Taken t1.rcvNxt ↔ q.Taken t.rcvNxt := by
        intro q
        have hsub : sub32 t1.rcvNxt q.seq = sub32 t.rcvNxt q.seq := by
          rw [hpush.rcvNxt, hfull]
          unfold sub32 u32
          omega
        unfold TcpOoo.Taken TcpOoo.GoesOn
        rw [hsub]
      -- nothing was taken, so that the position is not at the end of the segment
      have hnotend : u32 (seg.seq + seg.data.length) ≠ (oooDrain t1).rcvNxt := by
        intro hend
        rw [htotal.rcvNxt] at hend
        have hfits := htotal.fits
        have hmoved := (end_after hoff (by rw [← hi32]; exact hdup) hlen
          (htotal.fits.trans (Nat.sub_le _ _))).mp hend.symm
        omega
      have hstate' := hstate.mpr fun h => hnotend h.2.1
      have hdrained := oooDrain_ooo_eq t1
      simp only [RecvUntouched, hstate', hsame, hrcv, oooDrain_full hspace1, hrcv1, hooo, hooo1,
        true_and] at hdrained ⊢
      rw [hdrained]
      simp only [htaken]
      constructor
      · exact fun hnone => ⟨fun _ _ => .inr (.inl ⟨hoff, hfull, hnone⟩), hnofin⟩
      · intro hign
        rcases hign.data hpos hok with hold | ⟨-, -, hnone⟩ | ⟨hneg, -⟩
        · exact absurd hold hdup
        · exact hnone
        · exact absurd hoff (Int.not_le.mpr hneg)
    · -- at least one byte has gone into the ring
      refine iff_of_false ?_ ?_
      · rintro ⟨-, hring, -⟩
        have hspace := htotal.space
        rw [hrcv] at hring
        have hkept : (oooDrain t1).space = t.space := by
          unfold TcpTcb.space
          rw [hring]
        omega
      · intro hign
        rcases hign.data hpos hok with hold | ⟨-, hzero, -⟩ | ⟨hneg, -⟩
        · exact hdup hold
        · exact hfull hzero
        · omega
  · rw [if_neg hoff, inputSections_idle]
    obtain ⟨⟨hstate, -⟩, hrcv, -, -⟩ := oooInsert_spec alloc t seg.seq seg.data
    simp only [RecvUntouched, hrcv, hstate, true_and]
    rw [oooInsert_ooo_eq]
    constructor
    · exact fun hnot => ⟨fun _ _ => .inr (.inr ⟨Int.not_le.mp hoff, hnot⟩), hnofin⟩
    · intro hign
      rcases hign.data hpos hok with hold | ⟨hge, -⟩ | ⟨-, hnot⟩
      · exact absurd hold hdup
      · exact absurd hge hoff
      · exact hnot

/-- The block with which a SYN comes to the data part. -/
structure Arrived (t : TcpTcb) (seg : TcpSegment) (t' : TcpTcb) : Prop where
  sndWnd    : t'.sndWnd = u32 seg.win
  sndWscale : t'.sndWscale = (inputOpts t seg).sndWscale
  rcvWscale : t'.rcvWscale = (inputOpts t seg).rcvWscale
  reset     : t'.reset = t.reset
  rcvNxt    : t'.rcvNxt = t.rcvNxt
  rcv       : t'.rcv = t.rcv
  ooo       : t'.ooo = t.ooo
  sndbuf    : t'.sndbuf = if seg.flags.ack = true ∧ AcksNew t seg then
    t.sndbuf.drop (dataAcked t seg.ack) else t.sndbuf
  state     : t'.state = if seg.flags.ack = true ∧
    (if AcksNew t seg then seg.ack else t.sndUna) = t.sndNxt then
      (if t.state = .finWait1 then .finWait2 else if t.state = .lastAck then .closed else t.state)
    else t.state

theorem ackTransitions_state (t : TcpTcb) : (ackTransitions t).state =
    if t.sndUna = t.sndNxt then
      (if t.state = .finWait1 then .finWait2 else if t.state = .lastAck then .closed else t.state)
    else t.state := by
  unfold ackTransitions
  by_cases hend : t.sndUna = t.sndNxt
  · simp only [hend, and_true, if_true]
    split
    · rfl
    · split <;> rfl
  · simp [hend]

theorem ackTransitions_eq (t : TcpTcb) : ∃ s, ackTransitions t = { t with state := s } := by
  unfold ackTransitions
  split
  · exact ⟨_, rfl⟩
  · split <;> exact ⟨_, rfl⟩

theorem Arrived.of_transitions {t2 : TcpTcb} (hack : seg.flags.ack = true)
    (hwin : t2.sndWnd = u32 seg.win) (hsnd : t2.sndWscale = (inputOpts t seg).sndWscale)
    (hrcvw : t2.rcvWscale = (inputOpts t seg).rcvWscale) (hreset : t2.reset = t.reset)
    (hsame : RecvSame t t2) (hstate : t2.state = t.state) (hnxt : t2.sndNxt = t.sndNxt)
    (huna : t2.sndUna = if AcksNew t seg then seg.ack else t.sndUna)
    (hbuf : t2.sndbuf = if AcksNew t seg then t.sndbuf.drop (dataAcked t seg.ack) else t.sndbuf) :
    Arrived t seg (ackTransitions t2) := by
  have hafter := ackTransitions_state t2
  rw [hstate, hnxt, huna] at hafter
  obtain ⟨s, heq⟩ := ackTransitions_eq t2
  rw [heq] at hafter ⊢
  exact ⟨hwin, hsnd, hrcvw, hreset, hsame.rcvNxt, hsame.rcv, hsame.ooo, by simpa [hack] using hbuf,
    by simpa [hack] using hafter⟩

/-- A SYN comes to the data part, whatever it acknowledges. -/
theorem syn_reaches_data (hsync : t.state.synchronized = true) (hrst : seg.flags.rst = false)
    (hsyn : seg.flags.syn = true) :
    ∃ m t', (tcpInput now alloc t seg).1 = (inputSections now alloc (m + 3) t' (.data seg)).1 ∧
      Arrived t seg t' := by
  obtain ⟨wnd, mss, ws, rws, ok, hwnd, hstart⟩ := inputStart_settled now
    (TcpState.synchronized_ne hsync).1 (TcpState.synchronized_ne hsync).2 hrst
  obtain ⟨t1, ht1⟩ : ∃ t1, t1 = inputWnd (inputOpts t seg) seg := ⟨_, rfl⟩
  have hwin : t1.sndWnd = u32 seg.win := by simp [ht1, inputWnd, hsyn]
  have hsnd : t1.sndWscale = (inputOpts t seg).sndWscale := by rw [ht1]; rfl
  have hrcv : t1.rcvWscale = (inputOpts t seg).rcvWscale := by rw [ht1]; rfl
  rw [← ht1] at hwnd hstart
  have hsame : RecvSame t t1 := by rw [hwnd]; exact .of_state_eq rfl
  have hacks : AcksNew t1 seg ↔ AcksNew t seg := by rw [hwnd]; rfl
  have hacked : dataAcked t1 seg.ack = dataAcked t seg.ack := by rw [hwnd]; rfl
  have hbuf : t1.sndbuf = t.sndbuf ∧ t1.sndUna = t.sndUna ∧ t1.sndNxt = t.sndNxt ∧
      t1.reset = t.reset ∧ t1.state = t.state := by
    rw [hwnd]
    exact ⟨rfl, rfl, rfl, rfl, rfl⟩
  rw [tcpInput, inputSections_succ]
  simp only [inputSection]
  rw [hstart]
  cases hack : seg.flags.ack with
  | false =>
    refine ⟨2, t1, by rw [inputAck, hack, if_neg (by decide)], ?_⟩
    exact ⟨hwin, hsnd, hrcv, hbuf.2.2.2.1, hsame.rcvNxt, hsame.rcv, hsame.ooo,
      by simp [hack, hbuf.1], by simp [hack, hbuf.2.2.2.2]⟩
  | true =>
    by_cases hnew : AcksNew t seg
    · have hcond : 0 < i32 (sub32 seg.ack t1.sndUna) ∧ i32 (sub32 seg.ack t1.sndNxt) ≤ 0 :=
        hacks.mpr hnew
      obtain ⟨huna, hdrop, hnxt, -, -, -, hcore⟩ := ackAdvance_fields now t1 seg.ack
      have hkept : (ackAdvance now t1 seg.ack).sndWnd = t1.sndWnd ∧
          (ackAdvance now t1 seg.ack).sndWscale = t1.sndWscale ∧
          (ackAdvance now t1 seg.ack).rcvWscale = t1.rcvWscale ∧
          (ackAdvance now t1 seg.ack).reset = t1.reset := by
        unfold ackAdvance ackRtt
        split <;> exact ⟨rfl, rfl, rfl, rfl⟩
      refine ⟨1, ackTransitions (ackAdvance now t1 seg.ack),
        by rw [inputAck, if_pos hack, if_pos hcond]; rfl, ?_⟩
      refine .of_transitions hack (hkept.1.trans hwin) (hkept.2.1.trans hsnd)
        (hkept.2.2.1.trans hrcv) (hkept.2.2.2.trans hbuf.2.2.2.1)
        (hsame.trans (ackAdvance_recvSame now t1 seg.ack)) (hcore.state.trans hbuf.2.2.2.2)
        (hnxt.trans hbuf.2.2.1) ?_ ?_
      · rw [if_pos hnew, huna]
      · rw [if_pos hnew, hdrop, hacked, hbuf.1]
    · have hcond : ¬ (0 < i32 (sub32 seg.ack t1.sndUna) ∧ i32 (sub32 seg.ack t1.sndNxt) ≤ 0) :=
        fun h => hnew (hacks.mp h)
      refine ⟨1, ackTransitions t1,
        by rw [inputAck, if_pos hack, if_neg hcond, if_neg (by simp [hsyn])]; rfl, ?_⟩
      refine .of_transitions hack hwin hsnd hrcv hbuf.2.2.2.1 hsame hbuf.2.2.2.2 hbuf.2.2.1 ?_ ?_
      · rw [if_neg hnew, hbuf.2.1]
      · rw [if_neg hnew, hbuf.1]

/-- Bytes leave the send buffer unless it is empty or the acknowledgement is of the FIN alone. -/
theorem acked_nothing (hnew : AcksNew t seg) : t.sndbuf.drop (dataAcked t seg.ack) = t.sndbuf ↔
    t.sndbuf = [] ∨ t.finSent = true ∧ seg.ack = t.sndNxt ∧ sub32 seg.ack t.sndUna = 1 := by
  have hpos := pos_of_i32 hnew.1
  rw [drop_dataAcked t hnew.1]
  constructor
  · intro hsame
    have hlen := congrArg List.length hsame
    rw [List.length_drop] at hlen
    by_cases hnil : t.sndbuf = []
    · exact .inl hnil
    have := List.length_pos_of_ne_nil hnil
    split at hlen
    · rename_i hfin
      exact .inr ⟨hfin.1, hfin.2, by omega⟩
    · omega
  · rintro (hnil | ⟨hfin, hack, hone⟩)
    · rw [hnil, List.drop_nil]
    · rw [if_pos ⟨hfin, hack⟩, hone, Nat.sub_self, List.drop_zero]

/-- A SYN is ignored exactly when it carries nothing new. -/
theorem syn_untouched_iff (hsync : t.state.synchronized = true) (hrst : seg.flags.rst = false)
    (hsyn : seg.flags.syn = true) :
    Untouched t (tcpInput now alloc t seg).1 ↔ NothingNew alloc t seg := by
  obtain ⟨m, t', heq, harr⟩ := syn_reaches_data now alloc hsync hrst hsyn
  have hlate : LateSame t' (inputSections now alloc (m + 3) t' (.data seg)).1 :=
    inputSections_late now alloc (m + 3) rfl
  have hdata := dataSections_untouched now alloc m t' seg
  have hscale := inputOpts_scale (t := t) hsyn
  rw [heq]
  generalize (inputSections now alloc (m + 3) t' (.data seg)).1 = r at hlate hdata
  -- the state before the data part is the old one, unless a close was acknowledged
  have hstate : t'.state = t.state ↔ (seg.flags.ack = true → t.state = .finWait1 ∨
      t.state = .lastAck → (if AcksNew t seg then seg.ack else t.sndUna) ≠ t.sndNxt) := by
    rw [harr.state]
    by_cases hend : seg.flags.ack = true ∧
        (if AcksNew t seg then seg.ack else t.sndUna) = t.sndNxt
    · rw [if_pos hend]
      cases t.state <;> simp [hend.1, hend.2]
    · rw [if_neg hend]
      exact iff_of_true rfl fun hack _ hnxt => hend ⟨hack, hnxt⟩
  have hbuf : t'.sndbuf = t.sndbuf ↔ (seg.flags.ack = true → AcksNew t seg →
      t.sndbuf = [] ∨ t.finSent = true ∧ seg.ack = t.sndNxt ∧ sub32 seg.ack t.sndUna = 1) := by
    rw [harr.sndbuf]
    by_cases hnew : seg.flags.ack = true ∧ AcksNew t seg
    · rw [if_pos hnew, acked_nothing hnew.2]
      exact ⟨fun h _ _ => h, fun h => h hnew.1 hnew.2⟩
    · rw [if_neg hnew]
      exact iff_of_true rfl fun hack hacks => absurd ⟨hack, hacks⟩ hnew
  have hign : t'.state = t.state → (DataIgnored alloc t' seg ↔ DataIgnored alloc t seg) := by
    intro hs
    have hspace : t'.space = t.space := by rw [TcpTcb.space, harr.rcv]; rfl
    rw [dataIgnored_iff, dataIgnored_iff, hs, harr.rcvNxt, harr.ooo, hspace]
  constructor
  · intro h
    have hs : t'.state = t.state := by
      by_contra hne
      have hclosing : t.state = .finWait1 ∨ t.state = .lastAck := by
        by_contra hnot
        exact hne (hstate.mpr fun _ hc => absurd hc hnot)
      rcases hclosing with hfin | hlast
      · exact hne ((hlate.finWait1 (h.state.trans hfin)).trans hfin.symm)
      · exact hne ((hlate.lastAck (h.state.trans hlast)).trans hlast.symm)
    refine ⟨hrst, ?_, hscale.mp ⟨?_, ?_⟩, hbuf.mp ?_, hstate.mp hs, (hign hs).mp (hdata.mp ?_)⟩
    · rw [← harr.sndWnd, ← hlate.sndWnd, h.sndWnd]
    · rw [← harr.sndWscale, ← hlate.sndWscale, h.sndWscale]
    · rw [← harr.rcvWscale, ← hlate.rcvWscale, h.rcvWscale]
    · rw [← hlate.sndbuf, h.sndbuf]
    · exact ⟨h.state.trans hs.symm, h.rcv.trans harr.rcv.symm, h.ooo.trans harr.ooo.symm⟩
  · intro h
    have hs := hstate.mpr h.closes
    obtain ⟨hr, hrcv, hooo⟩ := hdata.mpr ((hign hs).mpr h.data)
    obtain ⟨hsnd, hrcvw⟩ := hscale.mpr h.scale
    exact ⟨hr.trans hs, hlate.reset.trans harr.reset, (hlate.sndWnd.trans harr.sndWnd).trans h.win,
      (hlate.sndWscale.trans harr.sndWscale).trans hsnd,
      (hlate.rcvWscale.trans harr.rcvWscale).trans hrcvw, hrcv.trans harr.rcv,
      hooo.trans harr.ooo, hlate.sndbuf.trans (hbuf.mpr h.acked)⟩

/-- A RST closes the connection, whatever its sequence number. -/
theorem rst_touches (hsync : t.state.synchronized = true) (hrst : seg.flags.rst = true) :
    ¬ Untouched t (tcpInput now alloc t seg).1 := by
  intro h
  have hstate := h.state
  rw [tcpInput, inputSections_succ] at hstate
  simp only [inputSection, inputStart, hrst, if_true, inputSections_idle] at hstate
  rw [← hstate] at hsync
  cases hsync

end

/-- **Off-path segments**: a RST or a SYN from outside the window is ignored exactly when it
    carries nothing new; a RST always does. -/
theorem off_path_segment (now : Nat) (alloc : Bool) {t : TcpTcb} {seg : TcpSegment}
    (hsync : t.state.synchronized = true) (hoff : OffPath t seg) :
    Untouched t (tcpInput now alloc t seg).1 ↔ NothingNew alloc t seg := by
  cases hrst : seg.flags.rst with
  | true =>
    refine iff_of_false (rst_touches now alloc hsync hrst) fun h => ?_
    rw [h.rst] at hrst
    cases hrst
  | false =>
    have hsyn : seg.flags.syn = true := by simpa [hrst] using hoff.1
    exact syn_untouched_iff now alloc hsync hrst hsyn

/-- A segment with sequence number 0 and no data. -/
def forged (flags : TcpFlags) : TcpSegment :=
  { pureAck 0 wrapTail.seq_lt with seq := 0, flags := flags, seq_lt := wrapTail.seq_lt }

/-- A SYN with two old bytes, and with an MSS option of 1000, one of whose bytes is a 3. -/
def forgedSyn : TcpSegment :=
  { forged { syn := true } with
    opts := [2, 4, 3, 232], data := [98, 99], data_len := wrapTail.data_len }

/-- The SYN comes to an open connection that has negotiated scale factors. -/
theorem forged_syn_ignored :
    let t := { sampleSender.tcb with wscaleOk := true }
    NothingNew true t forgedSyn ∧ Untouched t (tcpInput 0 true t forgedSyn).1 := by
  have hnone : scaleOption forgedSyn.opts.length forgedSyn.opts = none := by decide
  have hnew : NothingNew true { sampleSender.tcb with wscaleOk := true } forgedSyn := by
    refine ⟨rfl, by decide, ?_, nofun, nofun, ⟨fun _ _ => .inl (by decide), nofun⟩⟩
    rw [hnone]
    exact .inl rfl
  have hsegment := @off_path_segment 0 true { sampleSender.tcb with wscaleOk := true }
    forgedSyn rfl ⟨.inr rfl, by decide⟩
  exact ⟨hnew, hsegment.mpr hnew⟩

/-- A RST with any sequence number closes the connection. -/
theorem off_path_rst_resets :
    let t := sampleSender.tcb
    let seg := forged { rst := true }
    t.state.synchronized = true ∧ OffPath t seg ∧ (tcpInput 0 true t seg).1.reset = true ∧
      ¬ Untouched t (tcpInput 0 true t seg).1 := by
  refine ⟨rfl, ⟨.inl rfl, by decide⟩, rfl, fun h => nomatch h.reset⟩

end Cervus.Tcp
