import Cervus.Net.TcpClose
import Cervus.Net.TcpReceive

/-! # The peer's FIN

    `tcp_input` tests for a FIN last, after the data of the segment has been taken, and only if
    the data part did not return before. It returns when the segment brings nothing new, so a
    FIN on data that has all been received already is not noticed: the peer sends its last data,
    the acknowledgement is lost, and it sends the data again, now with a FIN
    (`fin_on_duplicate_missed`). The test then asks for the FIN to be next in sequence.

    `fin_recognised_iff` says exactly when the FIN of a segment is recognised. -/

namespace Cervus.Tcp

/-! ## Section 1: The position after the data part -/

variable {t t' : TcpTcb} {seg : TcpSegment} {k : Nat} (now : Nat) (alloc : Bool) (n : Nat)

/-- The free cells of the receive ring. -/
def TcpTcb.space (t : TcpTcb) : Nat := tcpRcvbuf - t.rcv.count

/-- The entry of the queue has the byte with this sequence number. -/
def TcpOoo.GoesOn (q : TcpOoo) (nxt : Nat) : Prop :=
  0 ≤ i32 (sub32 nxt q.seq) ∧ (i32 (sub32 nxt q.seq)).toNat < q.data.length

/-- `k` more bytes have gone into the ring. -/
structure Adds (t t' : TcpTcb) (k : Nat) : Prop where
  fits   : k ≤ t.space
  space  : t'.space = t.space - k
  rcvNxt : t'.rcvNxt = u32 (t.rcvNxt + k)

theorem Adds.refl (h : t.rcvNxt < 2 ^ 32) : Adds t t 0 :=
  ⟨Nat.zero_le _, rfl, (u32_of_lt h).symm⟩

theorem Adds.trans {t₁ t₂ t₃ : TcpTcb} {j k : Nat} (h : Adds t₁ t₂ j) (h' : Adds t₂ t₃ k) :
    Adds t₁ t₃ (j + k) := by
  have hfits := h.fits
  have hfits' := h'.fits
  have hspace := h.space
  refine ⟨by omega, ?_, ?_⟩
  · rw [h'.space, hspace, Nat.sub_sub]
  · rw [h'.rcvNxt, h.rcvNxt]
    unfold u32
    omega

theorem rcvPush_adds (t : TcpTcb) (data : List UInt8) :
    Adds t (rcvPush t data) (min data.length t.space) := by
  refine ⟨Nat.min_le_right _ _, ?_, rfl⟩
  unfold TcpTcb.space rcvPush
  rw [Ring.push_count, List.length_take]
  omega

/-- A pass over the queue adds something exactly when the ring has room and an entry goes on
    where the ring ends. -/
theorem oooDrainPass_adds (qs : List TcpOoo) (h : t.rcvNxt < 2 ^ 32) :
    ∃ k, Adds t (oooDrainPass t qs).1 k ∧
      (k = 0 ↔ t.space = 0 ∨ ∀ q ∈ qs, ¬ q.GoesOn t.rcvNxt) := by
  induction qs generalizing t with
  | nil => exact ⟨0, .refl h, by simp⟩
  | cons q qs ih =>
    simp only [oooDrainPass]
    split
    · next hgo =>
      have hgo : q.GoesOn t.rcvNxt := hgo
      have hlen : 0 < (q.data.drop (i32 (sub32 t.rcvNxt q.seq)).toNat).length := by
        rw [List.length_drop]
        have := hgo.2
        omega
      have hpush := rcvPush_adds t (q.data.drop (i32 (sub32 t.rcvNxt q.seq)).toNat)
      generalize q.data.drop (i32 (sub32 t.rcvNxt q.seq)).toNat = data at hlen hpush
      obtain ⟨k, hrest, -⟩ := ih (t := rcvPush t data) (u32_lt _)
      refine ⟨_, hpush.trans hrest, ?_⟩
      have hfits := hrest.fits
      have hspace := hpush.space
      constructor
      · intro hzero
        left
        omega
      · rintro (hzero | hnone)
        · omega
        · exact absurd hgo (hnone q (.head _))
    next hgo =>
    have hgo : ¬ q.GoesOn t.rcvNxt := hgo
    obtain ⟨k, hrest, hiff⟩ := ih h
    have hcons : (∀ p ∈ q :: qs, ¬ p.GoesOn t.rcvNxt) ↔ ∀ p ∈ qs, ¬ p.GoesOn t.rcvNxt := by
      simp [hgo]
    split <;> exact ⟨k, hrest, by rw [hcons]; exact hiff⟩

/-- A pass takes entries out of the queue. -/
theorem oooDrainPass_sublist (t : TcpTcb) (qs : List TcpOoo) :
    (oooDrainPass t qs).2.1.Sublist qs := by
  induction qs generalizing t with
  | nil => exact .refl _
  | cons q qs ih =>
    simp only [oooDrainPass]
    split
    · exact .cons _ (ih _)
    split
    · exact .cons _ (ih _)
    · exact .cons_cons _ (ih _)

/-- The same for the passes of `ooo_drain`: what the first one does not add, the later ones
    do not either. -/
theorem oooDrainLoop_adds (fuel : Nat) (h : t.rcvNxt < 2 ^ 32) :
    ∃ k, Adds t (oooDrainLoop fuel t) k ∧
      ((t.space = 0 ∨ ∀ q ∈ t.ooo, ¬ q.GoesOn t.rcvNxt) → k = 0) ∧
      (0 < fuel → k = 0 → t.space = 0 ∨ ∀ q ∈ t.ooo, ¬ q.GoesOn t.rcvNxt) := by
  induction fuel generalizing t with
  | zero => exact ⟨0, .refl h, fun _ => rfl, fun hpos => absurd hpos (Nat.lt_irrefl 0)⟩
  | succ fuel ih =>
    obtain ⟨j, hpass, hiff⟩ := oooDrainPass_adds t.ooo h
    simp only [oooDrainLoop]
    have hpass : Adds t { (oooDrainPass t t.ooo).1 with ooo := (oooDrainPass t t.ooo).2.1 } j :=
      ⟨hpass.fits, hpass.space, hpass.rcvNxt⟩
    have hsub := (oooDrainPass_sublist t t.ooo).subset
    have hlt : (oooDrainPass t t.ooo).1.rcvNxt < 2 ^ 32 := by
      rw [show (oooDrainPass t t.ooo).1.rcvNxt = _ from hpass.rcvNxt]
      exact u32_lt _
    split
    · obtain ⟨k, hrest, hnone, -⟩ := ih (t := { (oooDrainPass t t.ooo).1 with
          ooo := (oooDrainPass t t.ooo).2.1 }) hlt
      refine ⟨j + k, hpass.trans hrest, ?_, fun _ hzero => hiff.mp (by omega)⟩
      intro hstop
      have hj := hiff.mpr hstop
      rw [hj] at hpass
      rw [hj, Nat.zero_add]
      apply hnone
      rw [hpass.space, hpass.rcvNxt, Nat.add_zero, u32_of_lt h]
      exact hstop.imp_right fun hall q hq => hall q (hsub hq)
    · exact ⟨j, hpass, hiff.mpr, fun _ => hiff.mp⟩

theorem oooDrain_adds (h : t.rcvNxt < 2 ^ 32) :
    ∃ k, Adds t (oooDrain t) k ∧
      (k = 0 ↔ t.space = 0 ∨ ∀ q ∈ t.ooo, ¬ q.GoesOn t.rcvNxt) := by
  obtain ⟨k, hadds, hnone, hsome⟩ := oooDrainLoop_adds (t.ooo.length + 1) h
  exact ⟨k, hadds, hsome (Nat.succ_pos _), hnone⟩

/-! ## Section 2: The sections before the data part -/

theorem inputData_status (t : TcpTcb) (seg : TcpSegment) :
    SameStatus t (inputData alloc t seg).1 := by
  obtain ⟨rcv, nxt, ooo, hdata⟩ := inputData_eq alloc t seg
  rw [hdata]
  exact ⟨rfl, rfl⟩

@[simp] theorem inputSections_idle (t : TcpTcb) :
    inputSections now alloc n t .idle = (t, []) := by
  induction n with
  | zero => rfl
  | succ n ih => simp only [inputSections, inputSection, ih, List.append_nil]

theorem ackTransitions_dataOk (h : t.state.dataOk = true) :
    (ackTransitions t).state.dataOk = true := by
  unfold ackTransitions
  split
  · rfl
  split
  · next hlast =>
    rw [hlast.1] at h
    cases h
  · exact h

/-- The control block before the data part: on the receive side it is as it was. -/
structure Before (t t' : TcpTcb) : Prop where
  same   : RecvSame t t'
  dataOk : t'.state.dataOk = true

theorem inputSections_succ (t : TcpTcb) (pc : InputPc) :
    (inputSections now alloc (n + 1) t pc).1 =
      (inputSections now alloc n (inputSection now alloc t pc).1
        (inputSection now alloc t pc).2.2).1 := rfl

/-- After the handshake the acknowledgement part runs on a block that differs in the window and
    the negotiated sizes only. -/
theorem inputStart_settled (hsent : t.state ≠ .synSent)
    (hrcvd : t.state ≠ .synRcvd) (hrst : seg.flags.rst = false) :
    ∃ wnd mss ws rws ok, inputWnd (inputOpts t seg) seg =
        { t with
          sndWnd := wnd, peerMss := mss, sndWscale := ws, rcvWscale := rws, wscaleOk := ok } ∧
      inputStart now t seg = ((inputAck now (inputWnd (inputOpts t seg) seg) seg).1, [],
        (inputAck now (inputWnd (inputOpts t seg) seg) seg).2) := by
  obtain ⟨mss, ws, rws, ok, hopts⟩ := inputOpts_eq t seg
  have hstate : (inputWnd (inputOpts t seg) seg).state = t.state := by
    rw [hopts]
    rfl
  refine ⟨_, mss, ws, rws, ok, by rw [hopts]; rfl, ?_⟩
  rw [inputStart, hrst, if_neg (by decide), inputSynchronize, hstate, if_neg hsent, if_neg hrcvd]

/-- A segment without RST comes to the data part. -/
theorem tcpInput_reaches_data
    (hok : t.state.dataOk = true) (hrst : seg.flags.rst = false) :
    ∃ n t', (tcpInput now alloc t seg).1 = (inputSections now alloc (n + 3) t' (.data seg)).1 ∧
      Before t t' := by
  have hsent : t.state ≠ .synSent := by
    intro h
    rw [h] at hok
    cases hok
  have hrcvd : t.state ≠ .synRcvd := by
    intro h
    rw [h] at hok
    cases hok
  have hsame := inputStart_recvSame now seg hsent
  obtain ⟨wnd, mss, ws, rws, ok, hwnd, hstart⟩ := inputStart_settled now hsent hrcvd hrst
  have hok1 : (inputStart now t seg).1.state.dataOk = true := by
    rw [hstart]
    rw [(inputAck_sameCore now _ seg).state, hwnd]
    exact hok
  unfold tcpInput
  rw [inputSections_succ]
  simp only [inputSection]
  generalize hr : inputStart now t seg = r at hsame hok1
  have hpc : r.2.2 = .data seg ∨ r.2.2 = .transitions seg ∨ r.2.2 = .resend seg := by
    rw [hstart] at hr
    rw [← hr]
    simp only [inputAck]
    split
    · split
      · exact .inr (.inl rfl)
      split
      · split
        · exact .inr (.inr rfl)
        · exact .inr (.inl rfl)
      · exact .inr (.inl rfl)
    · exact .inl rfl
  rcases hpc with hpc | hpc | hpc
  · rw [hpc]
    exact ⟨2, r.1, rfl, ⟨hsame, hok1⟩⟩
  · rw [hpc]
    exact ⟨1, ackTransitions r.1, rfl,
      ⟨hsame.trans (ackTransitions_recvSame r.1), ackTransitions_dataOk hok1⟩⟩
  rw [hpc]
  have hsend : (tcpTrySend now r.1).1.state.dataOk = true := by
    rw [show (tcpTrySend now r.1).1.state = r.1.state from (trySendLoop_sameCore now _ r.1).state]
    exact hok1
  exact ⟨0, ackTransitions (tcpTrySend now r.1).1, rfl,
    ⟨(hsame.trans (tcpTrySend_recvSame now r.1)).trans (ackTransitions_recvSame _),
      ackTransitions_dataOk hsend⟩⟩

/-! ## Section 3: When the FIN is recognised -/

/-- The sequence number after the data of the segment: that of its FIN. -/
def TcpSegment.dataEnd (seg : TcpSegment) : Nat :=
  u32 (seg.seq + seg.flags.syn.toNat + seg.data.length)

/-- All bytes of the segment have been received. -/
def Received (t : TcpTcb) (seg : TcpSegment) : Prop := 0 ≤ i32 (sub32 t.rcvNxt seg.dataEnd)

/-- The stream is marked as ended, and the position is past the FIN. -/
def Ended (t : TcpTcb) (seg : TcpSegment) : Prop :=
  t.finSeen = true ∧ t.rcvNxt = u32 (seg.dataEnd + 1)

/-- The FIN is next when the data has been taken: without data it comes at `rcv_nxt`; with data
    the last byte is new, what is new fits into the ring, and either nothing in the queue goes on
    behind the segment or the ring is full with it. -/
def FinNext (t : TcpTcb) (seg : TcpSegment) : Prop :=
  if seg.data = [] then seg.seq = t.rcvNxt
  else
    let off := i32 (sub32 t.rcvNxt seg.seq)
    0 ≤ off ∧ off < seg.data.length ∧ seg.data.length - off.toNat ≤ t.space ∧
      (seg.data.length - off.toNat = t.space ∨
        ∀ q ∈ t.ooo, ¬ q.GoesOn (u32 (seg.seq + seg.data.length)))

/-- The position is at the end of the segment when it has moved by what is new of it. -/
theorem end_after {k : Nat} (hoff : 0 ≤ i32 (sub32 t.rcvNxt seg.seq))
    (hdup : ¬ (seg.data.length : Int) ≤ i32 (sub32 t.rcvNxt seg.seq))
    (hlen : seg.data.length < 2 ^ 16) (hk : k ≤ tcpRcvbuf) :
    u32 (t.rcvNxt + k) = u32 (seg.seq + seg.data.length) ↔
      k = seg.data.length - (i32 (sub32 t.rcvNxt seg.seq)).toNat := by
  have hseq := seg.seq_lt
  unfold tcpRcvbuf at hk
  unfold i32 sub32 u32 at *
  split at hoff
  · rw [if_pos ‹_›] at hdup ⊢
    omega
  · omega

/-- The data part comes to the FIN test, and passes it, exactly when the FIN is next. -/
theorem inputData_finNext (hok : t.state.dataOk = true) :
    ((inputData alloc t seg).2.2 = .idle ∧ ¬ FinNext t seg) ∨
      (inputData alloc t seg).2.2 = .fin seg ∧
        ((inputData alloc t seg).1.rcvNxt = u32 (seg.seq + seg.data.length) ↔ FinNext t seg) := by
  have hlen := seg.data_len
  have hseq := u32_of_lt seg.seq_lt
  unfold FinNext
  by_cases hdata : seg.data = []
  · right
    have hnone : inputData alloc t seg = (t, [], .fin seg) := by simp [inputData, hdata]
    rw [hnone, if_pos hdata, hdata, List.length_nil, Nat.add_zero, hseq]
    exact ⟨rfl, eq_comm⟩
  rw [if_neg hdata]
  have hpos : 0 < seg.data.length := List.length_pos_of_ne_nil hdata
  have hi32 : i32 seg.data.length = seg.data.length := i32_of_lt (by omega)
  simp only [inputData, hpos, hok, and_self, if_true, hi32]
  by_cases hdup : (seg.data.length : Int) ≤ i32 (sub32 t.rcvNxt seg.seq)
  · rw [if_pos hdup]
    exact .inl ⟨rfl, fun h => absurd h.2.1 (Int.not_lt.mpr hdup)⟩
  rw [if_neg hdup]
  by_cases hoff : 0 ≤ i32 (sub32 t.rcvNxt seg.seq)
  · rw [if_pos hoff]
    refine .inr ⟨rfl, ?_⟩
    have hpush := rcvPush_adds t (seg.data.drop (i32 (sub32 t.rcvNxt seg.seq)).toNat)
    rw [List.length_drop] at hpush
    obtain ⟨k, hdrain, hnone⟩ := oooDrain_adds
      (t := rcvPush t (seg.data.drop (i32 (sub32 t.rcvNxt seg.seq)).toNat)) (u32_lt _)
    have htotal := hpush.trans hdrain
    have hmoved := end_after hoff hdup hlen (htotal.fits.trans (Nat.sub_le _ _))
    have hfits := hdrain.fits
    rw [hpush.space] at hfits hnone
    rw [htotal.rcvNxt, hmoved]
    -- what is pushed is all that is new, or it fills the ring and nothing is added after it
    by_cases hroom : seg.data.length - (i32 (sub32 t.rcvNxt seg.seq)).toNat ≤ t.space
    · have hnxt := (end_after hoff hdup hlen (hroom.trans (Nat.sub_le _ _))).mpr rfl
      rw [hpush.rcvNxt, Nat.min_eq_left hroom, hnxt] at hnone
      rw [Nat.min_eq_left hroom]
      have hzero : t.space - (seg.data.length - (i32 (sub32 t.rcvNxt seg.seq)).toNat) = 0 ↔
          seg.data.length - (i32 (sub32 t.rcvNxt seg.seq)).toNat = t.space := by omega
      rw [hzero] at hnone
      exact ⟨fun h => ⟨hoff, Int.not_le.mp hdup, hroom, hnone.mp (by omega)⟩,
        fun h => by rw [hnone.mpr h.2.2.2, Nat.add_zero]⟩
    · exact iff_of_false (by omega) fun h => hroom h.2.2.1
  · rw [if_neg hoff]
    exact .inl ⟨rfl, fun h => hoff h.1⟩


/-- The FIN part on its own. -/
theorem inputFin_seen (hfin : seg.flags.fin = true) (hseen : t.finSeen = false) :
    ((inputSections now alloc (n + 2) t (.fin seg)).1.finSeen = true ↔
      t.rcvNxt = u32 (seg.seq + seg.data.length)) ∧
    ((inputSections now alloc (n + 2) t (.fin seg)).1.finSeen = true →
      (inputSections now alloc (n + 2) t (.fin seg)).1.rcvNxt =
        u32 (seg.seq + seg.data.length + 1)) := by
  rw [inputSections_succ]
  simp only [inputSection, inputFin, hfin]
  by_cases hend : u32 (seg.seq + seg.data.length) = t.rcvNxt
  · rw [if_pos ⟨trivial, hend⟩, inputSections_idle]
    have hnxt : u32 (t.rcvNxt + 1) = u32 (seg.seq + seg.data.length + 1) := by
      rw [← hend]
      unfold u32
      omega
    have hseen' : (finTransitions now
        { t with rcvNxt := u32 (t.rcvNxt + 1), finSeen := true }).finSeen = true := by
      unfold finTransitions
      repeat' split
      all_goals rfl
    refine ⟨iff_of_true hseen' hend.symm, fun _ => ?_⟩
    unfold finTransitions
    repeat' split
    all_goals exact hnxt
  rw [if_neg (fun h => hend h.2)]
  have hsame := tcpTrySend_recvSame now t
  rw [inputSections_succ]
  simp only [inputSection, inputSections_idle, hsame.finSeen, hseen, Bool.false_eq_true]
  exact ⟨iff_of_false id fun h => hend h.symm, False.elim⟩

/-- The data part and the FIN part. -/
theorem data_then_fin
    (hok : t.state.dataOk = true) (hseen : t.finSeen = false) (hfin : seg.flags.fin = true) :
    ((inputSections now alloc (n + 3) t (.data seg)).1.finSeen = true ↔ FinNext t seg) ∧
    ((inputSections now alloc (n + 3) t (.data seg)).1.finSeen = true →
      (inputSections now alloc (n + 3) t (.data seg)).1.rcvNxt =
        u32 (seg.seq + seg.data.length + 1)) := by
  have hstatus := inputData_status alloc t seg
  rw [inputSections_succ]
  simp only [inputSection]
  rcases inputData_finNext alloc hok with ⟨hpc, hnot⟩ | ⟨hpc, hiff⟩
  · rw [hpc, inputSections_idle]
    simp only [hstatus.finSeen, hseen, Bool.false_eq_true]
    exact ⟨iff_of_false id hnot, False.elim⟩
  · rw [hpc, ← hiff]
    exact inputFin_seen now alloc n hfin (hstatus.finSeen.trans hseen)

/-- **A FIN is recognised** exactly when its segment has neither RST nor SYN and the FIN is next
    in sequence when the new data of the segment has been taken. -/
theorem fin_recognised_iff (now : Nat) (alloc : Bool) (t : TcpTcb) (seg : TcpSegment)
    (hok : t.state.dataOk = true) (hseen : t.finSeen = false) (hfin : seg.flags.fin = true) :
    Ended (tcpInput now alloc t seg).1 seg ↔
      seg.flags.rst = false ∧ seg.flags.syn = false ∧ FinNext t seg := by
  cases hrst : seg.flags.rst with
  | true =>
    refine iff_of_false (fun h => ?_) (fun h => Bool.noConfusion h.1)
    rw [tcpInput, inputSections_succ] at h
    simp only [inputSection, inputStart, hrst, if_true, inputSections_idle] at h
    rw [Ended, hseen] at h
    cases h.1
  | false =>
    obtain ⟨n, t', heq, hbefore⟩ := tcpInput_reaches_data now alloc hok hrst
    have hsame := hbefore.same
    obtain ⟨hiff, hnxt⟩ := data_then_fin now alloc n hbefore.dataOk (hsame.finSeen.trans hseen) hfin
    have hnext : FinNext t' seg ↔ FinNext t seg := by
      unfold FinNext TcpTcb.space
      rw [hsame.rcvNxt, hsame.rcv, hsame.ooo]
    rw [← heq] at hiff hnxt
    rw [← hnext, ← hiff]
    unfold Ended TcpSegment.dataEnd
    cases hsyn : seg.flags.syn with
    | true =>
      -- the FIN has the sequence number after those of the SYN and the data
      refine iff_of_false (fun h => ?_) (fun h => Bool.noConfusion h.2.1)
      have hend := (hnxt h.1).symm.trans h.2
      rw [Bool.toNat_true] at hend
      unfold u32 at hend
      omega
    | false =>
      refine ⟨fun h => ⟨rfl, rfl, h.1⟩, fun h => ⟨h.2.2, ?_⟩⟩
      rw [hnxt h.2.2, Bool.toNat_false, Nat.add_zero]
      unfold u32
      omega

/-! ## Section 4: Two last segments -/

/-- A connection that waits for byte 100 of the sequence. -/
def sampleOpen : TcpTcb := { (tcpAcceptSyn 0 (fun _ => 0) 99).1 with state := .established }

def lastData (fin : Bool) : TcpSegment :=
  ⟨100, 0, { fin }, 0, [], [97], by decide, wrapTail.seq_lt, wrapHead.data_len⟩

/-- The byte after the one that is waited for has been queued. -/
def sampleQueued : TcpTcb := { sampleOpen with ooo := [⟨101, [98]⟩] }

/-- The last two bytes with the FIN, of which the second has arrived before. -/
def lastTwo : TcpSegment :=
  ⟨100, 0, { fin := true }, 0, [], [97, 98], by decide, wrapTail.seq_lt, wrapTail.data_len⟩

/-- The last data with its FIN: the end is recognised. -/
theorem fin_recognised_with_data :
    Ended (tcpInput 0 true sampleQueued lastTwo).1 lastTwo := by
  refine (fin_recognised_iff 0 true sampleQueued lastTwo rfl rfl rfl).mpr ⟨rfl, rfl, ?_⟩
  refine ⟨by decide, by decide, by decide, .inr ?_⟩
  simp only [sampleQueued, List.mem_singleton]
  rintro q rfl
  unfold TcpOoo.GoesOn
  decide

/-- The last data was received without the FIN and comes again with it: the FIN is lost, though
    all bytes of the segment have been received and the FIN is next in sequence. -/
theorem fin_on_duplicate_missed :
    let t := (tcpInput 0 true sampleOpen (lastData false)).1
    let t' := (tcpInput 0 true t (lastData true)).1
    t.state = .established ∧ t.finSeen = false ∧ Received t' (lastData true) ∧
      t'.rcvNxt = (lastData true).dataEnd ∧ t'.finSeen = false := by
  unfold Received
  decide +kernel

end Cervus.Tcp
