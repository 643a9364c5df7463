import Cervus.Framework.Word
import Cervus.Framework.Ring

/-! # TCP control block

    The model of `net/tcp.c`: one control block (TCB), the segments it sends
    and the calls that change it. A call of `tcp_input` is cut where the source
    releases the TCB's lock, and also at a few points in between, so that every
    interleaving the lock allows is a sequence of sections; the whole call is
    the sections one after another.

    Sequence numbers are 32-bit serial numbers. The clock is read once per
    call (`now`). Addresses, ports, checksums, the lock and the sleeping task
    are left out: no decision modelled here reads them. -/

namespace Cervus.Tcp

/-! ## Section 1: Data -/

def tcpMss : Nat := 1400

def tcpRtoMin : Int := 200

def tcpRtoMax : Nat := 60000

def tcpWscale : Nat := 7

def tcpSndbuf : Nat := 16384

def tcpRcvbuf : Nat := 65536

def tcpOooMax : Nat := 16

inductive TcpState where
  | closed
  | listen
  | synSent
  | synRcvd
  | established
  | finWait1
  | finWait2
  | closeWait
  | lastAck
  | timeWait
  deriving DecidableEq, Repr

/-- The header bits `TH_*` that the code tests or sets. -/
structure TcpFlags where
  fin : Bool := false
  syn : Bool := false
  rst : Bool := false
  psh : Bool := false
  ack : Bool := false
  deriving DecidableEq, Repr

/-- An arriving segment as `tcp_input` reads it, if its header length is between 20 and the
    length of the segment (any other segment is dropped at once): header fields, the option
    bytes between the fixed header and the payload, and the payload. It came in one IP packet,
    so the length of the payload fits 16 bits. -/
structure TcpSegment where
  seq : Nat
  ack : Nat
  flags : TcpFlags
  win : Nat
  opts : List UInt8
  data : List UInt8
  seq_lt : seq < 2 ^ 32
  ack_lt : ack < 2 ^ 32
  data_len : data.length < 2 ^ 16

/-- A segment given to the IP layer by `tcp_output`. -/
structure TcpOut where
  seq : Nat
  ack : Nat
  flags : TcpFlags
  win : Nat
  data : List UInt8
  deriving DecidableEq, Repr

/-- `tcp_ooo_t`: a segment kept for later; `len` is the length of `data`. -/
structure TcpOoo where
  seq : Nat
  data : List UInt8
  deriving DecidableEq, Repr

/-- `struct tcp_tcb`. `sndbuf` holds the first `snd_buflen` bytes of the send
    buffer; the receive ring's cells, `rcv_head`, `rcv_tail` and `rcv_count`
    are the fields of `rcv`. -/
structure TcpTcb where
  state : TcpState
  iss : Nat
  sndUna : Nat
  sndNxt : Nat
  rcvNxt : Nat
  sndWnd : Nat
  sndWscale : Nat
  rcvWscale : Nat
  wscaleOk : Bool
  peerMss : Nat
  cwnd : Nat
  ssthresh : Nat
  dupacks : Nat
  rttSeq : Nat
  rttStart : Nat
  rttTiming : Bool
  srtt : Int
  rttvar : Int
  rtoMs : Nat
  sndbuf : List UInt8
  pendSyn : Bool
  pendFin : Bool
  finSent : Bool
  rcv : Ring UInt8 tcpRcvbuf
  finSeen : Bool
  reset : Bool
  appClosed : Bool
  rexmitMs : Nat
  retries : Nat
  closeMs : Nat
  ooo : List TcpOoo
  isListener : Bool

def TcpTcb.sndBuflen (t : TcpTcb) : Nat := t.sndbuf.length

/-! ## Section 2: Receive side -/

/-- `rcv_push`: put into the ring what fits and advance `rcv_nxt` by that much. -/
def rcvPush (t : TcpTcb) (data : List UInt8) : TcpTcb :=
  let space := tcpRcvbuf - t.rcv.count
  let n := min data.length space
  { t with rcv := t.rcv.push data, rcvNxt := u32 (t.rcvNxt + n) }

/-- The sorted insertion of `ooo_insert`. -/
def oooPlace (q : TcpOoo) : List TcpOoo → List TcpOoo
  | [] => [q]
  | p :: rest => if i32 (sub32 p.seq q.seq) < 0 then p :: oooPlace q rest else q :: p :: rest

/-- `ooo_insert`. `alloc` says whether both allocations succeed. -/
def oooInsert (alloc : Bool) (t : TcpTcb) (seq : Nat) (data : List UInt8) : TcpTcb :=
  if t.ooo.any (fun q => q.seq == seq && decide (data.length ≤ q.data.length)) then t
  else if tcpOooMax ≤ t.ooo.length then t
  else if alloc then { t with ooo := oooPlace { seq, data } t.ooo }
  else t

/-- One pass of `ooo_drain` over the queue: push what continues the stream,
    drop what lies before it, keep the rest. Also says whether any was removed. -/
def oooDrainPass (t : TcpTcb) : List TcpOoo → TcpTcb × List TcpOoo × Bool
  | [] => (t, [], false)
  | q :: rest =>
    let off := i32 (sub32 t.rcvNxt q.seq)
    if 0 ≤ off ∧ off.toNat < q.data.length then
      let r := oooDrainPass (rcvPush t (q.data.drop off.toNat)) rest
      (r.1, r.2.1, true)
    else if i32 q.data.length ≤ off then
      let r := oooDrainPass t rest
      (r.1, r.2.1, true)
    else
      let r := oooDrainPass t rest
      (r.1, q :: r.2.1, r.2.2)

/-- The outer loop of `ooo_drain`. A pass that made progress removed an entry,
    so the length of the queue bounds the number of passes. -/
def oooDrainLoop : Nat → TcpTcb → TcpTcb
  | 0, t => t
  | fuel + 1, t =>
    let r := oooDrainPass t t.ooo
    let t' := { r.1 with ooo := r.2.1 }
    if r.2.2 then oooDrainLoop fuel t' else t'

def oooDrain (t : TcpTcb) : TcpTcb := oooDrainLoop (t.ooo.length + 1) t

theorem oooDrainPass_eq (qs : List TcpOoo) (t : TcpTcb) :
    ∃ rcv nxt, (oooDrainPass t qs).1 = { t with rcv := rcv, rcvNxt := nxt } := by
  induction qs generalizing t with
  | nil => exact ⟨_, _, rfl⟩
  | cons q qs ih =>
    simp only [oooDrainPass]
    split
    · obtain ⟨rcv, nxt, hrest⟩ := ih (rcvPush t (q.data.drop (i32 (sub32 t.rcvNxt q.seq)).toNat))
      exact ⟨rcv, nxt, hrest⟩
    · split
      · exact ih t
      · exact ih t

/-- `ooo_drain` changes the receive ring, its position and the queue, and nothing else. -/
theorem oooDrain_eq (t : TcpTcb) :
    ∃ rcv nxt ooo, oooDrain t = { t with rcv := rcv, rcvNxt := nxt, ooo := ooo } := by
  have hloop : ∀ fuel (t : TcpTcb), ∃ rcv nxt ooo,
      oooDrainLoop fuel t = { t with rcv := rcv, rcvNxt := nxt, ooo := ooo } := by
    intro fuel
    induction fuel with
    | zero => exact fun t => ⟨_, _, _, rfl⟩
    | succ fuel ih =>
      intro t
      obtain ⟨rcv, nxt, hpass⟩ := oooDrainPass_eq t.ooo t
      simp only [oooDrainLoop, hpass]
      split
      · obtain ⟨rcv', nxt', ooo, hrest⟩ :=
          ih { t with rcv := rcv, rcvNxt := nxt, ooo := (oooDrainPass t t.ooo).2.1 }
        exact ⟨rcv', nxt', ooo, hrest⟩
      · exact ⟨_, _, _, rfl⟩
  exact hloop _ t

/-! ## Section 3: Output -/

/-- `tcp_output`: the segment that goes out. -/
def tcpOutput (t : TcpTcb) (seq : Nat) (flags : TcpFlags) (data : List UInt8) : TcpOut :=
  let win := tcpRcvbuf - t.rcv.count
  let win := if !flags.syn && t.rcvWscale != 0 then win >>> t.rcvWscale else win
  { seq, ack := t.rcvNxt, flags, win := min win 65535, data := data.take tcpMss }

/-- The acknowledgement that several branches send. -/
def ackOut (t : TcpTcb) : TcpOut := tcpOutput t t.sndNxt { ack := true } []

/-- The number of bytes the next round of `tcp_try_send` sends. -/
def sendChunk (t : TcpTcb) : Nat :=
  let inflight := sub32 t.sndNxt t.sndUna
  let unsent := if inflight < t.sndBuflen then t.sndBuflen - inflight else 0
  let wnd := if t.sndWnd ≠ 0 then t.sndWnd else 1
  let wnd := if t.cwnd ≠ 0 ∧ t.cwnd < wnd then t.cwnd else wnd
  let canwnd := if inflight < wnd then wnd - inflight else 0
  let mss := if t.peerMss < tcpMss then t.peerMss else tcpMss
  min (min unsent canwnd) mss

/-- The states in which `tcp_try_send` sends. -/
def TcpState.sends : TcpState → Bool
  | .established | .closeWait | .finWait1 | .lastAck => true
  | _ => false

/-- A data round of `tcp_try_send`. -/
def sendData (now : Nat) (t : TcpTcb) : TcpTcb × TcpOut :=
  let n := sendChunk t
  let inflight := sub32 t.sndNxt t.sndUna
  let seq := t.sndNxt
  let t' := { t with
    sndNxt := u32 (t.sndNxt + n)
    rttTiming := true
    rttSeq := if t.rttTiming then t.rttSeq else seq
    rttStart := if t.rttTiming then t.rttStart else now
    rexmitMs := if t.rexmitMs = 0 then now + t.rtoMs else t.rexmitMs }
  (t', tcpOutput t' seq { ack := true, psh := true } ((t.sndbuf.drop inflight).take n))

/-- The FIN round of `tcp_try_send`. -/
def sendFin (now : Nat) (t : TcpTcb) : TcpTcb × TcpOut :=
  let seq := t.sndNxt
  let t' := { t with
    finSent := true
    sndNxt := u32 (t.sndNxt + 1)
    rexmitMs := if t.rexmitMs = 0 then now + 1000 else t.rexmitMs }
  (t', tcpOutput t' seq { ack := true, fin := true } [])

/-- The rounds of `tcp_try_send`. Each data round sends at least one byte, so
    the length of the send buffer bounds their number. -/
def trySendLoop (now : Nat) : Nat → TcpTcb → TcpTcb × List TcpOut
  | 0, t => (t, [])
  | fuel + 1, t =>
    if !t.state.sends then (t, [])
    else if 0 < sendChunk t then
      let s := sendData now t
      let r := trySendLoop now fuel s.1
      (r.1, s.2 :: r.2)
    else if t.pendFin && !t.finSent && t.sndBuflen == 0 && t.sndUna == t.sndNxt then
      let s := sendFin now t
      (s.1, [s.2])
    else (t, [])

def tcpTrySend (now : Nat) (t : TcpTcb) : TcpTcb × List TcpOut :=
  trySendLoop now (t.sndBuflen + 1) t

/-- One round of `tcp_try_send`. -/
def sendRound (now : Nat) (t : TcpTcb) : TcpTcb × List TcpOut := trySendLoop now 1 t

/-- The rounds change what is in flight and its timers, and nothing else. -/
theorem trySendLoop_eq (now fuel : Nat) (t : TcpTcb) :
    ∃ nxt timing seq start rexmit fin, (trySendLoop now fuel t).1 = { t with
        sndNxt := nxt, rttTiming := timing, rttSeq := seq, rttStart := start, rexmitMs := rexmit
        finSent := fin } := by
  induction fuel generalizing t with
  | zero => exact ⟨_, _, _, _, _, _, rfl⟩
  | succ fuel ih =>
    simp only [trySendLoop]
    split
    · exact ⟨_, _, _, _, _, _, rfl⟩
    split
    · obtain ⟨nxt, timing, seq, start, rexmit, fin, hrest⟩ := ih (sendData now t).1
      exact ⟨nxt, timing, seq, start, rexmit, fin, hrest⟩
    · split
      · exact ⟨_, _, _, _, _, _, rfl⟩
      · exact ⟨_, _, _, _, _, _, rfl⟩

/-! ## Section 4: Round trip time and congestion -/

def tcpRtoInit (t : TcpTcb) : TcpTcb :=
  { t with
    srtt := -1, rttvar := 0, rtoMs := 1000, cwnd := 2 * tcpMss, ssthresh := 64 * 1024
    rcvWscale := tcpWscale, peerMss := 536 }

def tcpRttUpdate (t : TcpTcb) (sample : Int) : TcpTcb :=
  let sample := if sample < 1 then 1 else sample
  let d : Int := (t.srtt - sample).natAbs
  let rttvar := if t.srtt < 0 then sample.tdiv 2 else (3 * t.rttvar + d).tdiv 4
  let srtt := if t.srtt < 0 then sample else (7 * t.srtt + sample).tdiv 8
  let rto := min (max (srtt + 4 * rttvar) tcpRtoMin) tcpRtoMax
  { t with srtt, rttvar, rtoMs := rto.toNat }

def tcpLoss (t : TcpTcb) : TcpTcb :=
  let half := sub32 t.sndNxt t.sndUna / 2
  { t with ssthresh := max half (2 * tcpMss), cwnd := tcpMss, dupacks := 0 }

/-- One option of `tcp_parse_opts`: the maximum segment size or the window scale. -/
def tcpOption (t : TcpTcb) (kind : UInt8) (body : List UInt8) : TcpTcb :=
  match kind.toNat, body with
  | 2, [hi, lo] =>
    if 128 ≤ hi.toNat * 256 + lo.toNat then { t with peerMss := hi.toNat * 256 + lo.toNat }
    else t
  | 3, [ws] => { t with sndWscale := min ws.toNat 14, wscaleOk := true }
  | _, _ => t

/-- `tcp_parse_opts` on the option bytes. -/
def tcpParseOpts : Nat → TcpTcb → List UInt8 → TcpTcb
  | 0, t, _ => t
  | fuel + 1, t, kind :: olen :: rest =>
    if kind = 0 then t
    else if kind = 1 then tcpParseOpts fuel t (olen :: rest)
    else if olen < 2 ∨ rest.length + 2 < olen.toNat then t
    else
      tcpParseOpts fuel (tcpOption t kind (rest.take (olen.toNat - 2)))
        (rest.drop (olen.toNat - 2))
  | _ + 1, t, _ => t

/-! ## Section 5: Arriving segments -/

/-- How far a call of `tcp_input` has got. -/
inductive InputPc where
  | idle
  | start (seg : TcpSegment)
  | resend (seg : TcpSegment)
  | transitions (seg : TcpSegment)
  | data (seg : TcpSegment)
  | fin (seg : TcpSegment)
  | trySend

/-- `data_acked`: the bytes of the send buffer that an acknowledgement covers. -/
def dataAcked (t : TcpTcb) (ack : Nat) : Nat :=
  let adv := sub32 ack t.sndUna
  min (if t.finSent && ack == t.sndNxt && decide (0 < adv) then adv - 1 else adv) t.sndBuflen

/-- The round trip time sample of an acknowledgement. -/
def ackRtt (now : Nat) (t : TcpTcb) (ack : Nat) : TcpTcb :=
  if t.rttTiming && decide (0 < i32 (sub32 ack t.rttSeq)) then
    { tcpRttUpdate t (i32 (sub64 now t.rttStart)) with rttTiming := false }
  else t

/-- The congestion window after an acknowledgement. -/
def ackCwnd (t : TcpTcb) : Nat :=
  let cwnd :=
    if t.cwnd < t.ssthresh then t.cwnd + tcpMss
    else
      let inc := (tcpMss * tcpMss) / (if t.cwnd ≠ 0 then t.cwnd else tcpMss)
      t.cwnd + (if inc ≠ 0 then inc else 1)
  min cwnd (tcpSndbuf * 4)

/-- The branch of `tcp_input` for an acknowledgement of new data. -/
def ackAdvance (now : Nat) (t : TcpTcb) (ack : Nat) : TcpTcb :=
  let t := ackRtt now { t with sndbuf := t.sndbuf.drop (dataAcked t ack) } ack
  { t with
    cwnd := ackCwnd t
    dupacks := 0
    sndUna := ack
    retries := 0
    rexmitMs := if ack = t.sndNxt then 0 else now + t.rtoMs }

/-- Go back to the first unacknowledged byte. -/
def rewind (t : TcpTcb) : TcpTcb := { t with sndNxt := t.sndUna, finSent := false }

/-- The third duplicate acknowledgement. -/
def fastRetransmit (now : Nat) (t : TcpTcb) : TcpTcb :=
  let t := tcpLoss t
  let ssthresh := if tcpMss < t.cwnd then t.cwnd else 2 * tcpMss
  rewind { t with ssthresh, cwnd := ssthresh + 3 * tcpMss, rexmitMs := now + t.rtoMs }

/-- The acknowledgement part of `tcp_input` up to where the lock is released
    for a retransmission. -/
def inputAck (now : Nat) (t : TcpTcb) (seg : TcpSegment) : TcpTcb × InputPc :=
  if seg.flags.ack then
    if 0 < i32 (sub32 seg.ack t.sndUna) ∧ i32 (sub32 seg.ack t.sndNxt) ≤ 0 then
      (ackAdvance now t seg.ack, .transitions seg)
    else if seg.data.length = 0 ∧ seg.ack = t.sndUna ∧ t.sndNxt ≠ t.sndUna ∧
        seg.flags.syn = false ∧ seg.flags.fin = false then
      let t := { t with dupacks := u32 (t.dupacks + 1) }
      if t.dupacks = 3 then (fastRetransmit now t, .resend seg)
      else (t, .transitions seg)
    else (t, .transitions seg)
  else (t, .data seg)

/-- The options of a SYN. -/
def inputOpts (t : TcpTcb) (seg : TcpSegment) : TcpTcb :=
  if seg.flags.syn then
    let t := tcpParseOpts seg.opts.length t seg.opts
    if t.wscaleOk then t else { t with sndWscale := 0, rcvWscale := 0 }
  else t

theorem tcpParseOpts_eq (fuel : Nat) (t : TcpTcb) (opts : List UInt8) :
    ∃ mss ws ok, tcpParseOpts fuel t opts =
      { t with peerMss := mss, sndWscale := ws, wscaleOk := ok } := by
  fun_induction tcpParseOpts fuel t opts with
  | case3 fuel t olen rest h ih => exact ih
  | case5 fuel t kind olen rest h0 h1 hlen ih =>
    obtain ⟨mss, ws, ok, hrest⟩ := ih
    rw [hrest]
    refine ⟨mss, ws, ok, ?_⟩
    unfold tcpOption
    split
    · split <;> rfl
    · rfl
    · rfl
  | case1 | case2 | case4 | case6 => exact ⟨_, _, _, rfl⟩

/-- The options of a SYN change the negotiated sizes and nothing else. -/
theorem inputOpts_eq (t : TcpTcb) (seg : TcpSegment) : ∃ mss ws rws ok, inputOpts t seg =
      { t with peerMss := mss, sndWscale := ws, rcvWscale := rws, wscaleOk := ok } := by
  unfold inputOpts
  split
  · obtain ⟨mss, ws, ok, hopts⟩ := tcpParseOpts_eq seg.opts.length t seg.opts
    rw [hopts]
    dsimp only
    split <;> exact ⟨_, _, _, _, rfl⟩
  · exact ⟨_, _, _, _, rfl⟩

/-- The peer's window. -/
def inputWnd (t : TcpTcb) (seg : TcpSegment) : TcpTcb :=
  { t with sndWnd := u32 (seg.win <<< (if seg.flags.syn then 0 else t.sndWscale)) }

/-- The SYN and acknowledgement that `SYN_SENT` waits for. -/
def synSentEstablish (t : TcpTcb) (seg : TcpSegment) : TcpTcb :=
  { t with
    rcvNxt := u32 (seg.seq + 1), sndUna := seg.ack, pendSyn := false, state := .established }

/-- The acknowledgement that `SYN_RCVD` waits for. -/
def synRcvdEstablish (t : TcpTcb) (seg : TcpSegment) : TcpTcb :=
  { t with sndUna := seg.ack, pendSyn := false, rexmitMs := 0, state := .established }

/-- `tcp_input` after a RST was ruled out and options and window are taken. -/
def inputSynchronize (now : Nat) (t : TcpTcb) (seg : TcpSegment) :
    TcpTcb × List TcpOut × InputPc :=
  if t.state = .synSent then
    if seg.flags.syn && seg.flags.ack && seg.ack == u32 (t.iss + 1) then
      let t := synSentEstablish t seg
      (t, [ackOut t], .idle)
    else (t, [], .idle)
  else if t.state = .synRcvd then
    if seg.flags.ack && seg.ack == u32 (t.iss + 1) then (synRcvdEstablish t seg, [], .idle)
    else (t, [], .idle)
  else
    let r := inputAck now t seg
    (r.1, [], r.2)

/-- `tcp_input` from its beginning to the acknowledgement part. -/
def inputStart (now : Nat) (t : TcpTcb) (seg : TcpSegment) : TcpTcb × List TcpOut × InputPc :=
  if seg.flags.rst then ({ t with reset := true, state := .closed }, [], .idle)
  else inputSynchronize now (inputWnd (inputOpts t seg) seg) seg

/-- The state changes of `tcp_input` on an acknowledgement. -/
def ackTransitions (t : TcpTcb) : TcpTcb :=
  if t.state = .finWait1 ∧ t.sndUna = t.sndNxt then { t with state := .finWait2 }
  else if t.state = .lastAck ∧ t.sndUna = t.sndNxt then { t with state := .closed }
  else t

/-- `data_ok` of `tcp_input` -/
def TcpState.dataOk : TcpState → Bool
  | .established | .finWait1 | .finWait2 => true
  | _ => false

/-- The data part of `tcp_input`. -/
def inputData (alloc : Bool) (t : TcpTcb) (seg : TcpSegment) :
    TcpTcb × List TcpOut × InputPc :=
  if 0 < seg.data.length ∧ t.state.dataOk then
    let off := i32 (sub32 t.rcvNxt seg.seq)
    if i32 seg.data.length ≤ off then (t, [ackOut t], .idle)
    else if 0 ≤ off then
      let t := oooDrain (rcvPush t (seg.data.drop off.toNat))
      (t, [ackOut t], .fin seg)
    else
      let t := oooInsert alloc t seg.seq seg.data
      (t, [ackOut t], .idle)
  else (t, [], .fin seg)

/-- The data part changes the receive side and nothing else. -/
theorem inputData_eq (alloc : Bool) (t : TcpTcb) (seg : TcpSegment) : ∃ rcv nxt ooo,
    (inputData alloc t seg).1 = { t with rcv := rcv, rcvNxt := nxt, ooo := ooo } := by
  unfold inputData
  split
  · dsimp only
    split
    · exact ⟨_, _, _, rfl⟩
    split
    · exact oooDrain_eq (rcvPush t _)
    unfold oooInsert
    split
    · exact ⟨_, _, _, rfl⟩
    split
    · exact ⟨_, _, _, rfl⟩
    split <;> exact ⟨_, _, _, rfl⟩
  · exact ⟨_, _, _, rfl⟩

/-- The state changes of `tcp_input` on the peer's FIN. -/
def finTransitions (now : Nat) (t : TcpTcb) : TcpTcb :=
  if t.state = .established then { t with state := .closeWait }
  else if t.state = .finWait1 ∨ t.state = .finWait2 then
    { t with state := .timeWait, closeMs := now }
  else t

/-- The FIN part of `tcp_input`. -/
def inputFin (now : Nat) (t : TcpTcb) (seg : TcpSegment) : TcpTcb × List TcpOut × InputPc :=
  if seg.flags.fin ∧ u32 (seg.seq + seg.data.length) = t.rcvNxt then
    let t := finTransitions now { t with rcvNxt := u32 (t.rcvNxt + 1), finSeen := true }
    (t, [ackOut t], .idle)
  else (t, [], .trySend)

/-- One section of `tcp_input`. -/
def inputSection (now : Nat) (alloc : Bool) (t : TcpTcb) :
    InputPc → TcpTcb × List TcpOut × InputPc
  | .idle => (t, [], .idle)
  | .start seg => inputStart now t seg
  | .resend seg => let r := tcpTrySend now t; (r.1, r.2, .transitions seg)
  | .transitions seg => (ackTransitions t, [], .data seg)
  | .data seg => inputData alloc t seg
  | .fin seg => inputFin now t seg
  | .trySend => let r := tcpTrySend now t; (r.1, r.2, .idle)

/-- `n` sections of `tcp_input` in a row. -/
def inputSections (now : Nat) (alloc : Bool) : Nat → TcpTcb → InputPc → TcpTcb × List TcpOut
  | 0, t, _ => (t, [])
  | n + 1, t, pc =>
    let r := inputSection now alloc t pc
    let rest := inputSections now alloc n r.1 r.2.2
    (rest.1, r.2.1 ++ rest.2)

/-- `tcp_input` as one uninterrupted call: from the start it is idle after at
    most six sections. -/
def tcpInput (now : Nat) (alloc : Bool) (t : TcpTcb) (seg : TcpSegment) :
    TcpTcb × List TcpOut :=
  inputSections now alloc 6 t (.start seg)

/-! ## Section 6: Calls of the application and the timer -/

/-- What a round of the loop in `tcp_recv` does: return, or sleep and retry. -/
inductive RecvResult where
  | ret (value : Int) (bytes : List UInt8)
  | sleep

/-- `EINVAL`, `EAGAIN`, `EINTR` -/
def eINVAL : Int := 22

@[inherit_doc eINVAL] def eAGAIN : Int := 11

@[inherit_doc eINVAL] def eINTR : Int := 4

/-- One round of `tcp_recv`; `killed` is the caller's `pending_kill`. -/
def tcpRecv (t : TcpTcb) (len : Nat) (nonblock killed : Bool) :
    TcpTcb × List TcpOut × RecvResult :=
  if 0 < t.rcv.count then
    let before := t.rcv.count
    let r := t.rcv.pop len
    let t := { t with rcv := r.2 }
    let windowReopened :=
      decide (tcpRcvbuf - 2 * tcpMss ≤ before) &&
      decide (t.rcv.count < tcpRcvbuf - 2 * tcpMss) && t.state.dataOk
    (t, if windowReopened then [ackOut t] else [], .ret r.1.length r.1)
  else if t.reset then (t, [], .ret (-eINVAL) [])
  else if t.finSeen then (t, [], .ret 0 [])
  else if nonblock then (t, [], .ret (-eAGAIN) [])
  else if killed then (t, [], .ret (-eINTR) [])
  else (t, [], .sleep)

/-- Bytes of the application go to the end of the send buffer. -/
def appendSnd (t : TcpTcb) (data : List UInt8) : TcpTcb := { t with sndbuf := t.sndbuf ++ data }

/-- One round of the loop in `tcp_send` that finds `data` still to be sent:
    how many bytes it takes (none when it returns or sleeps). -/
def tcpSend (now : Nat) (t : TcpTcb) (data : List UInt8) : TcpTcb × List TcpOut × Nat :=
  if t.reset ∨ (t.state ≠ .established ∧ t.state ≠ .closeWait) then (t, [], 0)
  else
    let space := tcpSndbuf - t.sndBuflen
    if space = 0 then (t, [], 0)
    else
      let n := min (u32 data.length) space
      let r := tcpTrySend now (appendSnd t (data.take n))
      (r.1, r.2, n)

/-- How many bytes of `data` a round of `tcp_send` takes into the buffer. -/
def sendTake (t : TcpTcb) (data : List UInt8) : Nat :=
  if t.reset ∨ (t.state ≠ .established ∧ t.state ≠ .closeWait) then 0
  else min (u32 data.length) (tcpSndbuf - t.sndBuflen)

/-- Every close is noted, with its time. -/
def noteClose (now : Nat) (t : TcpTcb) : TcpTcb := { t with appClosed := true, closeMs := now }

/-- The application is done sending: a FIN is due. -/
def requestFin (t : TcpTcb) (state : TcpState) : TcpTcb := { t with state, pendFin := true }

def tcpClose (now : Nat) (t : TcpTcb) : TcpTcb × List TcpOut :=
  if t.isListener then ({ noteClose now t with state := .closed }, [])
  else if t.state = .established then
    tcpTrySend now (requestFin (noteClose now t) .finWait1)
  else if t.state = .closeWait then
    tcpTrySend now (requestFin (noteClose now t) .lastAck)
  else (noteClose now t, [])

/-- `tcp_close` up to where it calls `tcp_try_send`. -/
def closeSection (now : Nat) (t : TcpTcb) : TcpTcb :=
  if t.isListener then { noteClose now t with state := .closed }
  else if t.state = .established then requestFin (noteClose now t) .finWait1
  else if t.state = .closeWait then requestFin (noteClose now t) .lastAck
  else noteClose now t

/-- The timer has run out for the `retries`-th time: back off. -/
def backOff (now : Nat) (t : TcpTcb) (retries : Nat) : TcpTcb :=
  let t := tcpLoss t
  let back := min (u32 (t.rtoMs <<< (if 6 < retries then 6 else retries))) tcpRtoMax
  { t with retries, rttTiming := false, rexmitMs := now + back }

/-- What `tcp_tick` does with one control block, other than freeing it. -/
def tcpTick (now : Nat) (t : TcpTcb) : TcpTcb × List TcpOut :=
  if t.reset ∨ t.state = .closed ∨ t.state = .timeWait then (t, [])
  else if t.rexmitMs ≠ 0 ∧ t.rexmitMs ≤ now then
    let retries := t.retries + 1
    if 10 < retries then ({ t with retries, reset := true }, [])
    else if t.pendSyn then
      let t := backOff now t retries
      (t, [tcpOutput t t.sndUna { syn := true, ack := t.state = .synRcvd } []])
    else tcpTrySend now (rewind (backOff now t retries))
  else (t, [])

/-- `tcp_tick` up to where it calls `tcp_try_send`. -/
def tickSection (now : Nat) (t : TcpTcb) : TcpTcb × List TcpOut :=
  if t.reset ∨ t.state = .closed ∨ t.state = .timeWait then (t, [])
  else if t.rexmitMs ≠ 0 ∧ t.rexmitMs ≤ now then
    let retries := t.retries + 1
    if 10 < retries then ({ t with retries, reset := true }, [])
    else if t.pendSyn then
      let t := backOff now t retries
      (t, [tcpOutput t t.sndUna { syn := true, ack := t.state = .synRcvd } []])
    else (rewind (backOff now t retries), [])
  else (t, [])

/-- `tcp_tick` frees a control block that is finished and not waited for. -/
def reaps (now : Nat) (t : TcpTcb) (waited : Bool) : Bool :=
  !waited &&
    (((t.reset || t.state == .closed) && t.appClosed) ||
      (!t.reset && t.state == .timeWait && decide (2000 < sub64 now t.closeMs)))

/-- A zeroed control block with its receive buffer, after `tcp_rto_init`. -/
def newTcb (buf : Nat → UInt8) (iss : Nat) : TcpTcb :=
  tcpRtoInit {
    state := .closed, iss := u32 iss, sndUna := u32 iss, sndNxt := u32 (u32 iss + 1), rcvNxt := 0
    sndWnd := 0, sndWscale := 0, rcvWscale := 0, wscaleOk := false, peerMss := 0
    cwnd := 0, ssthresh := 0, dupacks := 0, rttSeq := 0, rttStart := 0, rttTiming := false
    srtt := 0, rttvar := 0, rtoMs := 0, sndbuf := [], pendSyn := true, pendFin := false
    finSent := false, rcv := { buf, head := 0, tail := 0, count := 0 }
    finSeen := false, reset := false, appClosed := false, rexmitMs := 0, retries := 0
    closeMs := 0, ooo := [], isListener := false }

/-- `tcp_connect_start`; the initial sequence number is a function of the clock. -/
def tcpConnectStart (now : Nat) (buf : Nat → UInt8) : TcpTcb × List TcpOut :=
  let t := { newTcb buf (u32 (now * 2654435761) ^^^ 0xa5a5) with
    state := .synSent, rexmitMs := now + 1000 }
  (t, [tcpOutput t t.iss { syn := true } []])

/-- `tcp_accept_syn` for a SYN with sequence number `seq` -/
def tcpAcceptSyn (now : Nat) (buf : Nat → UInt8) (seq : Nat) : TcpTcb × List TcpOut :=
  let t := { newTcb buf (u32 (now * 2654435761) ^^^ 0x5a5a) with
    state := .synRcvd, rexmitMs := now + 1000, rcvNxt := u32 (seq + 1) }
  (t, [tcpOutput t t.iss { syn := true, ack := true } []])

end Cervus.Tcp
