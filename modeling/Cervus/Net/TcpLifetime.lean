import Cervus.Net.TcpStack

/-! # The lifetime of control blocks

    Control blocks point at each other and sockets point at control blocks, without reference
    counts. `tcp_tick` frees a block that is finished once the application has closed it, and
    asks nobody who still points at it. Two orders of calls free a block that is in use
    (`reaped_while_referenced`):

    * a listener is closed while a half-open child still names it. The child's handshake then
      writes the accept queue of a freed block;
    * `shutdown` closes the block of a socket that stays open, and the peer resets it.

    `reap_safe`: the blocks that `tcp_tick` frees are unreferenced in every run where a listener
    is closed only without children and takes no SYN after that, and no socket with a block is
    shut down for writing. -/

namespace Cervus.Tcp

open Function List

/-! ## Section 1: Who holds a block -/

/-- Where a block is: one holder at most. -/
inductive Place where
  | halfOpen
  | pending (p : Pending)
  | queued (l : TcbId)
  | owned (s : SockId)
  | released

/-- **Invariant**: `place` says where each block is, the pointers are to live blocks, and blocks
    that are named as a listener are open. -/
structure Held (st : Stack) (place : TcbId → Place) : Prop where
  sock     : ∀ s t, st.owned s = some t → t ∈ st.gTcbs ∧ place t = .owned s
  queue    : ∀ l ∈ st.gTcbs, ∀ c ∈ (st.heap l).acceptQ,
    c ∈ st.gTcbs ∧ place c = .queued l ∧ (st.heap c).listener = some l
  nodup    : ∀ l ∈ st.gTcbs, (st.heap l).acceptQ.Nodup
  pending  : ∀ p ∈ st.pending, p.tcb ∈ st.gTcbs ∧ place p.tcb = .pending p
  once     : st.pending.Nodup
  halfOpen : ∀ c ∈ st.gTcbs, (st.heap c).tcb.state = .synRcvd → place c = .halfOpen
  closed   : ∀ t ∈ st.gTcbs, (st.heap t).tcb.appClosed = true → place t = .released
  finished : ∀ t ∈ st.gTcbs, (st.heap t).tcb.state.finishing = true →
    (st.heap t).tcb.appClosed = true
  listener : ∀ c ∈ st.gTcbs, ∀ l, (st.heap c).listener = some l →
    l ∈ st.gTcbs ∧ (st.heap l).tcb.appClosed = false ∧ (st.heap l).tcb.isListener = true ∧
      (st.heap c).tcb.isListener = false

/-- Nobody holds the block. -/
structure Unheld (st : Stack) (t : TcbId) : Prop where
  sock    : ∀ s, st.owned s ≠ some t
  queue   : ∀ l ∈ st.gTcbs, t ∉ (st.heap l).acceptQ
  pending : ∀ p ∈ st.pending, p.tcb ≠ t

/-- The parts of a block that connect it to others, and what they need of the rest. -/
structure BlockKept (b b' : Block) : Prop where
  tcb      : Kept b.tcb b'.tcb
  listener : b'.listener = b.listener
  acceptQ  : b'.acceptQ = b.acceptQ

section Held

variable {st : Stack} {place : TcbId → Place} {t c l : TcbId} {s : SockId}

theorem Stack.owned_setSock (k : Option Sock) (s' : SockId) :
    (st.setSock s k).owned s' = if s' = s then k.bind Sock.tcb else st.owned s' := by
  simp only [Stack.owned, Stack.setSock, update_apply]
  split
  · rfl
  · rfl

section

variable (h : Held st place)
include h

/-- A block that is nowhere, or half open, is not held. -/
theorem Held.unheld (hs : ∀ s, place t ≠ .owned s)
    (hq : ∀ l, place t ≠ .queued l) (hp : ∀ p, place t ≠ .pending p) : Unheld st t where
  sock s he := hs s (h.sock s t he).2
  queue l hl hmem := hq l (h.queue l hl t hmem).2.1
  pending p hmem he := hp p (he ▸ (h.pending p hmem).2)

theorem Held.unheld_of_not_mem (ht : t ∉ st.gTcbs) : Unheld st t where
  sock s he := ht (h.sock s t he).1
  queue l hl hmem := ht (h.queue l hl t hmem).1
  pending p hmem he := ht (he ▸ (h.pending p hmem).1)

/-- An unheld block may be given another place. -/
theorem Held.move (hfree : Unheld st t) (p : Place)
    (hhalf : t ∈ st.gTcbs → (st.heap t).tcb.state = .synRcvd → p = .halfOpen)
    (hclosed : t ∈ st.gTcbs → (st.heap t).tcb.appClosed = true → p = .released) :
    Held st (update place t p) where
  sock s u hu := by
    have hne : u ≠ t := fun he => hfree.sock s (he ▸ hu)
    rw [update_of_ne hne]
    exact h.sock s u hu
  queue l hl c hc := by
    have hne : c ≠ t := fun he => hfree.queue l hl (he ▸ hc)
    rw [update_of_ne hne]
    exact h.queue l hl c hc
  nodup := h.nodup
  pending q hq := by
    rw [update_of_ne (hfree.pending q hq)]
    exact h.pending q hq
  once := h.once
  halfOpen c hc hs := by
    by_cases he : c = t
    · subst he
      rw [update_self]
      exact hhalf hc hs
    · rw [update_of_ne he]
      exact h.halfOpen c hc hs
  closed c hc ha := by
    by_cases he : c = t
    · subst he
      rw [update_self]
      exact hclosed hc ha
    · rw [update_of_ne he]
      exact h.closed c hc ha
  finished := h.finished
  listener := h.listener

/-- `move` for a block that was held until now, so it is neither half open nor closed. -/
theorem Held.rehold (hfree : Unheld st t) (p : Place)
    (hhalf : place t ≠ .halfOpen) (hrel : place t ≠ .released) :
    Held st (update place t p) :=
  h.move hfree p (fun ht hs => absurd (h.halfOpen t ht hs) hhalf)
    (fun ht ha => absurd (h.closed t ht ha) hrel)

theorem Held.setSock (k : Option Sock)
    (hk : ∀ t, k.bind Sock.tcb = some t → t ∈ st.gTcbs ∧ place t = .owned s) :
    Held (st.setSock s k) place :=
  { h with
    sock := fun s' t ht => by
      rw [Stack.owned_setSock] at ht
      split at ht
      · rename_i he
        exact he ▸ hk t ht
      · exact h.sock s' t ht }

/-- A change of the socket that keeps its block. -/
theorem Held.updateSock {k k' : Sock} (hs : st.socks s = some k)
    (hk : k'.tcb = k.tcb) : Held (st.setSock s (some k')) place :=
  h.setSock (some k') fun t ht => h.sock s t (by rw [Stack.owned, hs]; exact hk.symm.trans ht)

theorem Held.addPending (p : Pending) (hmem : p.tcb ∈ st.gTcbs)
    (hplace : place p.tcb = .pending p) (hnew : p ∉ st.pending) :
    Held { st with pending := p :: st.pending } place :=
  { h with
    pending := forall_mem_cons.mpr ⟨⟨hmem, hplace⟩, h.pending⟩
    once := nodup_cons.mpr ⟨hnew, h.once⟩ }

theorem Held.erasePending (p : Pending) : Held { st with pending := st.pending.erase p } place :=
  { h with
    pending := fun q hq => h.pending q (mem_of_mem_erase hq)
    once := h.once.erase p }

/-- Taken out of the calls under way, its block is not held. -/
theorem Held.unheld_erasePending {p : Pending} (hp : p ∈ st.pending) :
    Unheld { st with pending := st.pending.erase p } p.tcb where
  sock s he := nomatch (h.pending p hp).2.symm.trans (h.sock s _ he).2
  queue l hl hmem := nomatch (h.pending p hp).2.symm.trans (h.queue l hl _ hmem).2.1
  pending q hq he := by
    have hq' := (h.once.mem_erase_iff).mp hq
    have hplace := (h.pending q hq'.2).2
    rw [he, (h.pending p hp).2] at hplace
    exact hq'.1 (Place.pending.inj hplace).symm

/-- Blocks change, but not in what connects them. -/
theorem Held.setHeap (heap : TcbId → Block)
    (hkept : ∀ t ∈ st.gTcbs, BlockKept (st.heap t) (heap t)) : Held { st with heap } place where
  sock := h.sock
  queue l hl c hc := by
    rw [(hkept l hl).acceptQ] at hc
    obtain ⟨hmem, hplace, hlist⟩ := h.queue l hl c hc
    exact ⟨hmem, hplace, (hkept c hmem).listener.trans hlist⟩
  nodup l hl := (hkept l hl).acceptQ ▸ h.nodup l hl
  pending := h.pending
  once := h.once
  halfOpen c hc hs := h.halfOpen c hc ((hkept c hc).tcb.synRcvd hs)
  closed t ht ha := h.closed t ht ((hkept t ht).tcb.appClosed ▸ ha)
  finished t ht hf :=
    (hkept t ht).tcb.appClosed.trans (h.finished t ht ((hkept t ht).tcb.finishing hf))
  listener c hc l hl := by
    rw [(hkept c hc).listener] at hl
    obtain ⟨hmem, hopen, hlist, hchild⟩ := h.listener c hc l hl
    exact ⟨hmem, (hkept l hmem).tcb.appClosed.trans hopen,
      (hkept l hmem).tcb.isListener.trans hlist, (hkept c hc).tcb.isListener.trans hchild⟩

theorem Held.setTcb (tcb : TcpTcb) (hkept : Kept (st.heap t).tcb tcb) :
    Held (st.setTcb t tcb) place := by
  refine h.setHeap _ fun u _ => ?_
  by_cases he : u = t
  · subst he
    rw [update_self]
    exact ⟨hkept, rfl, rfl⟩
  · rw [update_of_ne he]
    exact ⟨.refl _, rfl, rfl⟩

/-- Another accept queue. -/
theorem Held.setQueue (q : List TcbId) (hnodup : q.Nodup)
    (hq : ∀ c ∈ q, c ∈ st.gTcbs ∧ place c = .queued l ∧ (st.heap c).listener = some l) :
    Held (st.setQueue l q) place := by
  -- only the queue of `l` differs; every other field of every block is the same
  have hfields : ∀ u, ((st.setQueue l q).heap u).tcb = (st.heap u).tcb ∧
      ((st.setQueue l q).heap u).listener = (st.heap u).listener ∧
      ((st.setQueue l q).heap u).acceptQ = if u = l then q else (st.heap u).acceptQ := by
    intro u
    simp only [Stack.setQueue, Stack.setBlock, update_apply]
    split
    · rename_i he
      exact he ▸ ⟨rfl, rfl, rfl⟩
    · exact ⟨rfl, rfl, rfl⟩
  constructor
  · exact h.sock
  · intro u hu c hc
    rw [(hfields u).2.2] at hc
    rw [(hfields c).2.1]
    split at hc
    · rename_i he
      exact he ▸ hq c hc
    · exact h.queue u hu c hc
  · intro u hu
    rw [(hfields u).2.2]
    split
    · exact hnodup
    · exact h.nodup u hu
  · exact h.pending
  · exact h.once
  · intro c hc
    rw [(hfields c).1]
    exact h.halfOpen c hc
  · intro t ht
    rw [(hfields t).1]
    exact h.closed t ht
  · intro t ht
    rw [(hfields t).1]
    exact h.finished t ht
  intro c hc u hu
  rw [(hfields c).2.1] at hu
  rw [(hfields c).1, (hfields u).1]
  exact h.listener c hc u hu

/-- A new block, open and with an empty queue. -/
theorem Held.insert (hc : c ∉ st.gTcbs) (b : Block) (p : Place)
    (hq : b.acceptQ = []) (hopen : b.tcb.appClosed = false)
    (hfin : b.tcb.state.finishing = false) (hhalf : b.tcb.state = .synRcvd → p = .halfOpen)
    (hlist : ∀ l, b.listener = some l → l ∈ st.gTcbs ∧ (st.heap l).tcb.appClosed = false ∧
      (st.heap l).tcb.isListener = true ∧ b.tcb.isListener = false) :
    Held (st.insert c b) (update place c p) := by
  have hmove := h.move (h.unheld_of_not_mem hc) p (fun ht => absurd ht hc) (fun ht => absurd ht hc)
  have hself : (st.insert c b).heap c = b := update_self ..
  have hother : ∀ u ∈ st.gTcbs, (st.insert c b).heap u = st.heap u := by
    intro u hu
    have hne : u ≠ c := fun he => hc (he ▸ hu)
    exact update_of_ne hne ..
  constructor
  · exact fun s t ht => ⟨mem_cons_of_mem _ (hmove.sock s t ht).1, (hmove.sock s t ht).2⟩
  · refine forall_mem_cons.mpr ⟨?_, fun l hl d hd => ?_⟩
    · rw [hself, hq]
      exact nofun
    · rw [hother l hl] at hd
      obtain ⟨hmem, hplace, hl'⟩ := hmove.queue l hl d hd
      exact ⟨mem_cons_of_mem _ hmem, hplace, by rw [hother d hmem]; exact hl'⟩
  · refine forall_mem_cons.mpr ⟨?_, fun l hl => ?_⟩
    · rw [hself, hq]
      exact .nil
    · rw [hother l hl]
      exact h.nodup l hl
  · exact fun q hq' => ⟨mem_cons_of_mem _ (hmove.pending q hq').1, (hmove.pending q hq').2⟩
  · exact h.once
  · refine forall_mem_cons.mpr ⟨fun hs => ?_, fun d hd => ?_⟩
    · rw [update_self]
      exact hhalf (hself ▸ hs)
    · rw [hother d hd]
      exact hmove.halfOpen d hd
  · refine forall_mem_cons.mpr ⟨fun ha => ?_, fun d hd => ?_⟩
    · rw [hself, hopen] at ha
      nomatch ha
    · rw [hother d hd]
      exact hmove.closed d hd
  · refine forall_mem_cons.mpr ⟨fun hf => ?_, fun d hd => ?_⟩
    · rw [hself, hfin] at hf
      nomatch hf
    · rw [hother d hd]
      exact h.finished d hd
  refine forall_mem_cons.mpr ⟨fun l hl => ?_, fun d hd l hl => ?_⟩
  · rw [hself] at hl ⊢
    obtain ⟨hmem, hrest⟩ := hlist l hl
    rw [hother l hmem]
    exact ⟨mem_cons_of_mem _ hmem, hrest⟩
  rw [hother d hd] at hl ⊢
  obtain ⟨hmem, hrest⟩ := h.listener d hd l hl
  rw [hother l hmem]
  exact ⟨mem_cons_of_mem _ hmem, hrest⟩

/-- `tcp_close` of a block that nobody holds and nobody names. -/
theorem Held.closeTcb (now : Nat) (hrel : place t = .released)
    (hname : ∀ c ∈ st.gTcbs, (st.heap c).listener ≠ some t) : Held (st.closeTcb now t) place := by
  obtain ⟨happ, hlisten, hsyn⟩ := tcpClose_closed now (st.heap t).tcb
  have hself : (st.closeTcb now t).heap t =
      { st.heap t with tcb := (tcpClose now (st.heap t).tcb).1 } := update_self ..
  have hother : ∀ u, u ≠ t → (st.closeTcb now t).heap u = st.heap u := fun u hu =>
    update_of_ne hu ..
  have hlink : ∀ u, ((st.closeTcb now t).heap u).listener = (st.heap u).listener ∧
      ((st.closeTcb now t).heap u).acceptQ = (st.heap u).acceptQ ∧
      ((st.closeTcb now t).heap u).tcb.isListener = (st.heap u).tcb.isListener := by
    intro u
    by_cases hu : u = t
    · subst hu
      rw [hself]
      exact ⟨rfl, rfl, hlisten⟩
    · rw [hother u hu]
      exact ⟨rfl, rfl, rfl⟩
  constructor
  · exact h.sock
  · intro l hl c hc
    rw [(hlink l).2.1] at hc
    rw [(hlink c).1]
    exact h.queue l hl c hc
  · intro l hl
    rw [(hlink l).2.1]
    exact h.nodup l hl
  · exact h.pending
  · exact h.once
  · intro c hc hs
    by_cases hu : c = t
    · subst hu
      rw [hself] at hs
      exact h.halfOpen c hc (hsyn hs)
    · rw [hother c hu] at hs
      exact h.halfOpen c hc hs
  · intro u hu ha
    by_cases he : u = t
    · exact he ▸ hrel
    · rw [hother u he] at ha
      exact h.closed u hu ha
  · intro u hu hf
    by_cases he : u = t
    · subst he
      rw [hself]
      exact happ
    · rw [hother u he] at hf ⊢
      exact h.finished u hu hf
  intro c hc l hl
  rw [(hlink c).1] at hl
  -- the listener is another block, so it is as open as before
  have hne : l ≠ t := fun he => hname c hc (he ▸ hl)
  rw [(hlink c).2.2, hother l hne]
  exact h.listener c hc l hl

/-- Closed blocks are taken out of `g_tcbs`. -/
theorem Held.reap (keep : TcbId → Bool)
    (hkeep : ∀ t ∈ st.gTcbs, keep t = false → (st.heap t).tcb.appClosed = true) :
    Held { st with gTcbs := st.gTcbs.filter keep } place := by
  have hstay : ∀ t ∈ st.gTcbs, place t ≠ .released → t ∈ st.gTcbs.filter keep := by
    intro t ht hne
    refine mem_filter.mpr ⟨ht, ?_⟩
    cases hk : keep t with
    | true => rfl
    | false => exact absurd (h.closed t ht (hkeep t ht hk)) hne
  have hold : ∀ {t}, t ∈ st.gTcbs.filter keep → t ∈ st.gTcbs := fun ht => mem_of_mem_filter ht
  constructor
  · intro s t ht
    obtain ⟨hmem, hplace⟩ := h.sock s t ht
    exact ⟨hstay t hmem (by rw [hplace]; exact nofun), hplace⟩
  · intro l hl c hc
    obtain ⟨hmem, hplace, hlist⟩ := h.queue l (hold hl) c hc
    exact ⟨hstay c hmem (by rw [hplace]; exact nofun), hplace, hlist⟩
  · exact fun l hl => h.nodup l (hold hl)
  · intro p hp
    obtain ⟨hmem, hplace⟩ := h.pending p hp
    exact ⟨hstay _ hmem (by rw [hplace]; exact nofun), hplace⟩
  · exact h.once
  · exact fun c hc => h.halfOpen c (hold hc)
  · exact fun t ht => h.closed t (hold ht)
  · exact fun t ht => h.finished t (hold ht)
  intro c hc l hl
  obtain ⟨hmem, hopen, hrest⟩ := h.listener c (hold hc) l hl
  refine ⟨mem_filter.mpr ⟨hmem, ?_⟩, hopen, hrest⟩
  cases hk : keep l with
  | true => rfl
  | false =>
    rw [hkeep l hmem hk] at hopen
    nomatch hopen

/-- What is reaped has been closed: `TIME_WAIT` is only reached after `tcp_close`. -/
theorem Held.closed_of_reaps (ht : t ∈ st.gTcbs) {now : Nat} {waited : Bool}
    (hreap : reaps now (st.heap t).tcb waited = true) : (st.heap t).tcb.appClosed = true := by
  simp only [reaps, Bool.and_eq_true, Bool.or_eq_true, beq_iff_eq] at hreap
  obtain ⟨-, ⟨-, happ⟩ | ⟨⟨-, hwait⟩, -⟩⟩ := hreap
  · exact happ
  · exact h.finished t ht (by rw [hwait]; rfl)

theorem Held.safeReap (ht : t ∈ st.gTcbs)
    (happ : (st.heap t).tcb.appClosed = true) : SafeReap st t where
  sock s hs := nomatch (h.closed t ht happ).symm.trans (h.sock s t hs).2
  queue l hl hmem := nomatch (h.closed t ht happ).symm.trans (h.queue l hl t hmem).2.1
  listener c hc _ hname := by
    rw [(h.listener c hc t hname).2.1] at happ
    nomatch happ

end

end Held

/-! ## Section 2: Every careful step keeps the invariant -/

section Steps

variable {st : Stack} {place : TcbId → Place}

section

variable (h : Held st place) {s : SockId} {c : TcbId}
include h

theorem held_connect (hc : c ∉ st.gTcbs)
    (ip port eport now : Nat) (nonblock : Bool) (buf : Nat → UInt8) :
    ∃ place', Held (st.connect s c ip port eport now nonblock buf) place' := by
  unfold Stack.connect
  split
  · exact ⟨place, h⟩
  split
  · exact ⟨place, h⟩
  have hins : ∀ p six, Held (st.insert c ⟨(tcpConnectStart now buf).1, six, eport, ip, port,
      none, []⟩) (update place c p) :=
    fun p six => h.insert hc _ p rfl rfl rfl nofun nofun
  split
  · refine ⟨_, (hins (.owned s) _).setSock _ fun t ht => ?_⟩
    cases ht
    exact ⟨mem_cons_self, update_self ..⟩
  · refine ⟨_, (hins (.pending (.connect s c)) _).addPending _ (.head _)
      (update_self ..) fun hmem => hc (h.pending _ hmem).1⟩

theorem held_connectEnd (hp : .connect s c ∈ st.pending) (ok : Bool) :
    ∃ place', Held (st.connectEnd s c ok) place' := by
  obtain ⟨hmem, hplace⟩ := h.pending _ hp
  have herase := h.erasePending (.connect s c)
  have hmove := herase.rehold (h.unheld_erasePending hp) (.owned s)
    (by rw [hplace]; exact nofun) (by rw [hplace]; exact nofun)
  unfold Stack.connectEnd
  dsimp only
  split
  · exact ⟨place, herase⟩
  refine ⟨_, hmove.setSock _ fun t ht => ?_⟩
  split at ht
  · nomatch ht
  · cases ht
    exact ⟨hmem, update_self ..⟩

theorem held_listen (hc : c ∉ st.gTcbs) :
    ∃ place', Held (st.listen s c) place' := by
  unfold Stack.listen
  split
  · exact ⟨place, h⟩
  split
  · exact ⟨place, h⟩
  rename_i k _ _
  have hins : Held (st.insert c ⟨listenTcb, k.six, k.localPort, 0, 0, none, []⟩)
      (update place c (.owned s)) :=
    h.insert hc _ _ rfl rfl rfl (fun hs => nomatch (hs : TcpState.listen = .synRcvd)) nofun
  refine ⟨_, hins.setSock _ fun t ht => ?_⟩
  cases ht
  exact ⟨mem_cons_self, update_self ..⟩

/-- The head of an accept queue is taken off: then nobody holds it. -/
theorem held_dequeue {l : TcbId} {q : List TcbId} (hl : l ∈ st.gTcbs)
    (hq : (st.heap l).acceptQ = c :: q) (p : Place) :
    Held (st.setQueue l q) (update place c p) := by
  have hall := h.queue l hl
  have hnodup := h.nodup l hl
  rw [hq] at hall hnodup
  obtain ⟨hnot, hrest⟩ := nodup_cons.mp hnodup
  obtain ⟨-, hplace, -⟩ := hall c (.head _)
  have hset := h.setQueue q hrest fun d hd => hall d (.tail _ hd)
  refine hset.rehold ⟨?_, fun u hu hmem => ?_, fun r hr he => ?_⟩ p ?_ ?_
  · exact fun s hs => nomatch hplace.symm.trans (h.sock s c hs).2
  · -- in another queue its place would be that queue, and the rest of this one has no copy
    obtain ⟨-, hplace', -⟩ := hset.queue u hu c hmem
    have hul : u = l := (Place.queued.inj (hplace.symm.trans hplace')).symm
    subst hul
    simp only [Stack.setQueue, Stack.setBlock, update_self] at hmem
    exact hnot hmem
  · have hpending := (h.pending r hr).2
    rw [he, hplace] at hpending
    nomatch hpending
  · rw [hplace]
    exact nofun
  · rw [hplace]
    exact nofun

theorem held_accept (s : SockId) (new : Option SockId) (now : Nat) :
    ∃ place', Held (st.accept s new now) place' := by
  unfold Stack.accept
  split
  · exact ⟨place, h⟩
  rename_i k hs
  split
  · exact ⟨place, h⟩
  rename_i l hl
  have hlive : l ∈ st.gTcbs := (h.sock s l (by rw [Stack.owned, hs]; exact hl)).1
  split
  · exact ⟨place, h⟩
  rename_i c q hq
  obtain ⟨hmem, -, hname⟩ := h.queue l hlive c (hq ▸ mem_cons_self)
  split
  · rename_i n
    refine ⟨_, (held_dequeue h hlive hq (.owned n)).setSock _ fun t ht => ?_⟩
    cases ht
    exact ⟨hmem, update_self ..⟩
  -- the new socket could not be allocated, and the child is closed
  have hdeq := held_dequeue h hlive hq .released
  refine ⟨_, hdeq.closeTcb now (update_self ..) fun d hd hd' => ?_⟩
  have hlisten := (hdeq.listener d hd c hd').2.2.1
  have hchild : ((st.setQueue l q).heap c).tcb = (st.heap c).tcb := by
    simp only [Stack.setQueue, Stack.setBlock, update_apply]
    split
    · rename_i he
      exact he ▸ rfl
    · rfl
  rw [hchild, (h.listener c hmem l hname).2.2.2] at hlisten
  nomatch hlisten

theorem held_shutdown {how : Nat} (now : Nat)
    (hcare : how = 1 ∨ how = 2 → st.owned s = none) :
    ∃ place', Held (st.shutdown s how now) place' := by
  unfold Stack.shutdown
  split
  · exact ⟨place, h⟩
  rename_i k hs
  split
  · rename_i hhow
    have hnone : k.tcb = none := by
      have := hcare hhow.1
      rwa [Stack.owned, hs] at this
    simp only [hnone]
    exact ⟨place, h.updateSock hs hnone.symm⟩
  · exact ⟨place, h⟩

theorem held_close (now : Nat)
    (hcare : ∀ t ∈ st.owned s, ∀ c ∈ st.gTcbs, (st.heap c).listener ≠ some t) :
    ∃ place', Held (st.close s now) place' := by
  have hgone := h.setSock (s := s) none nofun
  unfold Stack.close
  split
  · rename_i t ht
    obtain ⟨-, hplace⟩ := h.sock s t ht
    have hfree : Unheld (st.setSock s none) t := by
      refine ⟨fun s' hs' => ?_, fun l hl hmem => ?_, fun p hp he => ?_⟩
      · rw [Stack.owned_setSock] at hs'
        split at hs'
        · nomatch hs'
        · rename_i hne
          exact hne (Place.owned.inj (hplace.symm.trans (h.sock s' t hs').2)).symm
      · exact nomatch hplace.symm.trans (h.queue l hl t hmem).2.1
      · have hpending := (h.pending p hp).2
        rw [he, hplace] at hpending
        nomatch hpending
    have hmove := hgone.rehold hfree .released (by rw [hplace]; exact nofun)
      (by rw [hplace]; exact nofun)
    -- closing the block and forgetting the socket commute
    exact ⟨_, hmove.closeTcb now (update_self ..) (hcare t ht)⟩
  · exact ⟨place, hgone⟩

theorem held_segment (now : Nat) (alloc : Bool) {t : TcbId} (ht : t ∈ st.gTcbs) (seg : TcpSegment) :
    let st' := st.setTcb t (tcpInput now alloc (st.heap t).tcb seg).1
    Held st' place ∧ ((st.heap t).tcb.state = .synRcvd →
        (tcpInput now alloc (st.heap t).tcb seg).1.state = .established →
        ∃ place', Held { st' with pending := .handshake t :: st'.pending } place') := by
  have hset := h.setTcb _ (tcpInput_kept now alloc (st.heap t).tcb seg)
  refine ⟨hset, fun hsyn hest => ?_⟩
  have hplace := h.halfOpen t ht hsyn
  have hself : ((st.setTcb t (tcpInput now alloc (st.heap t).tcb seg).1).heap t).tcb =
      (tcpInput now alloc (st.heap t).tcb seg).1 := by
    simp only [Stack.setTcb, Stack.setBlock, update_self]
  have hfree := hset.unheld (by rw [hplace]; exact nofun) (by rw [hplace]; exact nofun)
    (by rw [hplace]; exact nofun)
  have hmove := hset.move hfree (.pending (.handshake t))
    (fun _ hs => by rw [hself, hest] at hs; nomatch hs)
    (fun hmem ha => nomatch hplace.symm.trans (hset.closed t hmem ha))
  exact ⟨_, hmove.addPending (.handshake t) ht (update_self ..)
    fun hmem => hfree.pending _ hmem rfl⟩

theorem held_arrive (now : Nat) (alloc six : Bool) {ip sport dport : Nat}
    {seg : TcpSegment} {child : Option TcbId} (buf : Nat → UInt8)
    (hfresh : ∀ c ∈ child, c ∉ st.gTcbs)
    (hcare : st.tcbFind six ip sport dport = none → seg.flags.syn = true → seg.flags.ack = false →
      ∀ l ∈ st.findListener six dport, (st.heap l).tcb.appClosed = false) :
    ∃ place', Held (st.arrive now alloc six ip sport dport seg child buf) place' := by
  unfold Stack.arrive
  split
  · rename_i t ht
    obtain ⟨hset, hshake⟩ := held_segment h now alloc (List.mem_of_find?_eq_some ht) seg
    dsimp only
    split
    · rename_i hdone
      exact hshake hdone.1 hdone.2.1
    · exact ⟨place, hset⟩
  rename_i hnone
  split
  · rename_i l c hl
    split
    · rename_i hsyn
      have hlisten := find?_some hl
      simp only [Bool.and_eq_true] at hlisten
      refine ⟨_, h.insert (hfresh c rfl) _ .halfOpen rfl rfl rfl (fun _ => rfl) fun u hu => ?_⟩
      cases hu
      exact ⟨List.mem_of_find?_eq_some hl, hcare hnone hsyn.1 hsyn.2 l hl, hlisten.1.1, rfl⟩
    · exact ⟨place, h⟩
  · exact ⟨place, h⟩

theorem held_enqueue (hp : .handshake c ∈ st.pending) :
    ∃ place', Held (st.enqueue c) place' := by
  obtain ⟨hmem, hplace⟩ := h.pending _ hp
  have herase := h.erasePending (.handshake c)
  have hfree := h.unheld_erasePending hp
  unfold Stack.enqueue
  dsimp only
  split
  · exact ⟨place, herase⟩
  rename_i l hl
  obtain ⟨hlive, -⟩ := h.listener c hmem l hl
  have hmove := herase.rehold hfree (.queued l) (by rw [hplace]; exact nofun)
    (by rw [hplace]; exact nofun)
  have hnot : c ∉ (st.heap l).acceptQ := hfree.queue l hlive
  refine ⟨_, hmove.setQueue _ (nodup_cons.mpr ⟨hnot, h.nodup l hlive⟩) ?_⟩
  exact forall_mem_cons.mpr ⟨⟨hmem, update_self .., hl⟩, hmove.queue l hlive⟩

theorem held_tick (now : Nat) (waited : TcbId → Bool) : Held (st.tick now waited) place := by
  have hserve := h.setHeap (fun t => if t ∈ st.gTcbs then
      { st.heap t with tcb := (tcpTick now (st.heap t).tcb).1 } else st.heap t) fun t ht => by
    rw [if_pos ht]
    exact ⟨tcpTick_kept now _, rfl, rfl⟩
  refine hserve.reap _ fun t ht hkeep => ?_
  rw [Bool.not_eq_false'] at hkeep
  dsimp only
  rw [if_pos ht]
  exact (tcpTick_kept now _).appClosed.trans (h.closed_of_reaps ht hkeep)

theorem held_next {e : StackEvent} (hallows : st.allows e)
    (hcare : st.Careful e) : ∃ place', Held (st.next e) place' := by
  cases e with
  | socket s six => exact ⟨place, h.setSock _ nofun⟩
  | bind s port =>
    simp only [Stack.next]
    split
    · exact ⟨place, h⟩
    · rename_i k hs
      exact ⟨place, h.updateSock hs rfl⟩
  | connect s c ip port eport now nonblock buf =>
    exact held_connect h hallows ip port eport now nonblock buf
  | connectEnd s c ok => exact held_connectEnd h hallows ok
  | listen s c => exact held_listen h hallows
  | accept s new now => exact held_accept h s new now
  | shutdown s how now => exact held_shutdown h now hcare
  | close s now => exact held_close h now hcare
  | arrive now alloc six ip sport dport seg child buf =>
    exact held_arrive h now alloc six buf hallows hcare
  | enqueue c => exact held_enqueue h hallows
  | tick now waited => exact ⟨place, held_tick h now waited⟩

end

end Steps

theorem held_of_reachable {st : Stack} (h : (stackSystem.restrict Stack.Careful).Reachable st) :
    ∃ place, Held st place := by
  refine @System.Reachable.induct _ _ _ (fun st => ∃ place, Held st place) ?_ ?_ _ h
  · intro st ⟨hlive, hsocks, hpending⟩
    have hnone : ∀ t, t ∉ st.gTcbs := by
      rw [hlive]
      exact fun _ => not_mem_nil
    refine ⟨fun _ => .released, ⟨fun s t ht => ?_, fun l hl => absurd hl (hnone l),
      fun l hl => absurd hl (hnone l), by rw [hpending]; exact nofun,
      by rw [hpending]; exact .nil, fun c hc => absurd hc (hnone c),
      fun t ht => absurd ht (hnone t), fun t ht => absurd ht (hnone t),
      fun c hc => absurd hc (hnone c)⟩⟩
    rw [Stack.owned, hsocks s] at ht
    nomatch ht
  · rintro st e _ - ⟨place, hheld⟩ ⟨hcare, hallows, rfl⟩
    exact held_next hheld hallows hcare

/-- **Lifetime**: in every careful run, `tcp_tick` reaps only blocks that no open socket owns, no
    accept queue contains and no other live block names as its listener. -/
theorem reap_safe {st : Stack} (h : (stackSystem.restrict Stack.Careful).Reachable st)
    (now : Nat) (waited : TcbId → Bool) :
    ∀ t ∈ st.gTcbs, reaps now (st.heap t).tcb (waited t) = true → SafeReap st t := by
  intro t ht hreap
  obtain ⟨place, hheld⟩ := held_of_reachable h
  exact hheld.safeReap ht (hheld.closed_of_reaps ht hreap)

/-! ## Section 3: Runs -/

def emptyStack : Stack :=
  ⟨fun _ => ⟨listenTcb, false, 0, 0, 0, none, []⟩, [], fun _ => none, []⟩

theorem emptyStack_init : stackSystem.init emptyStack := ⟨rfl, fun _ => rfl, rfl⟩

def flagSegment (flags : TcpFlags) : TcpSegment :=
  { seq := 0, ack := 0, flags, win := 0, opts := [], data := []
    seq_lt := wrapTail.seq_lt, ack_lt := wrapTail.seq_lt, data_len := wrapFin.data_len }

def listenRun : List StackEvent := [.socket 0 false, .bind 0 80, .listen 0 0]

/-- A SYN reaches the listener. -/
def synRun : List StackEvent :=
  listenRun ++ [.arrive 0 true false 9 1000 80 (flagSegment { syn := true }) (some 1) (fun _ => 0)]

/-- Then the listener is closed. -/
def halfOpenRun : List StackEvent := synRun ++ [.close 0 1]

/-- The connection is accepted, reset by the peer and closed. -/
def acceptRun : List StackEvent :=
  synRun ++ [.arrive 1 true false 9 1000 80 ackSyn none (fun _ => 0), .enqueue 1,
    .accept 0 (some 2) 2,
    .arrive 3 true false 9 1000 80 { ackSyn with flags := { rst := true } } none (fun _ => 0),
    .close 2 4]

/-- A client shuts its socket down for writing, and the peer refuses the connection. -/
def shutdownRun : List StackEvent :=
  [.socket 0 false, .connect 0 0 9 80 40000 0 true (fun _ => 0), .shutdown 0 1 1,
    .arrive 2 true false 9 80 40000 (flagSegment { rst := true }) none (fun _ => 0)]

instance (st : Stack) (e : StackEvent) : Decidable (st.allows e) := by
  cases e <;> unfold Stack.allows <;> infer_instance

instance (st : Stack) (e : StackEvent) : Decidable (st.Careful e) := by
  cases e <;> unfold Stack.Careful <;> infer_instance

section

variable (ok : Stack → StackEvent → Prop) [∀ st e, Decidable (ok st e)]

/-- Every event of the list is allowed when it comes. -/
def Stack.allowed : Stack → List StackEvent → Bool
  | _, [] => true
  | st, e :: es => decide (ok st e ∧ st.allows e) && (st.next e).allowed es

theorem reachable_events {st : Stack} (h : (stackSystem.restrict ok).Reachable st)
    (es : List StackEvent) (hes : st.allowed ok es = true) :
    (stackSystem.restrict ok).Reachable (es.foldl Stack.next st) := by
  induction es generalizing st with
  | nil => exact h
  | cons e es ih =>
    simp only [Stack.allowed, Bool.and_eq_true, decide_eq_true_eq] at hes
    exact ih (.step e h ⟨hes.1.1, hes.1.2, rfl⟩) hes.2

end

/-- A connection is reaped when its socket is closed, under a listener that is open. -/
theorem reap_safe_accepted :
    let st := acceptRun.foldl Stack.next emptyStack
    st.gTcbs = [1, 0] ∧ reaps 5 (st.heap 1).tcb false = true ∧ SafeReap st 1 := by
  have hreach := reachable_events Stack.Careful (.init emptyStack_init) acceptRun
    (by decide +kernel)
  have hlive : (acceptRun.foldl Stack.next emptyStack).gTcbs = [1, 0] := by decide +kernel
  have hreaps : reaps 5 ((acceptRun.foldl Stack.next emptyStack).heap 1).tcb false = true := by
    decide +kernel
  exact ⟨hlive, hreaps, reap_safe hreach 5 (fun _ => false) 1 (hlive ▸ .head _) hreaps⟩

/-- A closed listener is reaped under its half-open child, and a socket that was shut down loses
    its block. -/
theorem reaped_while_referenced :
    (let st := halfOpenRun.foldl Stack.next emptyStack
     stackSystem.Reachable st ∧ reaps 2 (st.heap 0).tcb false = true ∧ 0 ∈ st.gTcbs ∧
       1 ∈ (st.tick 2 fun _ => false).gTcbs ∧ (st.heap 1).listener = some 0 ∧
       (st.heap 1).tcb.state = .synRcvd ∧ ¬ SafeReap st 0) ∧
    (let st := shutdownRun.foldl Stack.next emptyStack
     stackSystem.Reachable st ∧ reaps 3 (st.heap 0).tcb false = true ∧ 0 ∈ st.gTcbs ∧
       st.owned 0 = some 0 ∧ ¬ SafeReap st 0) := by
  have hreach : ∀ es, emptyStack.allowed (fun _ _ => True) es = true →
      stackSystem.Reachable (es.foldl Stack.next emptyStack) :=
    fun es hes => (reachable_events _ (.init emptyStack_init) es hes).of_restrict
  refine ⟨⟨hreach _ (by decide +kernel), rfl, by decide +kernel, by decide +kernel, rfl, rfl,
    fun h => ?_⟩, ⟨hreach _ (by decide +kernel), rfl, by decide +kernel, rfl,
    fun h => h.sock 0 rfl⟩⟩
  exact h.listener 1 (by decide +kernel) (by decide) rfl

end Cervus.Tcp
