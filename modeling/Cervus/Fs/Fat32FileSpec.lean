import Cervus.Fs.Fat32Layout

/-! # FAT32: a file is an array of bytes

    Both loops go from cluster to cluster, and take clusters that follow each other on the disk
    as one. A turn says how far it got and which cluster it stopped in (`Stops`); from that the
    loops read, or overwrite, a range of the `contents` of the chain. A write appends clusters on
    its way; those that it does not fill with zeros it overwrites as a whole. -/

namespace Cervus.Fat32

open List Nat

/-! ## Section 1: Runs of clusters -/

/-- The `n` clusters from index `k` on follow each other on the disk, `c` being the first. -/
def RunAt (cs : List Nat) (k c n : Nat) : Prop := ∀ j < n, cs[k + j]? = some (c + j)

/-- What the inner loops find, with `left` bytes to go from index `k` on. -/
structure FoundRun (g : Geometry) (cs : List Nat) (k c left : Nat) (r : Run) : Prop where
  pos  : 0 < r.count
  fits : r.count * g.bytesPerCluster ≤ left
  run  : RunAt cs k c r.count
  last : r.last = c + (r.count - 1)
  next : r.prefetched ≠ 0 → cs[k + r.count]? = some r.prefetched

/-- A turn that did `n` of the `left` bytes from `pos` on: if some are left, it stopped at the end
    of a cluster. -/
structure Stops (g : Geometry) (cs : List Nat) (pos left n : Nat) (r : Run) : Prop where
  moved  : 0 < n
  le     : n ≤ left
  count  : 0 < r.count
  last   : cs[pos / g.bytesPerCluster + (r.count - 1)]? = some r.last
  next   : r.prefetched ≠ 0 → cs[pos / g.bytesPerCluster + r.count]? = some r.prefetched
  within : pos + n ≤ (pos / g.bytesPerCluster + r.count) * g.bytesPerCluster
  edge   : n < left → pos + n = (pos / g.bytesPerCluster + r.count) * g.bytesPerCluster

section

variable {g : Geometry} {cs : List Nat} {k c n left : Nat}

theorem RunAt.one (h : cs[k]? = some c) : RunAt cs k c 1 := by
  intro j hj
  obtain rfl : j = 0 := by omega
  exact h

theorem RunAt.succ (h : RunAt cs k c n) (hn : cs[k + n]? = some (c + n)) :
    RunAt cs k c (n + 1) := by
  intro j hj
  rcases Nat.lt_succ_iff_lt_or_eq.mp hj with hlt | rfl
  · exact h j hlt
  · exact hn

theorem RunAt.last (h : RunAt cs k c n) (hpos : 0 < n) :
    cs[k + (n - 1)]? = some (c + (n - 1)) := h (n - 1) (by omega)

variable {pos : Nat} {r : Run}

theorem FoundRun.stops (hg : Sound g) (h : FoundRun g cs (pos / g.bytesPerCluster) c left r)
    (hmod : pos % g.bytesPerCluster = 0) : Stops g cs pos left (r.count * g.bytesPerCluster) r := by
  have hedge : pos + r.count * g.bytesPerCluster =
      (pos / g.bytesPerCluster + r.count) * g.bytesPerCluster := by
    have hdiv := div_add_mod' pos g.bytesPerCluster
    rw [Nat.add_mul]
    omega
  refine ⟨Nat.mul_pos h.pos hg.bytesPerCluster_pos, h.fits, h.pos, ?_, h.next,
    Nat.le_of_eq hedge, fun _ => hedge⟩
  rw [h.last]
  exact h.run.last h.pos

theorem stops_piece (hg : Sound g) (hk : cs[pos / g.bytesPerCluster]? = some c) (hleft : 0 < left) :
    Stops g cs pos left (piece g.bytesPerCluster pos left) ⟨1, c, 0⟩ := by
  have hpos := hg.bytesPerCluster_pos
  have hdiv := div_add_mod' pos g.bytesPerCluster
  have hfit := mod_add_piece_le pos left hpos
  refine ⟨piece_pos pos hpos hleft, piece_le _ _ _, Nat.one_pos, hk, fun h => absurd rfl h, ?_,
    fun hlt => ?_⟩
  · rw [Nat.add_mul, Nat.one_mul]
    omega
  · unfold piece at hlt hfit ⊢
    rw [Nat.add_mul, Nat.one_mul]
    omega

/-- The cluster in which the next turn starts. -/
theorem Stops.index (hg : Sound g) (h : Stops g cs pos left n r) (hlt : n < left) :
    (pos + n) / g.bytesPerCluster = pos / g.bytesPerCluster + r.count ∧
      (pos + n) % g.bytesPerCluster = 0 := by
  rw [h.edge hlt]
  exact ⟨Nat.mul_div_cancel _ hg.bytesPerCluster_pos, mul_mod_left _ _⟩

end

/-! ## Section 2: Reading -/

section

variable {g : Geometry} {fs : Fs} {t : Table} {cs : List Nat}

theorem seekRead_spec (hg : Sound g) (hn : Numbered g) (n : Nat) :
    ∀ {fs : Fs} {k c d : Nat}, Layout g fs t cs → cs[k]? = some c → cs[k + n]? = some d →
      ∃ fs', seekRead g n fs c = (some d, fs') ∧ Layout g fs' t cs ∧
        contents g fs' cs = contents g fs cs := by
  induction n with
  | zero =>
    intro fs k c d h hk hd
    obtain rfl := Option.some.inj (hk.symm.trans hd)
    exact ⟨fs, rfl, h, rfl⟩
  | succ n ih =>
    intro fs k c d h hk hd
    have hcl := h.chain.isCluster hk
    obtain ⟨next, fs1, heq, hlay, hcont, hsome, -⟩ := h.next hg hk
    rw [seekRead, if_neg (hcl.not_end hn), heq]
    -- the chain goes on, as it has a cluster at `k + n + 1`
    have hlen := (List.getElem?_eq_some_iff.mp hd).1
    have hget := List.getElem?_eq_getElem (show k + 1 < cs.length by omega)
    obtain rfl := hsome _ hget
    rw [show k + (n + 1) = k + 1 + n by omega] at hd
    obtain ⟨fs2, hval, hlay', hcont'⟩ := ih hlay hget hd
    exact ⟨fs2, hval, hlay', hcont'.trans hcont⟩

variable {k c left n pos : Nat}

theorem readRun_spec (hg : Sound g) (hn : Numbered g) (fuel : Nat) :
    ∀ {run last : Nat} {fs : Fs}, Layout g fs t cs → 0 < run → run * g.bytesPerCluster ≤ left →
      RunAt cs k c run → last = c + (run - 1) →
      ∃ r fs', readRun g left fuel run last fs = (r, fs') ∧ FoundRun g cs k c left r ∧
        Layout g fs' t cs ∧ contents g fs' cs = contents g fs cs := by
  induction fuel with
  | zero =>
    intro run last fs h hpos hfits hrun hlast
    exact ⟨_, _, rfl, ⟨hpos, hfits, hrun, hlast, fun hp => absurd rfl hp⟩, h, rfl⟩
  | succ fuel ih =>
    intro run last fs h hpos hfits hrun hlast
    rw [readRun]
    split
    · next hgo =>
      have hk := hrun.last hpos
      rw [← hlast] at hk
      obtain ⟨nxt, fs1, heq, hlay, hcont, hsome, hnone⟩ := h.next hg hk
      simp only [heq]
      have hidx : k + (run - 1) + 1 = k + run := by omega
      rw [hidx] at hsome hnone
      cases hnext : cs[k + run]? with
      | none =>
        rw [if_pos (.inl (hnone hnext))]
        exact ⟨_, _, rfl, ⟨hpos, hfits, hrun, hlast, fun hp => absurd rfl hp⟩, hlay, hcont⟩
      | some d =>
        obtain rfl := hsome d hnext
        have hcl := h.chain.isCluster hnext
        rw [if_neg (hcl.not_end hn)]
        by_cases hadj : nxt = last + 1
        · rw [if_neg (fun hne => hne hadj)]
          have hnxt : nxt = c + run := by omega
          rw [hnxt] at hnext
          obtain ⟨r, fs2, hr, hfound, hlay', hcont'⟩ :=
            ih hlay (succ_pos run) hgo.1 (hrun.succ hnext) hnxt
          exact ⟨r, fs2, hr, hfound, hlay', hcont'.trans hcont⟩
        · rw [if_pos hadj]
          exact ⟨_, _, rfl, ⟨hpos, hfits, hrun, hlast, fun _ => hnext⟩, hlay, hcont⟩
    · exact ⟨_, _, rfl, ⟨hpos, hfits, hrun, hlast, fun hp => absurd rfl hp⟩, h, rfl⟩

/-- The sectors of a run are a range of the contents. -/
theorem slice_run (hg : Sound g) (h : Layout g fs t cs) (hrun : RunAt cs k c n) :
    slice (readSectors fs.disk (clusterToLba g c)) 0 (n * g.bytesPerCluster) =
      slice (contents g fs cs) (k * g.bytesPerCluster) (n * g.bytesPerCluster) := by
  apply slice_congr
  intro i hi
  have hpos := hg.bytesPerCluster_pos
  have hj : i / g.bytesPerCluster < n := (Nat.div_lt_iff_lt_mul hpos).mpr hi
  have ho := mod_lt i hpos
  have hget := hrun _ hj
  have hfirst : IsCluster g c := h.chain.isCluster (hrun 0 (zero_lt_of_lt hj))
  rw [Nat.zero_add, ← div_add_mod' i g.bytesPerCluster, ← Nat.add_assoc, ← Nat.add_mul,
    contents_apply hget ho, readCluster_add hg hfirst (h.chain.isCluster hget)]

/-- The cluster after a turn. -/
theorem readNext_spec (hg : Sound g) (h : Layout g fs t cs) {r : Run}
    (hstop : Stops g cs pos left n r) {d : Nat}
    (hd : cs[pos / g.bytesPerCluster + r.count]? = some d) :
    ∃ fs', readNext g fs r = (d, fs') ∧ Layout g fs' t cs ∧
      contents g fs' cs = contents g fs cs := by
  unfold readNext
  split
  · next hp =>
    obtain rfl := Option.some.inj ((hstop.next hp).symm.trans hd)
    exact ⟨fs, rfl, h, rfl⟩
  obtain ⟨next, fs', heq, hlay, hcont, hsome, -⟩ := h.next hg hstop.last
  have hidx : pos / g.bytesPerCluster + (r.count - 1) + 1 = pos / g.bytesPerCluster + r.count := by
    have hpos := hstop.count
    omega
  rw [hidx] at hsome
  exact ⟨fs', by rw [heq, hsome d hd], hlay, hcont⟩

theorem take_eq_piece (bs pos left : Nat) :
    (if bs - pos % bs < left then bs - pos % bs else left) = piece bs pos left := by
  unfold piece
  split <;> omega

/-- A turn reads a range of the contents. -/
theorem readTurn_spec (hg : Sound g) (hn : Numbered g) (h : Layout g fs t cs)
    (hk : cs[pos / g.bytesPerCluster]? = some c) (hleft : 0 < left) :
    ∃ bytes run fs', (if pos % g.bytesPerCluster = 0 ∧
        piece g.bytesPerCluster pos left = g.bytesPerCluster then readWhole g fs c left
      else readPart g fs c (pos % g.bytesPerCluster) (piece g.bytesPerCluster pos left)) =
        (bytes, run, fs') ∧ bytes = slice (contents g fs cs) pos bytes.length ∧
      Stops g cs pos left bytes.length run ∧ Layout g fs' t cs ∧
      contents g fs' cs = contents g fs cs := by
  have hpos := hg.bytesPerCluster_pos
  have hdiv := div_add_mod' pos g.bytesPerCluster
  split
  · next hwhole =>
    have hfits : 1 * g.bytesPerCluster ≤ left := by
      have hle := piece_le g.bytesPerCluster pos left
      omega
    obtain ⟨run, fs1, heq, hfound, hlay, hcont⟩ :=
      readRun_spec hg hn maxRunSectors h Nat.one_pos hfits (.one hk) (show c = c + (1 - 1) from rfl)
    unfold readWhole
    simp only [heq]
    refine ⟨_, _, _, rfl, ?_, ?_, hlay, hcont⟩
    · rw [length_slice, slice_run hg hlay hfound.run, hcont]
      congr 1
      omega
    · rw [length_slice]
      exact hfound.stops hg hwhole.1
  refine ⟨_, _, _, rfl, ?_, ?_, h, rfl⟩
  · rw [length_slice, contents, slice_flat (mod_add_piece_le pos left hpos), hk]
  · rw [length_slice]
    exact stops_piece hg hk hleft

/-- The loop reads a range of the contents. -/
theorem readLoop_spec (hg : Sound g) (hn : Numbered g) (fuel : Nat) :
    ∀ {fs : Fs} {pos left c : Nat}, Layout g fs t cs → left ≤ fuel →
      cs[pos / g.bytesPerCluster]? = some c → pos + left ≤ cs.length * g.bytesPerCluster →
      ∃ fs', readLoop g fuel c (pos % g.bytesPerCluster) left fs =
          (slice (contents g fs cs) pos left, fs') ∧
        Layout g fs' t cs ∧ contents g fs' cs = contents g fs cs := by
  induction fuel with
  | zero =>
    intro fs pos left c h hfuel _ _
    obtain rfl : left = 0 := by omega
    exact ⟨fs, rfl, h, rfl⟩
  | succ fuel ih =>
    intro fs pos left c h hfuel hk hend
    have hcl := h.chain.isCluster hk
    rw [readLoop]
    by_cases hzero : left = 0
    · rw [if_pos (.inl hzero), hzero]
      exact ⟨fs, rfl, h, rfl⟩
    rw [if_neg (not_or.mpr ⟨hzero, hcl.not_end hn⟩)]
    simp only [take_eq_piece]
    obtain ⟨bytes, run, fs1, heq, hbytes, hstop, hlay, hcont⟩ :=
      readTurn_spec hg hn h hk (Nat.pos_of_ne_zero hzero)
    rw [heq]
    have hnpos := hstop.moved
    have hnle := hstop.le
    generalize bytes.length = n at hbytes hstop hnpos hnle
    by_cases hdone : left - n = 0
    · rw [if_pos hdone]
      obtain rfl : n = left := by omega
      exact ⟨fs1, by rw [hbytes], hlay, hcont⟩
    rw [if_neg hdone]
    have hlt : n < left := by omega
    obtain ⟨hidx, hmod⟩ := hstop.index hg hlt
    have hin : pos / g.bytesPerCluster + run.count < cs.length := by
      have hedge := hstop.edge hlt
      exact Nat.lt_of_mul_lt_mul_right (a := g.bytesPerCluster) (by omega)
    obtain ⟨d, hget⟩ : ∃ d, cs[pos / g.bytesPerCluster + run.count]? = some d :=
      ⟨_, List.getElem?_eq_getElem hin⟩
    obtain ⟨fs2, hnext, hlay', hcont'⟩ := readNext_spec hg hlay hstop hget
    simp only [hnext]
    rw [← hidx] at hget
    have hfuel' : left - n ≤ fuel := by omega
    have hend' : pos + n + (left - n) ≤ cs.length * g.bytesPerCluster := by omega
    obtain ⟨fs3, hrest, hlay'', hcont''⟩ := ih hlay' hfuel' hget hend'
    rw [hmod] at hrest
    refine ⟨fs3, ?_, hlay'', hcont''.trans (hcont'.trans hcont)⟩
    rw [hrest, hbytes, hcont', hcont, slice_append, Nat.add_sub_cancel' hnle]

end

/-! ## Section 3: Writing -/

section

variable {g : Geometry} {fs fs' : Fs} {t t' : Table} {cs cs' : List Nat}

variable {k c n left pos : Nat} {data : List UInt8}

theorem RunAt.grown (h : RunAt cs k c n) (hgrown : Grown g t cs fs' t' cs') :
    RunAt cs' k c n := fun j hj => hgrown.getElem? (h j hj)

section

variable (hg : Sound g)
include hg

theorem seekWrite_spec (hn : Numbered g) (n : Nat) :
    ∀ {fs : Fs} {t : Table} {cs : List Nat} {k c : Nat}, Layout g fs t cs → cs[k]? = some c →
      k + n < room g t cs →
      ∃ fs' t' cs' d, seekWrite g n fs c = (some d, fs') ∧ cs'[k + n]? = some d ∧
        Grown g t cs fs' t' cs' ∧ contents g fs' cs' = contents g fs cs := by
  induction n with
  | zero =>
    intro fs t cs k c h hk _
    exact ⟨fs, t, cs, c, rfl, hk, .refl h, rfl⟩
  | succ n ih =>
    intro fs t cs k c h hk hroom
    obtain ⟨next, fs1, t1, cs1, heq, hgrown, hnext, -, hcont⟩ :=
      chainNextOrAlloc_spec hg hn h hk (by omega) true
    rw [seekWrite]
    simp only [heq]
    have hlow := (hgrown.layout.chain.isCluster hnext).1
    rw [if_neg (by omega)]
    have hroom' : k + 1 + n < room g t1 cs1 := by
      rw [hgrown.space]
      omega
    obtain ⟨fs2, t2, cs2, d, hval, hd, hgrown', hcont'⟩ := ih hgrown.layout hnext hroom'
    rw [show k + 1 + n = k + (n + 1) by omega] at hd
    exact ⟨fs2, t2, cs2, d, hval, hd, hgrown.trans hgrown', hcont'.trans (hcont rfl)⟩

/-- The inner loop changes only bytes that are about to be written. -/
theorem writeRun_spec (hn : Numbered g) (fuel : Nat) :
    ∀ {run last : Nat} {fs : Fs} {t : Table} {cs : List Nat}, Layout g fs t cs → 0 < run →
      run * g.bytesPerCluster ≤ left → RunAt cs k c run → last = c + (run - 1) →
      k * g.bytesPerCluster + left ≤ room g t cs * g.bytesPerCluster →
      ∃ r fs' t' cs', writeRun g left fuel run last fs = (r, fs') ∧ Grown g t cs fs' t' cs' ∧
        FoundRun g cs' k c left r ∧
        SameOutside (k * g.bytesPerCluster) (k * g.bytesPerCluster + left)
          (contents g fs' cs') (contents g fs cs) := by
  induction fuel with
  | zero =>
    intro run last fs t cs h hpos hfits hrun hlast _
    exact ⟨_, _, t, cs, rfl, .refl h, ⟨hpos, hfits, hrun, hlast, fun hp => absurd rfl hp⟩,
      .refl _ _ _⟩
  | succ fuel ih =>
    intro run last fs t cs h hpos hfits hrun hlast hroom
    rw [writeRun]
    split
    · next hgo =>
      have hk := hrun.last hpos
      rw [← hlast] at hk
      have hmore : k + run < room g t cs := by
        have hfits' := hgo.1
        rw [succ_mul] at hfits'
        have hmul : (k + run) * g.bytesPerCluster < room g t cs * g.bytesPerCluster := by
          have hbpc := hg.bytesPerCluster_pos
          rw [Nat.add_mul]
          omega
        exact Nat.lt_of_mul_lt_mul_right hmul
      obtain ⟨nxt, fs1, t1, cs1, heq, hgrown, hnext, hsame, -⟩ :=
        chainNextOrAlloc_spec hg hn h hk (by omega) false
      simp only [heq]
      have hlow := (hgrown.layout.chain.isCluster hnext).1
      rw [if_neg (by omega)]
      have hidx : k + (run - 1) + 1 = k + run := by omega
      have hidx' : k + (run - 1) + 2 = k + run + 1 := by omega
      rw [hidx] at hnext
      -- the cluster that was appended lies in the range
      have hsame' : SameOutside (k * g.bytesPerCluster) (k * g.bytesPerCluster + left)
          (contents g fs1 cs1) (contents g fs cs) := by
        rw [hidx, hidx'] at hsame
        refine hsame.mono (Nat.mul_le_mul_right _ (Nat.le_add_right k run)) ?_
        rw [Nat.add_assoc, Nat.add_mul]
        omega
      by_cases hadj : nxt = last + 1
      · rw [if_neg (fun hne => hne hadj)]
        have hnxt : nxt = c + run := by omega
        rw [hnxt] at hnext
        have hroom' : k * g.bytesPerCluster + left ≤ room g t1 cs1 * g.bytesPerCluster := by
          rw [hgrown.space]
          exact hroom
        obtain ⟨r, fs2, t2, cs2, hr, hgrown', hfound, hsame2⟩ := ih hgrown.layout
          (succ_pos run) hgo.1 ((hrun.grown hgrown).succ hnext) hnxt hroom'
        exact ⟨r, fs2, t2, cs2, hr, hgrown.trans hgrown', hfound, hsame2.trans hsame'⟩
      · rw [if_pos hadj]
        exact ⟨_, _, t1, cs1, rfl, hgrown,
          ⟨hpos, hfits, hrun.grown hgrown, hlast, fun _ => hnext⟩, hsame'⟩
    · exact ⟨_, _, t, cs, rfl, .refl h, ⟨hpos, hfits, hrun, hlast, fun hp => absurd rfl hp⟩,
        .refl _ _ _⟩

/-- Writing to clusters leaves the table alone. -/
theorem Layout.writeData (h : Layout g fs t cs) (hc : IsCluster g c) (n : Nat) (buf : Bytes) :
    Layout g { fs with disk := writeSectors fs.disk (clusterToLba g c) n buf } t cs := by
  refine ⟨h.coherent.of_disk rfl rfl rfl fun l hl => ?_, h.hint, h.chain⟩
  exact if_neg fun hin => hg.not_inFats_cluster hc.1 hc.2 hin.1 hl

/-- A run of clusters that is written is a range that is overwritten. -/
theorem contents_writeRun (h : Layout g fs t cs) (hrun : RunAt cs k c n) (hpos : 0 < n)
    (hfits : n * g.bytesPerCluster ≤ data.length)
    (hdisk : fs'.disk = writeSectors fs.disk (clusterToLba g c) (n * g.sectorsPerCluster)
      (bufferOf data)) :
    contents g fs' cs = overwrite (contents g fs cs) (k * g.bytesPerCluster)
        (data.take (n * g.bytesPerCluster)) := by
  have hfirst : IsCluster g c := h.chain.isCluster (hrun 0 hpos)
  have hlen : (data.take (n * g.bytesPerCluster)).length = n * g.bytesPerCluster :=
    length_take_of_le hfits
  refine ext_clusters hg fun j o ho => ?_
  by_cases hj : k ≤ j ∧ j < k + n
  · obtain ⟨i, rfl⟩ := Nat.exists_eq_add_of_le hj.1
    have hi : i < n := by omega
    have hget := hrun i hi
    have hmul := Nat.mul_le_mul_right g.bytesPerCluster (succ_le_of_lt hi)
    rw [succ_mul] at hmul
    have hsplit : (k + i) * g.bytesPerCluster + o =
        k * g.bytesPerCluster + (i * g.bytesPerCluster + o) := by
      rw [Nat.add_mul, Nat.add_assoc]
    rw [contents_apply hget ho,
      readCluster_writeSectors hg hfirst (h.chain.isCluster hget) hi ho hdisk, hsplit,
      overwrite_of_mem (Nat.le_add_right _ _) (by omega), Nat.add_sub_cancel_left, bufferOf]
    have hlt : i * g.bytesPerCluster + o < n * g.bytesPerCluster := by omega
    rw [getD_eq_getElem?_getD, getD_eq_getElem?_getD, List.getElem?_take_of_lt hlt]
  rw [overwrite_of_not_mem ?_]
  · cases hget : cs[j]? with
    | none => rw [contents_of_none hget ho, contents_of_none hget ho]
    | some d =>
      rw [contents_apply hget ho, contents_apply hget ho]
      refine readCluster_writeSectors_of_ne hg hfirst (h.chain.isCluster hget) ?_ ho hdisk
      -- a cluster of the run is at an index of the run
      by_contra hin
      have hi : d - c < n := by omega
      have hsame := hrun (d - c) hi
      rw [show c + (d - c) = d by omega, ← hget] at hsame
      have hidx := (List.getElem?_inj
        (List.getElem?_eq_some_iff.mp (hsame.trans hget)).1 h.chain.nodup).mp hsame
      omega
  rcases Nat.lt_or_ge j k with hlt | hge
  · left
    have hmul := Nat.mul_le_mul_right g.bytesPerCluster (succ_le_of_lt hlt)
    rw [succ_mul] at hmul
    omega
  right
  have hmul := Nat.mul_le_mul_right g.bytesPerCluster (show k + n ≤ j by omega)
  rw [Nat.add_mul] at hmul
  omega

/-- A part of a cluster that is written is a range that is overwritten. -/
theorem contents_writePart (h : Layout g fs t cs) (hk : cs[pos / g.bytesPerCluster]? = some c)
    (hfits : pos % g.bytesPerCluster + data.length ≤ g.bytesPerCluster) :
    contents g (writePart g fs c (pos % g.bytesPerCluster) data).2 cs =
      overwrite (contents g fs cs) pos data := by
  have hc := h.chain.isCluster hk
  have hdisk : (writePart g fs c (pos % g.bytesPerCluster) data).2.disk =
      writeSectors fs.disk (clusterToLba g c) (1 * g.sectorsPerCluster)
        (overwrite (readCluster g fs c) (pos % g.bytesPerCluster) data) := by
    rw [Nat.one_mul]
    rfl
  rw [contents, contents, ← flat_update hg.bytesPerCluster_pos hfits]
  refine ext_clusters hg fun j o ho => ?_
  rw [flat_mul_add ho, flat_mul_add ho]
  by_cases hj : j = pos / g.bytesPerCluster
  · subst hj
    rw [Function.update_self, hk]
    have hread := readCluster_writeSectors hg hc (j := 0) hc Nat.one_pos ho hdisk
    rw [Nat.zero_mul, Nat.zero_add] at hread
    exact hread
  rw [Function.update_of_ne hj]
  cases hget : cs[j]? with
  | none => rfl
  | some d =>
    refine readCluster_writeSectors_of_ne hg hc (h.chain.isCluster hget) ?_ ho hdisk
    have hne : d ≠ c := by
      rintro rfl
      exact hj ((List.getElem?_inj (List.getElem?_eq_some_iff.mp hget).1 h.chain.nodup).mp
        (hget.trans hk.symm))
    omega

/-- A turn overwrites the first of the bytes. -/
theorem writeTurn_spec (hn : Numbered g) (h : Layout g fs t cs)
    (hk : cs[pos / g.bytesPerCluster]? = some c) (hdata : 0 < data.length)
    (hroom : pos + data.length ≤ room g t cs * g.bytesPerCluster) : ∃ run fs' t' cs' n B,
      (if pos % g.bytesPerCluster = 0 ∧
          piece g.bytesPerCluster pos data.length = g.bytesPerCluster then writeWhole g fs c data
        else writePart g fs c (pos % g.bytesPerCluster)
          (data.take (piece g.bytesPerCluster pos data.length))) = (run, fs') ∧
      n = (if pos % g.bytesPerCluster = 0 ∧
          piece g.bytesPerCluster pos data.length = g.bytesPerCluster then
            run.count * g.bytesPerCluster else piece g.bytesPerCluster pos data.length) ∧
      Grown g t cs fs' t' cs' ∧ Stops g cs' pos data.length n run ∧
      SameOutside pos (pos + data.length) B (contents g fs cs) ∧
      contents g fs' cs' = overwrite B pos (data.take n) := by
  have hpos := hg.bytesPerCluster_pos
  have hdiv := div_add_mod' pos g.bytesPerCluster
  have hle := piece_le g.bytesPerCluster pos data.length
  split
  · next hwhole =>
    have hstart : pos / g.bytesPerCluster * g.bytesPerCluster = pos := by omega
    have hfits : 1 * g.bytesPerCluster ≤ data.length := by omega
    obtain ⟨run, fs1, t1, cs1, heq, hgrown, hfound, hsame⟩ := writeRun_spec hg hn maxRunSectors h
      Nat.one_pos hfits (.one hk) (show c = c + (1 - 1) from rfl) (by rw [hstart]; exact hroom)
    rw [hstart] at hsame
    unfold writeWhole
    simp only [heq]
    let disk :=
      writeSectors fs1.disk (clusterToLba g c) (run.count * g.sectorsPerCluster) (bufferOf data)
    have hcont : contents g { fs1 with disk := disk } cs1 = _ :=
      contents_writeRun hg hgrown.layout hfound.run hfound.pos hfound.fits rfl
    rw [hstart] at hcont
    have hfirst := hgrown.layout.chain.isCluster (hfound.run 0 hfound.pos)
    exact ⟨run, _, t1, cs1, _, contents g fs1 cs1, rfl, rfl,
      ⟨hgrown.layout.writeData hg hfirst _ _, hgrown.old, hgrown.space⟩,
      hfound.stops hg hwhole.1, hsame, hcont⟩
  have hlen : (data.take (piece g.bytesPerCluster pos data.length)).length =
      piece g.bytesPerCluster pos data.length := length_take_of_le hle
  have hfits := mod_add_piece_le pos data.length hpos
  rw [← hlen] at hfits
  exact ⟨_, _, t, cs, _, contents g fs cs, rfl, rfl,
    .refl (h.writeData hg (h.chain.isCluster hk) _ _), stops_piece hg hk hdata, .refl _ _ _,
    contents_writePart hg h hk hfits⟩

/-- The cluster after a turn. If its bytes are not known, they are all still to be written. -/
theorem writeNext_spec (hn : Numbered g) (h : Layout g fs t cs) {r : Run}
    (hstop : Stops g cs pos left n r) (hlt : n < left)
    (hroom : pos + left ≤ room g t cs * g.bytesPerCluster) :
    ∃ next fs' t' cs', writeNext g fs r (left - n) = (next, fs') ∧ Grown g t cs fs' t' cs' ∧
      cs'[pos / g.bytesPerCluster + r.count]? = some next ∧
      SameOutside (pos + n) (pos + left) (contents g fs' cs') (contents g fs cs) := by
  unfold writeNext
  split
  · next hp => exact ⟨_, _, t, cs, rfl, .refl h, hstop.next hp, .refl _ _ _⟩
  have hedge := hstop.edge hlt
  have hcount := hstop.count
  have hmore : pos / g.bytesPerCluster + r.count < room g t cs :=
    Nat.lt_of_mul_lt_mul_right (a := g.bytesPerCluster) (by omega)
  obtain ⟨next, fs', t', cs', heq, hgrown, hnext, hsame, hzero⟩ := chainNextOrAlloc_spec hg hn h
    hstop.last (by omega) (decide (left - n < g.bytesPerCluster))
  have hidx : pos / g.bytesPerCluster + (r.count - 1) + 1 =
      pos / g.bytesPerCluster + r.count := by omega
  have hidx' : pos / g.bytesPerCluster + (r.count - 1) + 2 =
      pos / g.bytesPerCluster + r.count + 1 := by omega
  rw [hidx] at hnext
  refine ⟨next, fs', t', cs', heq, hgrown, hnext, ?_⟩
  by_cases hshort : left - n < g.bytesPerCluster
  · rw [hzero (decide_eq_true hshort)]
    exact .refl _ _ _
  · rw [hidx, hidx', succ_mul, ← hedge] at hsame
    exact hsame.mono (le_rfl) (by omega)

/-- The loop overwrites a range of the contents, and stays in the cluster that it wrote last. -/
theorem writeLoop_spec (hn : Numbered g) (fuel : Nat) :
    ∀ {fs : Fs} {t : Table} {cs : List Nat} {pos : Nat} {data : List UInt8} {w : Written},
      Layout g fs t cs → data.length ≤ fuel → w.index = pos / g.bytesPerCluster →
      cs[pos / g.bytesPerCluster]? = some w.cluster →
      pos + data.length ≤ room g t cs * g.bytesPerCluster →
      ∃ w' fs' t' cs', writeLoop g fuel w (pos % g.bytesPerCluster) data fs = (w', fs') ∧
        Grown g t cs fs' t' cs' ∧ contents g fs' cs' = overwrite (contents g fs cs) pos data ∧
        w'.done = w.done + data.length ∧ cs'[w'.index]? = some w'.cluster ∧
        pos + data.length ≤ cs'.length * g.bytesPerCluster := by
  have hbpc := hg.bytesPerCluster_pos
  have hin : ∀ {cs : List Nat} {pos c : Nat}, cs[pos / g.bytesPerCluster]? = some c →
      pos ≤ cs.length * g.bytesPerCluster := fun hk =>
    Nat.le_of_lt ((Nat.div_lt_iff_lt_mul hbpc).mp (List.getElem?_eq_some_iff.mp hk).1)
  induction fuel with
  | zero =>
    intro fs t cs pos data w h hfuel hidx hk _
    obtain rfl : data = [] := eq_nil_of_length_eq_zero (by omega)
    exact ⟨w, fs, t, cs, rfl, .refl h, overwrite_nil.symm, rfl, hidx ▸ hk, hin hk⟩
  | succ fuel ih =>
    intro fs t cs pos data w h hfuel hidx hk hroom
    rw [writeLoop]
    by_cases hzero : data.length = 0
    · obtain rfl : data = [] := eq_nil_of_length_eq_zero hzero
      exact ⟨w, fs, t, cs, rfl, .refl h, overwrite_nil.symm, rfl, hidx ▸ hk, hin hk⟩
    rw [if_neg hzero]
    simp only [take_eq_piece]
    obtain ⟨run, fs1, t1, cs1, n, B, heq, hn', hgrown, hstop, hsame, hcont⟩ :=
      writeTurn_spec hg hn h hk (Nat.pos_of_ne_zero hzero) hroom
    rw [heq]
    rw [← hn']
    have hnle := hstop.le
    have hmoved := hstop.moved
    have hcount := hstop.count
    by_cases hdone : data.length - n = 0
    · rw [if_pos hdone]
      have hall : n = data.length := by omega
      rw [hall, take_length] at hcont
      refine ⟨_, _, t1, cs1, rfl, hgrown, hcont.trans hsame.overwrite_eq, by rw [hall], ?_, ?_⟩
      · simp only [hidx]
        exact hstop.last
      -- the last byte is in the last cluster that was written
      have hin := (List.getElem?_eq_some_iff.mp hstop.last).1
      have hmul : (pos / g.bytesPerCluster + run.count) * g.bytesPerCluster ≤
          cs1.length * g.bytesPerCluster := Nat.mul_le_mul_right _ (by omega)
      have hwithin := hstop.within
      omega
    rw [if_neg hdone]
    have hlt : n < data.length := by omega
    obtain ⟨hdiv, hmod⟩ := hstop.index hg hlt
    have hroom1 : pos + data.length ≤ room g t1 cs1 * g.bytesPerCluster := by
      rw [hgrown.space]
      exact hroom
    obtain ⟨next, fs2, t2, cs2, heq2, hgrown2, hnext, hsame2⟩ :=
      writeNext_spec hg hn hgrown.layout hstop hlt hroom1
    simp only [heq2]
    have hlow := (hgrown2.layout.chain.isCluster hnext).1
    rw [if_neg (by omega)]
    have hdrop : (data.drop n).length = data.length - n := length_drop
    have htake : (data.take n).length = n := length_take_of_le hnle
    rw [← hdiv] at hnext
    have hroom2 : pos + n + (data.drop n).length ≤ room g t2 cs2 * g.bytesPerCluster := by
      rw [hgrown2.space]
      omega
    have hindex : w.index + (run.count - 1) + 1 = (pos + n) / g.bytesPerCluster := by omega
    obtain ⟨w3, fs3, t3, cs3, heq3, hgrown3, hcont3, hdone3, hlast3, hend3⟩ :=
      ih (w := ⟨w.done + n, next, w.index + (run.count - 1) + 1⟩) hgrown2.layout
        (by omega) hindex hnext hroom2
    rw [hmod] at heq3
    refine ⟨w3, fs3, t3, cs3, heq3, (hgrown.trans hgrown2).trans hgrown3, ?_, ?_, hlast3, by omega⟩
    · have hsame2' : SameOutside (pos + n) (pos + n + (data.drop n).length)
          (contents g fs2 cs2) (contents g fs1 cs1) := by
        rw [hdrop, show pos + n + (data.length - n) = pos + data.length by omega]
        exact hsame2
      have happend := overwrite_append B pos (data.take n) (data.drop n)
      rw [htake, take_append_drop] at happend
      rw [hcont3, hsame2'.overwrite_eq, hcont, happend, hsame.overwrite_eq]
    · rw [hdone3, hdrop]
      simp only
      omega

end

end

/-! ## Section 4: Calls -/

/-- The clusters are those of the open file: its first cluster is the first of them, the cached
    one is where `cached_index` says, and they hold the file. -/
structure FileAt (g : Geometry) (fs : Fs) (vd : Vdata) (t : Table) (cs : List Nat) : Prop where
  layout : Layout g fs t cs
  first  : vd.firstCluster = cs[0]?.getD 0
  cached : vd.cachedCluster ≠ 0 → cs[vd.cachedIndex]? = some vd.cachedCluster
  holds  : vd.fileSize ≤ cs.length * g.bytesPerCluster
  size   : vd.fileSize < 2 ^ 32

section

variable {g : Geometry} {fs : Fs} {vd : Vdata} {t : Table} {cs : List Nat}

theorem FileAt.first_eq (h : FileAt g fs vd t cs) {c : Nat} (hc : cs[0]? = some c) :
    vd.firstCluster = c := by
  rw [h.first, hc]
  rfl

variable {off : Nat}

/-- A read returns the bytes of the range that are below the size. -/
theorem fileRead_spec (hg : Sound g) (hn : Numbered g) (h : FileAt g fs vd t cs) {len : Nat}
    (hsum : off + len < 2 ^ 64) : ∃ fs', fileRead g fs vd len off =
        (slice (contents g fs cs) off (min len (vd.fileSize - off)), fs') ∧
      FileAt g fs' vd t cs ∧ contents g fs' cs = contents g fs cs := by
  have hbpc := hg.bytesPerCluster_pos
  unfold fileRead
  by_cases hend : off ≥ vd.fileSize
  · rw [if_pos hend, show vd.fileSize - off = 0 by omega, Nat.min_zero]
    exact ⟨fs, rfl, h, rfl⟩
  rw [if_neg hend]
  have hsize := h.size
  have hholds := h.holds
  have hclamp : (if u64 (off + len) > vd.fileSize then vd.fileSize - off else len) =
      min len (vd.fileSize - off) := by
    rw [u64_of_lt hsum]
    split <;> omega
  have hidx : u32 (off / g.bytesPerCluster) = off / g.bytesPerCluster :=
    u32_of_lt (Nat.lt_of_le_of_lt (Nat.div_le_self _ _) (by omega))
  simp only [hclamp, hidx]
  have hin : off / g.bytesPerCluster < cs.length := (Nat.div_lt_iff_lt_mul hbpc).mpr (by omega)
  have hget := List.getElem?_eq_getElem hin
  have hzero := List.getElem?_eq_getElem (show 0 < cs.length by omega)
  rw [h.first_eq hzero]
  obtain ⟨fs1, hseek, hlay, hcont⟩ := seekRead_spec hg hn (off / g.bytesPerCluster) h.layout
    hzero ((congrArg (cs[·]?) (Nat.zero_add _)).trans hget)
  simp only [hseek]
  obtain ⟨fs2, hbytes, hlay', hcont'⟩ := readLoop_spec hg hn (min len (vd.fileSize - off)) hlay
    (le_rfl) hget (by omega)
  rw [hcont] at hbytes hcont'
  exact ⟨fs2, hbytes, ⟨hlay', h.first, h.cached, h.holds, h.size⟩, hcont'⟩

/-- The first cluster of a file, which is zero if it is new. -/
theorem firstOrAlloc_spec (hg : Sound g) (h : FileAt g fs vd t cs) (hroom : 0 < room g t cs) :
    ∃ fs' vd' t' cs' c, firstOrAlloc g fs vd = (some vd', fs') ∧ cs'[0]? = some c ∧
      FileAt g fs' vd' t' cs' ∧ vd'.fileSize = vd.fileSize ∧ room g t' cs' = room g t cs ∧
      contents g fs' cs' = contents g fs cs := by
  unfold firstOrAlloc
  cases hcs : cs[0]? with
  | some c =>
    have hlow := (h.layout.chain.isCluster hcs).1
    rw [if_neg (by rw [h.first_eq hcs]; omega)]
    exact ⟨fs, vd, t, cs, c, rfl, hcs, h, rfl, rfl, rfl⟩
  | none =>
    obtain rfl : cs = [] := eq_nil_of_length_eq_zero (le_zero.mp
      (List.getElem?_eq_none_iff.mp hcs))
    have hnone : vd.firstCluster = 0 := h.first
    rw [if_pos hnone]
    have hfree : (freeSet g t).Nonempty := by
      rw [← Finset.card_pos]
      unfold room at hroom
      rw [length_nil, Nat.zero_add] at hroom
      exact hroom
    have halloc := allocateClusterEx_spec hg h.layout.coherent true
    unfold allocateCluster
    generalize allocateClusterEx g fs true = r at halloc
    obtain ⟨c, fs1⟩ := r
    have hne := h.layout.alloc_ne_zero hg halloc hfree
    obtain ⟨hcl, hzero, hcoh, hhint, -, hnew⟩ := halloc.clusters hg hne
    simp only [if_neg hne]
    have hsize : vd.fileSize = 0 := by
      have hholds := h.holds
      rw [length_nil, Nat.zero_mul] at hholds
      exact le_zero.mp hholds
    refine ⟨fs1, _, t.set c eoc, [c], c, rfl, rfl,
      ⟨⟨hcoh, ?_, .singleton hcl⟩, rfl, fun _ => rfl, ?_, h.size⟩, rfl, ?_, ?_⟩
    · rw [hhint]
      exact hcl.2
    · simp only [hsize]
      exact Nat.zero_le _
    · have hcard := Finset.card_erase_add_one (mem_freeSet.mpr ⟨hcl, hzero⟩)
      unfold room
      rw [freeSet_set (by decide), length_singleton, length_nil]
      omega
    · have hnil : ∀ d ∈ ([] : List Nat), ∀ o < g.bytesPerCluster,
          readCluster g fs1 d o = readCluster g fs d o := fun d hd => nomatch hd
      exact contents_append_zero hg hnil (hnew rfl)

/-- A write overwrites the range, if there are clusters for it. -/
theorem fileWrite_spec (hg : Sound g) (hn : Numbered g) (h : FileAt g fs vd t cs)
    {data : List UInt8} (hsum : off + data.length < 2 ^ 32)
    (hoff : off < room g t cs * g.bytesPerCluster)
    (hend : off + data.length ≤ room g t cs * g.bytesPerCluster) :
    ∃ fs' vd' t' cs', fileWrite g fs vd data off = ((data.length : Int), vd', fs') ∧
      FileAt g fs' vd' t' cs' ∧ vd'.fileSize = max vd.fileSize (off + data.length) ∧
      room g t' cs' = room g t cs ∧
      contents g fs' cs' = overwrite (contents g fs cs) off data := by
  have hbpc := hg.bytesPerCluster_pos
  have hroom : off / g.bytesPerCluster < room g t cs := (Nat.div_lt_iff_lt_mul hbpc).mpr hoff
  obtain ⟨fs1, vd1, t1, cs1, c, hvd, hc, hfile, hsize1, hspace1, hcont1⟩ :=
    firstOrAlloc_spec hg h (zero_lt_of_lt hroom)
  unfold fileWrite
  have hidx : u32 (off / g.bytesPerCluster) = off / g.bytesPerCluster :=
    u32_of_lt (Nat.lt_of_le_of_lt (Nat.div_le_self _ _) (by omega))
  simp only [hvd, hidx]
  -- the search starts at a cluster of the chain, not behind the one that is looked for
  obtain ⟨k, d, hstart, hk, hle⟩ : ∃ k d,
      (if vd1.cachedCluster ≠ 0 ∧ vd1.cachedIndex ≤ off / g.bytesPerCluster then
        (vd1.cachedCluster, vd1.cachedIndex) else (vd1.firstCluster, 0)) = (d, k) ∧
      cs1[k]? = some d ∧ k ≤ off / g.bytesPerCluster := by
    split
    · next hcached => exact ⟨_, _, rfl, hfile.cached hcached.1, hcached.2⟩
    · exact ⟨0, c, by rw [hfile.first_eq hc], hc, Nat.zero_le _⟩
  rw [hstart]
  have hreach : k + (off / g.bytesPerCluster - k) = off / g.bytesPerCluster :=
    Nat.add_sub_cancel' hle
  obtain ⟨fs2, t2, cs2, e, hseek, he, hgrown, hcont2⟩ :=
    seekWrite_spec hg hn (off / g.bytesPerCluster - k) hfile.layout hk
      (by rw [hreach, hspace1]; exact hroom)
  rw [hreach] at he
  simp only [hseek]
  have hend2 : off + data.length ≤ room g t2 cs2 * g.bytesPerCluster := by
    rw [hgrown.space, hspace1]
    exact hend
  obtain ⟨w, fs3, t3, cs3, hloop, hgrown3, hcont3, hdone, hlast, hlen⟩ :=
    writeLoop_spec hg hn data.length (w := ⟨0, e, off / g.bytesPerCluster⟩) hgrown.layout
      (le_rfl) rfl he hend2
  simp only [Nat.zero_add] at hdone
  have hall := hgrown.trans hgrown3
  have hfirst : cs3[0]? = some c := hall.getElem? hc
  have hsmall := h.size
  have hholds : vd1.fileSize ≤ cs3.length * g.bytesPerCluster :=
    Nat.le_trans hfile.holds (Nat.mul_le_mul_right _ hall.old.length_le)
  simp only [hloop, hdone, u64_of_lt (Nat.lt_trans hsum (by decide : 2 ^ 32 < 2 ^ 64)),
    u32_of_lt hsum]
  refine ⟨fs3, _, t3, cs3, rfl, ?_, ?_, hall.space.trans hspace1, ?_⟩
  · split
    · exact ⟨hgrown3.layout, by rw [hfirst]; exact hfile.first_eq hc, fun _ => hlast, hlen, hsum⟩
    · exact ⟨hgrown3.layout, by rw [hfirst]; exact hfile.first_eq hc, fun _ => hlast, hholds,
        by simp only [hsize1]; exact hsmall⟩
  · split <;> simp only <;> omega
  · rw [hcont3, hcont2, hcont1]

end

/-! ## Section 5: Runs -/

/-- A file that is open through one vnode, and beside it the array of bytes that it stands for. -/
structure OpenFile where
  fs   : Fs
  vd   : Vdata
  file : ByteFile

inductive FileOp where
  | read (len off : Nat)
  | write (data : List UInt8) (off : Nat)

/-- There are clusters for a range: those of the file and the free ones. -/
def Enough (g : Geometry) (s : OpenFile) (off len : Nat) : Prop :=
  ∀ t cs, FileAt g s.fs s.vd t cs →
    off < room g t cs * g.bytesPerCluster ∧ off + len ≤ room g t cs * g.bytesPerCluster

/-- Reads and writes, with sizes below 4 GiB and enough free clusters. -/
inductive FileStep (g : Geometry) : OpenFile → FileOp → OpenFile → Prop where
  | read {s : OpenFile} {len off : Nat} : off + len < 2 ^ 64 →
      FileStep g s (.read len off) { s with fs := (fileRead g s.fs s.vd len off).2 }
  | write {s : OpenFile} {data : List UInt8} {off : Nat} : off + data.length < 2 ^ 32 →
      Enough g s off data.length →
      FileStep g s (.write data off)
        ⟨(fileWrite g s.fs s.vd data off).2.2, (fileWrite g s.fs s.vd data off).2.1,
          s.file.write off data⟩

/-- The clusters hold the array. -/
def Holds (g : Geometry) (s : OpenFile) : Prop :=
  ∃ t cs, FileAt g s.fs s.vd t cs ∧ s.file.size = s.vd.fileSize ∧
    ∀ i < s.vd.fileSize, s.file.byte i = contents g s.fs cs i

/-- It starts with any file of a consistent volume, with any bytes behind its end. -/
def fileSystem (g : Geometry) : System OpenFile FileOp where
  init := Holds g
  step := FileStep g

/-- Reads return the bytes of the array, and writes write all bytes. -/
structure IsByteArray (g : Geometry) (s : OpenFile) : Prop where
  size  : s.vd.fileSize = s.file.size
  read  : ∀ len off, off + len < 2 ^ 64 →
    (fileRead g s.fs s.vd len off).1 = s.file.read off len
  write : ∀ data off, off + data.length < 2 ^ 32 → Enough g s off data.length →
    (fileWrite g s.fs s.vd data off).1 = data.length

/-- A write beyond the end finds zeros between the end and its first byte. -/
def GapZero (g : Geometry) (s : OpenFile) : FileOp → Prop
  | .read _ _ => True
  | .write _ off => ∀ t cs, FileAt g s.fs s.vd t cs →
      ∀ i, s.vd.fileSize ≤ i → i < off → contents g s.fs cs i = 0

section

variable {g : Geometry} {s s' : OpenFile}

theorem Holds.isByteArray (hg : Sound g) (hn : Numbered g) (h : Holds g s) : IsByteArray g s := by
  obtain ⟨t, cs, hfile, hsize, hbytes⟩ := h
  refine ⟨hsize.symm, fun len off hsum => ?_, fun data off hsum henough => ?_⟩
  · obtain ⟨_, hread, -⟩ := fileRead_spec hg hn hfile hsum
    rw [hread, ByteFile.read, hsize]
    exact slice_congr fun i hi => (hbytes _ (by omega)).symm
  · obtain ⟨hoff, hend⟩ := henough t cs hfile
    obtain ⟨_, _, _, _, hret, -⟩ := fileWrite_spec hg hn hfile hsum hoff hend
    rw [hret]

theorem Holds.step (hg : Sound g) (hn : Numbered g) {op : FileOp} (h : Holds g s)
    (hgap : GapZero g s op) (hstep : FileStep g s op s') : Holds g s' := by
  obtain ⟨t, cs, hfile, hsize, hbytes⟩ := h
  cases hstep with
  | read hsum =>
    obtain ⟨fs', hread, hfile', hcont⟩ := fileRead_spec hg hn hfile hsum
    rw [hread]
    refine ⟨t, cs, hfile', hsize, fun i hi => ?_⟩
    rw [hcont]
    exact hbytes i hi
  | @write data off hsum henough =>
    obtain ⟨hoff, hend⟩ := henough t cs hfile
    obtain ⟨fs', vd', t', cs', hret, hfile', hsize', -, hcont⟩ :=
      fileWrite_spec hg hn hfile hsum hoff hend
    rw [hret]
    refine ⟨t', cs', hfile', ?_, fun i hi => ?_⟩
    · simp only [ByteFile.write]
      rw [hsize', hsize]
    rw [hsize'] at hi
    rw [hcont]
    simp only [ByteFile.write]
    by_cases hmem : off ≤ i ∧ i < off + data.length
    · rw [overwrite_of_mem hmem.1 hmem.2, overwrite_of_mem hmem.1 hmem.2]
    rw [overwrite_of_not_mem (by omega), overwrite_of_not_mem (by omega)]
    by_cases hold : i < s.vd.fileSize
    · exact hbytes i hold
    · -- a byte that the write skips
      rw [s.file.zero_after i (by omega), hgap t cs hfile i (by omega) (by omega)]

/-- If every write beyond the end finds zeros in the gap, the file is an array of bytes. -/
theorem file_is_byte_array (g : Geometry) (hg : Sound g) (hn : Numbered g) (s : OpenFile)
    (h : ((fileSystem g).restrict (GapZero g)).Reachable s) : IsByteArray g s := by
  have hholds : Holds g s := by
    refine @System.Reachable.induct _ _ _ (Holds g) ?_ ?_ _ h
    · intro s hinit
      exact hinit
    · intro s op s' _ hs ⟨hgap, hstep⟩
      exact hs.step hg hn hgap hstep
  exact hholds.isByteArray hg hn

end

/-! ## Section 6: A file with a byte behind its end -/

theorem smallGeometry_numbered : Numbered smallGeometry := by
  unfold Numbered
  decide

/-- A volume on which cluster 3, the only one of a file, begins with a 5 and the byte `b`. -/
def slackDisk (b : UInt8) : Disk := fun l =>
  if l = 4 then bufferOf [5, b] else smallDisk [0x0FFFFFF8, 0x0FFFFFFF, eoc, eoc] l

/-- The file has one byte. -/
def slackFile (b : UInt8) : OpenFile where
  fs   := mounted (slackDisk b)
  vd   := ⟨3, 1, 3, 0⟩
  file := ByteFile.empty.write 0 [5]

variable (b : UInt8)

theorem slackDisk_equal : EqualCopies smallGeometry (slackDisk b) := by
  intro i hi rel hrel o ho
  have hsmall := smallDisk_equal [0x0FFFFFF8, 0x0FFFFFFF, eoc, eoc] i hi rel hrel o ho
  have hne : ∀ j < smallGeometry.numFats, copySector smallGeometry j rel ≠ 4 := by
    obtain rfl : rel = 0 := lt_one_iff.mp hrel
    decide
  unfold slackDisk
  rw [if_neg (hne i hi), if_neg (hne 0 (by decide))]
  exact hsmall

theorem slackFile_holds : Holds smallGeometry (slackFile b) := by
  have hget : (diskTable smallGeometry (slackDisk b)).get 3 = eoc := by
    have hword : getLe 4 (leSector [0x0FFFFFF8, 0x0FFFFFFF, eoc, eoc]) 12 % 2 ^ 28 = eoc := by
      decide +kernel
    exact hword
  have hhint : 2 ≤ smallGeometry.totalClusters + 2 := by decide
  have hone : 1 ≤ [3].length * smallGeometry.bytesPerCluster := by decide
  have hsmall : 1 < 2 ^ 32 := by decide
  refine ⟨diskTable smallGeometry (slackDisk b), [3], ⟨⟨coherent_mount rfl (slackDisk_equal b) rfl,
    hhint, ?_⟩, rfl, fun _ => rfl, hone, hsmall⟩, rfl, fun i hi => ?_⟩
  · refine ⟨fun c hc => ?_, nodup_singleton 3, fun k c d _ hd => ?_, fun k c hc _ => ?_⟩
    · rw [mem_singleton.mp hc]
      exact ⟨by decide, by decide⟩
    · cases hd
    · rw [mem_singleton.mp (mem_of_getElem? hc), hget]
      decide
  · obtain rfl : i = 0 := lt_one_iff.mp hi
    rfl

/-- Its chain starts with cluster 3. -/
theorem slackFile_chain {b : UInt8} {t : Table} {cs : List Nat}
    (h : FileAt smallGeometry (slackFile b).fs (slackFile b).vd t cs) : cs[0]? = some 3 := by
  have hfirst : 3 = cs[0]?.getD 0 := h.first
  cases hget : cs[0]? with
  | none =>
    rw [hget] at hfirst
    cases hfirst
  | some c =>
    rw [hget] at hfirst
    exact congrArg some hfirst.symm

theorem slackFile_enough : Enough smallGeometry (slackFile b) 2 1 := by
  intro t cs h
  have hlen := (List.getElem?_eq_some_iff.mp (slackFile_chain h)).1
  have hroom : 1 ≤ room smallGeometry t cs := Nat.le_trans hlen (Nat.le_add_right _ _)
  have hbpc : smallGeometry.bytesPerCluster = 512 := rfl
  rw [hbpc]
  omega

/-- The file after a write of a 9 at offset 2. -/
def slackWritten (b : UInt8) : OpenFile where
  fs   := (fileWrite smallGeometry (slackFile b).fs (slackFile b).vd [9] 2).2.2
  vd   := (fileWrite smallGeometry (slackFile b).fs (slackFile b).vd [9] 2).2.1
  file := (slackFile b).file.write 2 [9]

theorem slackFile_step :
    (fileSystem smallGeometry).step (slackFile b) (.write [9] 2) (slackWritten b) :=
  FileStep.write (by decide) (slackFile_enough b)

/-- With a zero behind the end, the gap reads as zero. -/
theorem gap_reads_zero :
    ((fileSystem smallGeometry).restrict (GapZero smallGeometry)).Reachable (slackWritten 0) ∧
    (fileRead smallGeometry (slackWritten 0).fs (slackWritten 0).vd 3 0).1 = [5, 0, 9] := by
  have hgap : GapZero smallGeometry (slackFile 0) (.write [9] 2) := by
    intro t cs h i hlow hhigh
    have hlow' : 1 ≤ i := hlow
    obtain rfl : i = 0 * smallGeometry.bytesPerCluster + 1 := by omega
    rw [contents_apply (slackFile_chain h) (by decide)]
    rfl
  have hreach : ((fileSystem smallGeometry).restrict (GapZero smallGeometry)).Reachable
      (slackWritten 0) :=
    .step (.write [9] 2) (.init (slackFile_holds 0)) ⟨hgap, slackFile_step 0⟩
  exact ⟨hreach, ((file_is_byte_array _ smallGeometry_sound smallGeometry_numbered _ hreach).read
    3 0 (by decide)).trans (by decide)⟩

/-- A 7 behind the end of the file shows up in the gap. -/
theorem gap_keeps_old_byte :
    Sound smallGeometry ∧ Numbered smallGeometry ∧
    ∃ s, (fileSystem smallGeometry).Reachable s ∧ s.file.read 0 3 = [5, 0, 9] ∧
      (fileRead smallGeometry s.fs s.vd 3 0).1 = [5, 7, 9] := by
  refine ⟨smallGeometry_sound, smallGeometry_numbered, slackWritten 7, ?_, by decide, ?_⟩
  · exact .step (.write [9] 2) (.init (slackFile_holds 7)) (slackFile_step 7)
  · decide +kernel

end Cervus.Fat32
