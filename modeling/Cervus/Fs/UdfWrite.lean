import Cervus.Framework.System
import Cervus.Fs.UdfFile

/-! # UDF: a file is an array of bytes

    `udf_file_write` writes into the blocks of the file, old and new ones, and the entry last.

    The entry has room for a limited number of descriptors. A write that needs more fails with
    -EFBIG, although the file would be small enough and there are enough free blocks
    (`fragmented_write_fails`). With room for the descriptors, a file is an array of bytes
    (`udf_file_is_byte_array`). -/

namespace Cervus.Udf

open Function List Nat

section

variable {g : Geometry} {d d' d1 : Disk} {feLba : Nat} {f f' : ByteFile} {blocks blocks : List Nat}
  {data : List UInt8} {nd : Node} {fe : Bytes} {fs : Fs}

/-! ## Section 1: The blocks -/

/-- A new block that the loop has yet to write, at `pos` of a range that ends at `stop`. -/
def Pending (bs content stop pos k : Nat) : Prop :=
  content ≤ k ∧ pos < stop ∧ pos < (k + 1) * bs ∧ k * bs < stop

instance (bs content stop pos k : Nat) : Decidable (Pending bs content stop pos k) :=
  inferInstanceAs (Decidable (_ ∧ _))

/-- The bytes of the blocks, with zeros for those that are pending: what is in a new block does
    not matter until it is written. -/
def pendingView (g : Geometry) (blocks : List Nat) (content stop pos : Nat) (d : Disk) (k : Nat) :
    Bytes := fun o =>
  if k < blocks.length ∧ o < g.blockSize ∧ ¬ Pending g.blockSize content stop pos k then
    d (lba g (blocks.getD k 0)) o
  else 0

theorem getElem?_getD {k : Nat} (hk : k < blocks.length) : blocks[k]? = some (blocks.getD k 0) := by
  rw [getD_eq_getElem?_getD, List.getElem?_eq_getElem hk]
  rfl

/-- What is still pending after a block was written: a piece ends with its block or with the
    range. -/
theorem pending_next {bs content stop pos n k : Nat} (hbs : 0 < bs) (hn : 0 < n)
    (hfit : pos % bs + n ≤ bs) (hstop : pos + n ≤ stop)
    (hend : pos + n = stop ∨ pos % bs + n = bs) :
    (k ≠ pos / bs → (Pending bs content stop (pos + n) k ↔ Pending bs content stop pos k)) ∧
    ¬ Pending bs content stop (pos + n) (pos / bs) := by
  have hdiv := div_add_mod' pos bs
  constructor
  · intro hne
    unfold Pending
    rcases Nat.lt_or_gt_of_ne hne with hlt | hgt
    · have hmul := Nat.mul_le_mul_right bs (succ_le_of_lt hlt)
      rw [succ_mul] at hmul ⊢
      omega
    · have hmul := Nat.mul_le_mul_right bs (succ_le_of_lt hgt)
      rw [succ_mul] at hmul ⊢
      omega
  · unfold Pending
    rw [succ_mul]
    omega

/-- A turn of the loop overwrites a piece of one block. -/
theorem putBlock_spec (hg : Sound g) (howned : Owned g d feLba blocks) {content stop pos : Nat}
    (hdata : 0 < data.length)
    (hfit : pos % g.blockSize + data.length ≤ g.blockSize) (hstop : pos + data.length ≤ stop)
    (hend : pos + data.length = stop ∨ pos % g.blockSize + data.length = g.blockSize)
    (hin : pos / g.blockSize < blocks.length) :
    ∃ d2, putBlock g blocks content (pos / g.blockSize) (pos % g.blockSize) data d1 = some d2 ∧
      (∀ l, (∀ b ∈ blocks, l ≠ lba g b) → d2 l = d1 l) ∧
      pendingView g blocks content stop (pos + data.length) d2 =
        update (pendingView g blocks content stop pos d1) (pos / g.blockSize)
          (overwrite (pendingView g blocks content stop pos d1 (pos / g.blockSize))
            (pos % g.blockSize) data) := by
  have hbs := hg.block
  have hget := getElem?_getD hin
  have hpend := fun k => @pending_next g.blockSize content stop pos data.length k hbs hdata hfit
    hstop hend
  refine ⟨_, rfl, fun l hl => ?_, ?_⟩
  · exact update_of_ne (hl _ (mem_of_getElem? hget)) _ _
  funext k o
  by_cases hk : k = pos / g.blockSize
  · rw [hk, update_self]
    by_cases ho : o < g.blockSize
    · rw [pendingView, if_pos ⟨hin, ho, (hpend 0).2⟩, update_self]
      by_cases hpart : pos % g.blockSize ≠ 0 ∨ data.length ≠ g.blockSize
      · rw [if_pos hpart]
        by_cases hmem : pos % g.blockSize ≤ o ∧ o < pos % g.blockSize + data.length
        · rw [overwrite_of_mem hmem.1 hmem.2, overwrite_of_mem hmem.1 hmem.2]
        have hout : o < pos % g.blockSize ∨ pos % g.blockSize + data.length ≤ o := by omega
        rw [overwrite_of_not_mem hout, overwrite_of_not_mem hout, pendingView]
        -- a block with old data is read, a new one is pending and so zero
        by_cases hold : pos / g.blockSize < content
        · rw [if_pos hold, if_pos ⟨hin, ho, fun hp => absurd hp.1 (Nat.not_le.mpr hold)⟩]
        rw [if_neg hold, if_neg]
        rintro ⟨-, -, hnot⟩
        apply hnot
        have hdiv := div_add_mod' pos g.blockSize
        refine ⟨Nat.not_lt.mp hold, by omega, ?_, by omega⟩
        rw [succ_mul]
        omega
      -- the whole block
      have hwhole : pos % g.blockSize = 0 ∧ data.length = g.blockSize := by omega
      rw [if_neg hpart, overwrite_of_mem (Nat.zero_le _) (by omega), hwhole.1,
        overwrite_of_mem (Nat.zero_le _) (by omega)]
    · rw [pendingView, if_neg fun h => ho h.2.1, overwrite_of_not_mem (.inr (by omega)),
        pendingView, if_neg fun h => ho h.2.1]
  rw [update_of_ne hk, pendingView, pendingView]
  simp only [((hpend k).1 hk)]
  split
  · next hcond =>
    rw [update_of_ne]
    intro heq
    exact hk (howned.lba_inj hg (getElem?_getD hcond.1) hget heq)
  · rfl

theorem zeroBlocks_spec (hg : Sound g) (howned : Owned g d feLba blocks) {offset stop : Nat}
    (content : Nat) : ∀ {n : Nat} {d1 : Disk}, content + n ≤ blocks.length →
      (∀ l, (∀ b ∈ blocks, l ≠ lba g b) →
        zeroBlocks g blocks offset stop content (content + n) d1 l = d1 l) ∧
      (∀ k b, blocks[k]? = some b → ∀ o,
        zeroBlocks g blocks offset stop content (content + n) d1 (lba g b) o =
          if content ≤ k ∧ k < content + n ∧
              (k * g.blockSize + g.blockSize ≤ offset ∨ k * g.blockSize ≥ stop)
            then 0 else d1 (lba g b) o) := by
  intro n
  induction n with
  | zero =>
    intro d1 _
    have heq : zeroBlocks g blocks offset stop content (content + 0) d1 = d1 := by
      simp [zeroBlocks]
    rw [heq]
    refine ⟨fun _ _ => rfl, fun k b _ o => ?_⟩
    rw [if_neg (by omega)]
  | succ n ih =>
    intro d1 hle
    obtain ⟨hout, hin⟩ := @ih d1 (by omega)
    have heq : zeroBlocks g blocks offset stop content (content + (n + 1)) d1 =
        (if (content + n) * g.blockSize + g.blockSize ≤ offset ∨
            (content + n) * g.blockSize ≥ stop then
          update (zeroBlocks g blocks offset stop content (content + n) d1)
            (lba g (blocks.getD (content + n) 0)) fun _ => 0
        else zeroBlocks g blocks offset stop content (content + n) d1) := by
      unfold zeroBlocks
      rw [Nat.add_sub_cancel_left, Nat.add_sub_cancel_left, range'_concat, foldl_append,
        Nat.one_mul]
      rfl
    have hlast := getElem?_getD (show content + n < blocks.length by omega)
    rw [heq]
    have hbefore : ∀ {k}, k ≠ content + n →
        ((content ≤ k ∧ k < content + (n + 1)) ↔ (content ≤ k ∧ k < content + n)) := by omega
    split
    · next hskip =>
      refine ⟨fun l hl => ?_, fun k b hk o => ?_⟩
      · rw [update_of_ne (hl _ (mem_of_getElem? hlast)), hout l hl]
      by_cases hkn : k = content + n
      · subst hkn
        obtain rfl := Option.some.inj (hlast.symm.trans hk)
        rw [update_self, if_pos (by omega)]
      have hne : lba g b ≠ lba g (blocks.getD (content + n) 0) :=
        fun hlba => hkn (howned.lba_inj hg hk hlast hlba)
      rw [update_of_ne hne, hin k b hk o]
      simp only [← and_assoc, hbefore hkn]
    next hskip =>
    refine ⟨hout, fun k b hk o => ?_⟩
    rw [hin k b hk o]
    by_cases hkn : k = content + n
    · subst hkn
      rw [if_neg (by omega), if_neg (by omega)]
    · simp only [← and_assoc, hbefore hkn]

/-- The loop of a write: new blocks that it skips become zero, the others are overwritten. -/
theorem writeRange_spec (hg : Sound g) (howned : Owned g d' feLba blocks) {content offset : Nat}
    (hdata : 0 < data.length) (hcontent : content ≤ blocks.length)
    (hsize : f.size ≤ content * g.blockSize) (hold : HoldBytes g d (blocks.take content) f.byte)
    (hfit : offset + data.length ≤ blocks.length * g.blockSize) :
    ∃ d2, scatter g.blockSize (putBlock g blocks content) data.length offset data
        (zeroBlocks g blocks offset (offset + data.length) content blocks.length d) = some d2 ∧
      (∀ l, (∀ b ∈ blocks, l ≠ lba g b) → d2 l = d l) ∧
      HoldBytes g d2 blocks (overwrite f.byte offset data) := by
  have hbs := hg.block
  have hlen : content + (blocks.length - content) = blocks.length := by omega
  obtain ⟨hzout, hzin⟩ := @zeroBlocks_spec g d' feLba blocks hg howned offset
    (offset + data.length) content (blocks.length - content) d (by omega)
  rw [hlen] at hzout hzin
  generalize zeroBlocks g blocks offset (offset + data.length) content blocks.length d = d1
    at hzout hzin
  -- before the loop the blocks that are not pending hold the old bytes
  have hstart : flat g.blockSize
      (pendingView g blocks content (offset + data.length) offset d1) = f.byte := by
    funext i
    have hdiv := div_add_mod' i g.blockSize
    have hmod := mod_lt i hbs
    rw [flat]
    generalize i / g.blockSize = k at hdiv ⊢
    generalize i % g.blockSize = o at hdiv hmod ⊢
    have hzero : content ≤ k → f.byte i = 0 := by
      intro hge
      have hmul := Nat.mul_le_mul_right g.blockSize hge
      exact f.zero_after i (by omega)
    rw [pendingView]
    split
    · next hcond =>
      obtain ⟨hk, -, hnot⟩ := hcond
      rw [hzin k _ (getElem?_getD hk) o]
      by_cases hnew : content ≤ k
      · have hskip : k * g.blockSize + g.blockSize ≤ offset ∨
            k * g.blockSize ≥ offset + data.length := by
          by_contra hin
          apply hnot
          refine ⟨hnew, by omega, ?_, by omega⟩
          rw [succ_mul]
          omega
        rw [if_pos ⟨hnew, hk, hskip⟩, hzero hnew]
      rw [if_neg fun h => hnew h.1, ← hdiv]
      refine hold k _ ?_ o hmod
      rw [List.getElem?_take_of_lt (by omega)]
      exact getElem?_getD hk
    next hcond =>
    symm
    apply hzero
    by_contra hlt
    exact hcond ⟨by omega, hmod, fun hp => hlt hp.1⟩
  have hloop := @scatter_spec g.blockSize Disk hbs (putBlock g blocks content)
    (pendingView g blocks content (offset + data.length))
    (fun _ d2 => ∀ l, (∀ b ∈ blocks, l ≠ lba g b) → d2 l = d1 l) (offset + data.length)
    fun pos piece s hinv hpos hin hle hlast => by
      have hblock : pos / g.blockSize < blocks.length := (Nat.div_lt_iff_lt_mul hbs).mpr (by omega)
      obtain ⟨s', hput, hframe, hview⟩ := putBlock_spec hg howned hpos hin hle hlast hblock
      exact ⟨s', hput, fun l hl => (hframe l hl).trans (hinv l hl), hview⟩
  obtain ⟨d2, hscatter, hout, hend⟩ := hloop (le_rfl) rfl fun _ _ => rfl
  refine ⟨d2, hscatter, fun l hl => (hout l hl).trans (hzout l hl), fun k b hk o ho => ?_⟩
  -- nothing is pending after the loop
  have hklt := (List.getElem?_eq_some_iff.mp hk).1
  obtain rfl : blocks.getD k 0 = b := Option.some.inj ((getElem?_getD hklt).symm.trans hk)
  have hview := congrFun hend (k * g.blockSize + o)
  rw [hstart, flat, Nat.add_comm (k * g.blockSize) o, add_mul_div_right _ _ hbs,
    div_eq_of_lt ho, Nat.zero_add, add_mul_mod_self_right, mod_eq_of_lt ho,
    pendingView, if_pos ⟨hklt, ho, fun hp => absurd hp.2.1 (Nat.lt_irrefl _)⟩] at hview
  rw [hview, Nat.add_comm o]

/-! ## Section 2: Writing in place -/

/-- The blocks of the file after a write that needs `needed` of them. -/
def grownBlocks (g : Geometry) (d : Disk) (fe : Bytes) (needed : Nat) : List Nat :=
  ownBlocks g fe ++ (freeList g d).take (needed - (ownBlocks g fe).length)

/-- The old bytes in the first blocks: those of an inline file are copied there. -/
def contentDisk (g : Geometry) (d : Disk) (fe : Bytes) (blocks : List Nat) : Disk :=
  if adType fe = 3 then
    writeBlocks g (fun i => fe (adArea fe + i)) (infoLen fe) 0
      (blocks.take (blockCount g.blockSize (infoLen fe))) d
  else d

section

variable (hg : Sound g) (h : FileIs g d feLba f)
include hg h

theorem FileIs.length_ownBlocks :
    (ownBlocks g (d feLba)).length =
      if adType (d feLba) = 3 then 0 else blockCount g.blockSize f.size := by
  unfold ownBlocks
  rcases h.data with hin | ⟨blocks, hin⟩
  · rw [if_neg (by rw [hin.type]; decide), if_pos hin.type]
    rfl
  · rw [if_pos hin.type, if_neg (by rw [hin.type]; decide), hin.loadBlocks_eq hg h.small, hin.count]

/-- The blocks of the file and new ones. -/
theorem Owned.append (hvol : Volume g d feLba) {n : Nat}
    (hfree : freeList g d' = (freeList g d).drop n) :
    Owned g d' feLba (ownBlocks g (d feLba) ++ (freeList g d).take n) := by
  have hown := h.owned hg
  have hnew := hvol.owned hfree
  refine ⟨fun b hb => ?_, fun b hb => ?_, ?_⟩
  · rcases mem_append.mp hb with hb | hb
    · obtain ⟨hlt, hused⟩ := hown.used b hb
      refine ⟨hlt, ?_⟩
      by_contra hne
      have hmem : b ∈ freeList g d' := mem_freeList.mpr ⟨hlt, Bool.not_eq_false _ ▸ hne⟩
      rw [hfree] at hmem
      rw [(mem_freeList.mp (mem_of_mem_drop hmem)).2] at hused
      cases hused
    · exact hnew.used b hb
  · rcases mem_append.mp hb with hb | hb
    · exact hown.apart b hb
    · exact hnew.apart b hb
  · refine hown.nodup.append hnew.nodup fun b hb hb' => ?_
    cases (mem_freeList.mp (mem_of_mem_take hb')).2.symm.trans (hown.used b hb).2

theorem contentDisk_spec (hsame : SameData g d d') (howned : Owned g d' feLba blocks)
    (hown : ownBlocks g (d feLba) <+: blocks) :
    (∀ l, (∀ b ∈ blocks, l ≠ lba g b) → contentDisk g d' (d feLba) blocks l = d' l) ∧
    HoldBytes g (contentDisk g d' (d feLba) blocks)
      (blocks.take (blockCount g.blockSize f.size)) f.byte := by
  unfold contentDisk
  rcases h.data with hin | ⟨old, hin⟩
  · rw [if_pos hin.type, h.size]
    constructor
    · intro l hl
      exact writeBlocks_of_ne _ _ _ fun b hb => hl b (mem_of_mem_take hb)
    intro k b hk o ho
    rw [writeBlocks_apply hg _ _ _ (fun c hc => (howned.used c (mem_of_mem_take hc)).1)
      (howned.nodup.sublist (take_sublist _ _)) hk, Nat.zero_add]
    split
    · next hlt => exact hin.bytes _ hlt
    · next hge => exact (f.zero_after _ (Nat.not_lt.mp hge)).symm
  rw [if_neg (by rw [hin.type]; decide)]
  refine ⟨fun _ _ => rfl, fun k b hk o ho => ?_⟩
  have heq : ownBlocks g (d feLba) = old := by
    rw [ownBlocks, if_pos hin.type, hin.loadBlocks_eq hg h.small]
  rw [heq] at hown
  rw [← hin.count, ← prefix_iff_eq_take.mp hown] at hk
  rw [hsame _ (hin.owned.apart b (mem_of_getElem? hk)).2]
  exact hin.bytes k b hk o ho

/-- A write needs at least the blocks that the file has. -/
theorem FileIs.own_le {size : Nat} (hle : f.size ≤ size) :
    (ownBlocks g (d feLba)).length ≤ blockCount g.blockSize size := by
  have hmono : blockCount g.blockSize f.size ≤ blockCount g.blockSize size :=
    (blockCount_le_iff hg.block).mpr (Nat.le_trans hle ((blockCount_le_iff hg.block).mp (le_rfl)))
  rw [h.length_ownBlocks hg]
  split
  · exact Nat.zero_le _
  · exact hmono

end

/-- The part of `udf_file_write` that works on blocks, with the lists named. -/
theorem fileWriteBlocks_eq (hg : Sound g) (hmem : fs.failAfter = [])
    (h : FileIs g fs.disk nd.feLba f) (hfe : fs.disk nd.feLba = fe)
    {newSize needed more : Nat} (hneeded : blockCount g.blockSize newSize = needed)
    (hmore : needed - (ownBlocks g fe).length = more)
    (halloc : allocBlocks g more fs = ((freeList g fs.disk).take more, { fs with disk := d1 }))
    (henough : more ≤ (freeList g fs.disk).length) (data : List UInt8) (offset : Nat)
    (hblocks : blocks = grownBlocks g fs.disk fe needed) (d2 : Disk)
    (hd2 : d2 = (scatter g.blockSize (putBlock g blocks (blockCount g.blockSize f.size))
      data.length offset data (zeroBlocks g blocks offset (offset + data.length)
        (blockCount g.blockSize f.size) needed (contentDisk g d1 fe blocks))).getD
      (zeroBlocks g blocks offset (offset + data.length) (blockCount g.blockSize f.size)
        needed (contentDisk g d1 fe blocks))) :
    fileWriteBlocks g fs nd fe data offset newSize =
      if (runs blocks).length > inlineCap g fe / 8 then (-efbig, nd, { fs with disk := d2 })
      else
        let fe := extentsFe g fe nd.feLba newSize needed
          (extents g.blockSize newSize 0 (runs blocks))
        ((data.length : Int), { nd with size := newSize },
          { fs with disk := update d2 nd.feLba fe }) := by
  have hsize : infoLen fe = f.size := hfe ▸ h.size
  have hcount : (if adType fe = 3 then 0 else blockCount g.blockSize f.size) =
      (ownBlocks g fe).length := hfe ▸ (h.length_ownBlocks hg).symm
  have hold : (if adType fe = 3 then []
      else (loadBlocks g fe).take (ownBlocks g fe).length) = ownBlocks g fe := by
    rw [← hfe]
    rcases h.data with hin | ⟨old, hin⟩
    · rw [if_pos hin.type, ownBlocks, if_neg (by rw [hin.type]; decide)]
    · rw [if_neg (by rw [hin.type]; decide), ownBlocks, if_pos hin.type, take_length]
  have hmalloc : (if adType fe = 3 ∧ f.size = 0 then (true, fs) else (true, fs)) = (true, fs) :=
    ite_self _
  unfold fileWriteBlocks
  simp only [kmalloc_of_nil hmem, hsize, hneeded, hcount, hold, hmalloc, hmore, halloc,
    Bool.not_true, Bool.false_eq_true, if_false, length_extents]
  rw [length_take_of_le henough, if_neg (Nat.lt_irrefl _)]
  rw [grownBlocks, hmore] at hblocks
  have hcontent : (if adType fe = 3 then writeBlocks g (fun i => fe (adArea fe + i)) f.size 0
      (blocks.take (blockCount g.blockSize f.size)) d1 else d1) = contentDisk g d1 fe blocks := by
    rw [contentDisk, hsize]
  rw [← hblocks, hcontent, ← hd2]

/-- With enough blocks a write succeeds if the entry has room for their descriptors, and only
    then. -/
theorem fileWriteBlocks_spec (hg : Sound g) (hmem : fs.failAfter = [])
    (h : FileIs g fs.disk nd.feLba f) (hvol : Volume g fs.disk nd.feLba)
    (hfe : fs.disk nd.feLba = fe) {offset : Nat}
    (hdata : 0 < data.length) (hf' : f.write offset data = f') (hsmall : f'.size ≤ maxSize)
    (hblocks : blocks = grownBlocks g fs.disk fe (blockCount g.blockSize f'.size))
    (henough : blockCount g.blockSize f'.size ≤
      (ownBlocks g fe).length + (freeList g fs.disk).length) :
    ((runs blocks).length ≤ inlineCap g fe / 8 →
      ∃ d', fileWriteBlocks g fs nd fe data offset f'.size =
          ((data.length : Int), { nd with size := f'.size }, { fs with disk := d' }) ∧
        FileIs g d' nd.feLba f' ∧ Changed g fs.disk d' nd.feLba) ∧
    (inlineCap g fe / 8 < (runs blocks).length →
      ∃ d', fileWriteBlocks g fs nd fe data offset f'.size =
        (-efbig, nd, { fs with disk := d' })) := by
  have hbs := hg.block
  have hsize : f.size ≤ f'.size := hf' ▸ Nat.le_max_left _ _
  have hstop : offset + data.length ≤ f'.size := hf' ▸ Nat.le_max_right _ _
  have hownle : (ownBlocks g fe).length ≤ blockCount g.blockSize f'.size := hfe ▸ h.own_le hg hsize
  have hcover := fun n => (@blockCount_le_iff g.blockSize n hbs _).mp (le_rfl)
  obtain ⟨d1, halloc, hfree, hsame⟩ := allocBlocks_spec hg
    (blockCount g.blockSize f'.size - (ownBlocks g fe).length) hmem
  have howned := Owned.append hg h hvol hfree
  have hfits : blockCount g.blockSize f'.size - (ownBlocks g fe).length ≤
      (freeList g fs.disk).length := by omega
  have hcount : blocks.length = blockCount g.blockSize f'.size := by
    rw [hblocks, grownBlocks, length_append, length_take_of_le hfits]
    omega
  have hown : ownBlocks g fe <+: blocks := by
    rw [hblocks]
    exact prefix_append _ _
  rw [hfe, show ownBlocks g fe ++ _ = blocks from hblocks.symm] at howned
  -- the old bytes are in the first blocks, and the loop writes the new ones
  obtain ⟨hframe1, hold⟩ := contentDisk_spec hg h hsame howned (hfe ▸ hown)
  rw [hfe] at hframe1 hold
  have hcontent : blockCount g.blockSize f.size ≤ blocks.length := by
    rw [hcount]
    exact (blockCount_le_iff hbs).mpr (Nat.le_trans hsize (hcover _))
  have hrange : offset + data.length ≤ blocks.length * g.blockSize := by
    rw [hcount]
    exact Nat.le_trans hstop (hcover _)
  obtain ⟨d2, hscatter, hframe2, hbytes⟩ :=
    writeRange_spec hg howned hdata hcontent (hcover _) hold hrange
  rw [fileWriteBlocks_eq hg hmem h hfe rfl rfl halloc hfits data offset hblocks d2 (by
    rw [← hcount, hscatter]
    rfl)]
  constructor
  · intro hruns
    rw [if_neg (Nat.not_lt.mpr hruns)]
    have hbitmap : ∀ l, InBitmap g l → d2 l = d1 l := by
      intro l hl
      have hne : ∀ b ∈ blocks, l ≠ lba g b := by
        rintro b hb rfl
        exact (howned.apart b hb).2 hl
      rw [hframe2 l hne, hframe1 l hne]
    rw [show overwrite f.byte offset data = f'.byte from congrArg ByteFile.byte hf'] at hbytes
    obtain ⟨hfile, hlist⟩ := fileIs_extentsFe hg (hfe ▸ h.header) hsmall hcount hruns
      (howned.congr hg hbitmap) hvol.entry hbytes (blockCount g.blockSize f'.size)
    refine ⟨_, rfl, hfile, ?_⟩
    refine ⟨fun x hx => ?_, fun x hx => ?_, fun l hl hne hnot => ?_,
      by rw [update_self, extentsFe_type hg (hfe ▸ h.header), hfe]⟩
    · rw [hlist, isFree_update hg hvol.entry _ hx, isFree_congr hg hbitmap hx,
        free_iff_of_drop hfree hx, hblocks, grownBlocks, mem_append, hfe]
      -- an own block is not free
      have hused : x ∈ ownBlocks g fe → isFree g fs.disk x ≠ true := by
        intro hx'
        rw [((h.owned hg).used x (hfe ▸ hx')).2]
        decide
      tauto
    · rw [hlist, hblocks, grownBlocks, mem_append] at hx
      rw [hfe]
      exact hx.symm.imp_left fun hx => (mem_freeList.mp (mem_of_mem_take hx)).2
    · rw [hlist] at hnot
      rw [update_of_ne hne, hframe2 l hnot, hframe1 l hnot, hsame l hl]
  · intro hmany
    rw [if_pos hmany]
    exact ⟨d2, rfl⟩

/-! ## Section 3: The calls -/

/-- There are blocks for `size` bytes: those of the file and the free ones. -/
def Enough (g : Geometry) (d : Disk) (fe : Bytes) (size : Nat) : Prop :=
  inlineCap g fe < size →
    blockCount g.blockSize size ≤ (ownBlocks g fe).length + (freeList g d).length

/-- The entry has room for the descriptors of these blocks, if `size` bytes need any. -/
def HasRoom (g : Geometry) (fe : Bytes) (blocks : List Nat) (size : Nat) : Prop :=
  inlineCap g fe < size → (runs blocks).length ≤ inlineCap g fe / 8

theorem fileWrite_spec (hg : Sound g) (hmem : fs.failAfter = [])
    (h : FileIs g fs.disk nd.feLba f) (hvol : Volume g fs.disk nd.feLba)
    (hfe : fs.disk nd.feLba = fe) {offset : Nat}
    (hdata : 0 < data.length) (hstop : offset + data.length ≤ maxSize)
    (hf' : f.write offset data = f') (henough : Enough g fs.disk fe f'.size)
    (hblocks : blocks = grownBlocks g fs.disk fe (blockCount g.blockSize f'.size)) :
    (HasRoom g fe blocks f'.size → ∃ d', fileWrite g fs nd data offset =
          ((data.length : Int), { nd with size := f'.size }, { fs with disk := d' }) ∧
        FileIs g d' nd.feLba f' ∧ Changed g fs.disk d' nd.feLba) ∧
    (¬ HasRoom g fe blocks f'.size →
      ∃ d', fileWrite g fs nd data offset = (-efbig, nd, { fs with disk := d' })) := by
  have hmax : maxSize < 2 ^ 64 := by decide
  have hsmall : f'.size ≤ maxSize := hf' ▸ Nat.max_le.mpr ⟨h.small, hstop⟩
  have hafter : sizeAfter (infoLen fe) offset data.length = f'.size := by
    rw [← hfe, h.size, sizeAfter, u64_of_lt (by omega), ← hf']
    simp only [ByteFile.write]
    split <;> omega
  have htype : adType fe ≠ 1 := by
    rw [← hfe]
    rcases h.data with hin | ⟨blocks, hin⟩
    · rw [hin.type]
      decide
    · rw [hin.type]
      decide
  have hbranch : fileWrite g fs nd data offset = if f'.size ≤ inlineCap g fe then
        let w := rewriteFile g fs nd.feLba fe data offset f'.size
        if w.1 < 0 then (w.1, nd, w.2) else (data.length, { nd with size := f'.size }, w.2)
      else fileWriteBlocks g fs nd fe data offset f'.size := by
    unfold fileWrite
    rw [if_neg (by omega)]
    simp only [kmalloc_of_nil hmem, hfe, hafter, Bool.not_true, Bool.false_eq_true, if_false,
      if_neg htype]
    rw [if_neg (Nat.not_lt.mpr hsmall)]
  rw [hbranch]
  by_cases hcap : f'.size ≤ inlineCap g fe
  · have hin : ∀ {P : Prop}, inlineCap g fe < f'.size → P :=
      fun hbig => absurd hcap (Nat.not_le.mpr hbig)
    rw [if_pos hcap]
    obtain ⟨d', hw, hfile, hchange⟩ := rewriteFile_spec hg hmem h hvol hsmall
      (fun _ _ => by rw [← hf']; rfl) fun hbig => hin (hfe ▸ hbig)
    rw [hfe] at hw
    simp only [hw]
    exact ⟨fun _ => ⟨d', rfl, hfile, hchange⟩, fun hno => absurd (fun hbig => hin hbig) hno⟩
  have hbig := Nat.not_le.mp hcap
  obtain ⟨hok, hfail⟩ :=
    fileWriteBlocks_spec hg hmem h hvol hfe hdata hf' hsmall hblocks (henough hbig)
  rw [if_neg hcap]
  refine ⟨fun hroom => hok (hroom hbig), fun hno => hfail ?_⟩
  by_contra hfew
  exact hno fun _ => Nat.not_lt.mp hfew

/-- Returning the blocks of a file adds them to the free ones. -/
theorem length_freeAfter (hg : Sound g) (h : FileIs g d feLba f) :
    (ownBlocks g (d feLba)).length + (freeList g d).length ≤ (freeAfter g d (d feLba)).length := by
  have hown := h.owned hg
  have hnodup : (ownBlocks g (d feLba) ++ freeList g d).Nodup := by
    refine hown.nodup.append (nodup_freeList g d) fun b hb hb' => ?_
    cases (mem_freeList.mp hb').2.symm.trans (hown.used b hb).2
  have hsub : ownBlocks g (d feLba) ++ freeList g d ⊆ freeAfter g d (d feLba) := by
    intro b hb
    rw [freeAfter, mem_filter, mem_range, Bool.or_eq_true, decide_eq_true_iff]
    rcases mem_append.mp hb with hb | hb
    · exact ⟨(hown.used b hb).1, .inr hb⟩
    · exact ⟨(mem_freeList.mp hb).1, .inl (mem_freeList.mp hb).2⟩
  rw [← length_append]
  exact (subperm_of_subset hnodup hsub).length_le

theorem truncate_spec (hg : Sound g) (hmem : fs.failAfter = [])
    (h : FileIs g fs.disk nd.feLba f) (hvol : Volume g fs.disk nd.feLba) {size : Nat}
    (hsmall : size ≤ maxSize) (henough : Enough g fs.disk (fs.disk nd.feLba) size)
    (hroom : HasRoom g (fs.disk nd.feLba) ((freeAfter g fs.disk (fs.disk nd.feLba)).take
      (blockCount g.blockSize size)) size) :
    ∃ d', truncate g fs nd size = (0, { nd with size := size }, { fs with disk := d' }) ∧
      FileIs g d' nd.feLba (f.truncate size) ∧ Changed g fs.disk d' nd.feLba := by
  have hbytes : ∀ i < size, (f.truncate size).byte i = overwrite f.byte size [] i := by
    intro i hi
    rw [overwrite_nil]
    exact if_pos hi
  have hfits : Fits g (fs.disk nd.feLba) (freeAfter g fs.disk (fs.disk nd.feLba)) size :=
    fun hbig => ⟨Nat.le_trans (henough hbig) (length_freeAfter hg h), hroom hbig⟩
  obtain ⟨d', hw, hfile, hchange⟩ := @rewriteFile_spec g nd.feLba f hg fs hmem h hvol
    (f.truncate size) [] size hsmall hbytes hfits
  have hw' : rewriteFile g fs nd.feLba (fs.disk nd.feLba) [] size size =
      (0, { fs with disk := d' }) := hw
  refine ⟨d', ?_, hfile, hchange⟩
  unfold truncate resizeWrite
  simp only [kmalloc_of_nil hmem, Bool.not_true, Bool.false_eq_true, if_false, if_true, hw']
  rw [if_neg (Nat.not_lt.mpr hsmall), if_neg (by decide)]

end

/-! ## Section 4: Runs -/

/-- A file, and beside it the array of bytes that it stands for. -/
structure OpenFile where
  fs   : Fs
  nd   : Node
  file : ByteFile

inductive FileOp where
  | read (len off : Nat)
  | write (data : List UInt8) (off : Nat)
  | truncate (size : Nat)

/-- The entry of the file. -/
def OpenFile.fe (s : OpenFile) : Bytes := s.fs.disk s.nd.feLba

/-- What a write makes of the array; one without data does nothing. -/
def written (f : ByteFile) (data : List UInt8) (off : Nat) : ByteFile :=
  if data.length = 0 then f else f.write off data

/-- A file that `udf_create` has made, in a block of a consistent volume. -/
structure Created (g : Geometry) (s : OpenFile) : Prop where
  memory : s.fs.failAfter = []
  volume : Volume g s.fs.disk s.nd.feLba
  entry  : ∃ dirFe block, HeaderFits g dirFe ∧ s.nd = ⟨lba g block, 0⟩ ∧
    s.fe = createFe g dirFe block
  file   : s.file = .empty

/-- Sizes are at most 8 MiB, and there are enough blocks. -/
inductive FileStep (g : Geometry) : OpenFile → FileOp → OpenFile → Prop where
  | read {s : OpenFile} {len off : Nat} :
      FileStep g s (.read len off) { s with fs := (fileRead g s.fs s.nd len off).2 }
  | write {s : OpenFile} {data : List UInt8} {off : Nat} : off + data.length ≤ maxSize →
      Enough g s.fs.disk s.fe (written s.file data off).size →
      FileStep g s (.write data off)
        ⟨(fileWrite g s.fs s.nd data off).2.2, (fileWrite g s.fs s.nd data off).2.1,
          written s.file data off⟩
  | truncate {s : OpenFile} {size : Nat} : size ≤ maxSize → Enough g s.fs.disk s.fe size →
      FileStep g s (.truncate size)
        ⟨(truncate g s.fs s.nd size).2.2, (truncate g s.fs s.nd size).2.1, s.file.truncate size⟩

def fileSystem (g : Geometry) : System OpenFile FileOp where
  init := Created g
  step := FileStep g

/-- The entry has room for the descriptors of the blocks that the file gets. -/
def DescriptorsFit (g : Geometry) (s : OpenFile) : FileOp → Prop
  | .read _ _ => True
  | .write data off =>
    let size := (written s.file data off).size
    HasRoom g s.fe (grownBlocks g s.fs.disk s.fe (blockCount g.blockSize size)) size
  | .truncate size =>
    HasRoom g s.fe ((freeAfter g s.fs.disk s.fe).take (blockCount g.blockSize size)) size

/-- The size is that of the array, and reads return its bytes. Writes and truncations for which
    the descriptors fit succeed. -/
structure IsByteArray (g : Geometry) (s : OpenFile) : Prop where
  size : s.nd.size = s.file.size
  read : ∀ len off, (fileRead g s.fs s.nd len off).1 = some (s.file.read off len)
  write : ∀ data off, off + data.length ≤ maxSize →
    Enough g s.fs.disk s.fe (written s.file data off).size →
    DescriptorsFit g s (.write data off) → (fileWrite g s.fs s.nd data off).1 = data.length
  truncate : ∀ size, size ≤ maxSize → Enough g s.fs.disk s.fe size →
    DescriptorsFit g s (.truncate size) → (truncate g s.fs s.nd size).1 = 0

/-- The entry and its blocks hold the array. -/
structure Holds (g : Geometry) (s : OpenFile) : Prop where
  memory : s.fs.failAfter = []
  volume : Volume g s.fs.disk s.nd.feLba
  size   : s.nd.size = s.file.size
  file   : FileIs g s.fs.disk s.nd.feLba s.file

section

variable {g : Geometry} {s s' : OpenFile}

theorem Created.holds (hg : Sound g) (h : Created g s) : Holds g s := by
  obtain ⟨dirFe, block, hfits, hnd, hfe⟩ := h.entry
  obtain ⟨hsame, htype, hinfo, hlad⟩ := createFe_spec hg hfits hfe
  have hfile := h.file
  refine ⟨h.memory, h.volume, by rw [hnd, hfile]; rfl, hsame.fits hfits, ?_, ?_, .inl ?_⟩
  · rw [hfile]
    exact hinfo
  · rw [hfile]
    exact Nat.zero_le _
  · rw [hfile]
    exact ⟨htype, hlad, Nat.zero_le _, fun i hi => absurd hi (Nat.not_lt_zero i)⟩

/-- A write, with data or without. -/
theorem Holds.write (hg : Sound g) (h : Holds g s) {data : List UInt8} {off : Nat}
    (hstop : off + data.length ≤ maxSize)
    (henough : Enough g s.fs.disk s.fe (written s.file data off).size)
    (hroom : DescriptorsFit g s (.write data off)) : ∃ d', fileWrite g s.fs s.nd data off =
        ((data.length : Int), { s.nd with size := (written s.file data off).size },
          { s.fs with disk := d' }) ∧
      FileIs g d' s.nd.feLba (written s.file data off) ∧ Volume g d' s.nd.feLba := by
  simp only [DescriptorsFit] at hroom
  unfold written at henough hroom ⊢
  by_cases hzero : data.length = 0
  · rw [if_pos hzero, ← h.size]
    refine ⟨s.fs.disk, ?_, h.file, h.volume⟩
    unfold fileWrite
    rw [if_pos hzero, hzero]
    rfl
  rw [if_neg hzero] at henough hroom ⊢
  obtain ⟨d', hw, hfile, hchange⟩ := (fileWrite_spec hg h.memory h.file h.volume rfl
    (Nat.pos_of_ne_zero hzero) hstop rfl henough rfl).1 hroom
  exact ⟨d', hw, hfile, hchange.volume hg h.file h.volume⟩

theorem Holds.isByteArray (hg : Sound g) (h : Holds g s) : IsByteArray g s := by
  refine ⟨h.size, fun len off => ?_, fun data off hstop henough hroom => ?_,
    fun size hsmall henough hroom => ?_⟩
  · rw [fileRead, readRange_spec hg h.memory h.file]
  · obtain ⟨_, hw, -⟩ := h.write hg hstop henough hroom
    rw [hw]
  · obtain ⟨_, ht, -⟩ := truncate_spec hg h.memory h.file h.volume hsmall henough hroom
    rw [ht]

theorem Holds.step (hg : Sound g) {op : FileOp} (h : Holds g s) (hroom : DescriptorsFit g s op)
    (hstep : FileStep g s op s') : Holds g s' := by
  cases hstep with
  | read =>
    rw [fileRead, readRange_spec hg h.memory h.file]
    exact h
  | write hstop henough =>
    obtain ⟨d', hw, hfile, hvol⟩ := h.write hg hstop henough hroom
    rw [hw]
    exact ⟨h.memory, hvol, rfl, hfile⟩
  | truncate hsmall henough =>
    obtain ⟨d', ht, hfile, hchange⟩ :=
      truncate_spec hg h.memory h.file h.volume hsmall henough hroom
    rw [ht]
    exact ⟨h.memory, hchange.volume hg h.file h.volume, rfl, hfile⟩

/-- If the descriptors always fit into the entry, the file is an array of bytes. -/
theorem udf_file_is_byte_array (g : Geometry) (hg : Sound g) (s : OpenFile)
    (h : ((fileSystem g).restrict (DescriptorsFit g)).Reachable s) : IsByteArray g s := by
  have hholds : Holds g s := by
    refine @System.Reachable.induct _ _ _ (Holds g) ?_ ?_ _ h
    · intro s hinit
      exact hinit.holds hg
    · intro s op s' _ hs ⟨hroom, hstep⟩
      exact hs.step hg hroom hstep
  exact hholds.isByteArray hg

end

/-! ## Section 5: A fragmented volume -/

/-- 96 blocks from sector 2 on; the bitmap is in sector 1. -/
def smallGeometry : Geometry where
  blockSize    := 512
  partStart    := 2
  bitmapLba    := 1
  bitmapNbits  := 96
  bitmapNbytes := 12
  descVer      := 2
  tagSerial    := 1

/-- Every other block is free: 0, 2, 4 and so on. -/
def fragmentedBitmap : Bytes := fun i => if 24 ≤ i ∧ i < 36 then 0x55 else 0

/-- A file entry without extended attributes. -/
def plainFe : Bytes := fun i => if i = 0 then 5 else if i = 1 then 1 else 0

/-- A new file in block 1. -/
def fragmentedFile : OpenFile where
  fs   := ⟨fun l => if l = 1 then fragmentedBitmap else createFe smallGeometry plainFe 1, []⟩
  nd   := ⟨3, 0⟩
  file := .empty

theorem smallGeometry_sound : Sound smallGeometry := by
  refine ⟨?_, ?_, ?_, ?_, ?_, ?_⟩ <;> decide

theorem plainFe_fits : HeaderFits smallGeometry plainFe := by
  unfold HeaderFits
  decide +kernel

theorem isFree_fragmented : ∀ b < 96,
    isFree smallGeometry fragmentedFile.fs.disk b = decide (b % 2 = 0) := by
  decide +kernel

theorem not_inBitmap_lba {b : Nat} (hb : b < 96) :
    ¬ InBitmap smallGeometry (lba smallGeometry b) := by
  have hlba : lba smallGeometry b = 2 + b := smallGeometry_sound.lba_eq hb
  have hend : smallGeometry.bitmapLba + bitmapSectors smallGeometry = 2 := by decide
  rintro ⟨-, hlt⟩
  omega

theorem fragmentedFile_created : Created smallGeometry fragmentedFile := by
  refine ⟨rfl, ⟨not_inBitmap_lba (b := 1) (by decide), fun b hb hfree => ?_⟩,
    ⟨plainFe, 1, plainFe_fits, rfl, rfl⟩, rfl⟩
  have hb' : b < 96 := hb
  refine ⟨?_, not_inBitmap_lba hb'⟩
  rw [isFree_fragmented b hb', decide_eq_true_iff] at hfree
  have hlba : lba smallGeometry b = 2 + b := smallGeometry_sound.lba_eq hb'
  have hnd : fragmentedFile.nd.feLba = 3 := rfl
  omega

/-- It lists no blocks, and has room for 42 descriptors. -/
theorem fragmentedFile_fe : ownBlocks smallGeometry fragmentedFile.fe = [] ∧
    inlineCap smallGeometry fragmentedFile.fe = 336 := by
  have hfe : fragmentedFile.fe = createFe smallGeometry plainFe 1 := rfl
  obtain ⟨hsame, htype, -⟩ := createFe_spec smallGeometry_sound plainFe_fits hfe
  have hcap : inlineCap smallGeometry plainFe = 336 := by decide +kernel
  refine ⟨?_, hsame.cap.trans hcap⟩
  rw [ownBlocks, if_neg]
  decide

theorem freeList_fragmented : freeList smallGeometry fragmentedFile.fs.disk =
    (List.range 96).filter fun b => b % 2 = 0 :=
  freeList_congr isFree_fragmented

/-- The first blocks that a write takes. -/
theorem grownBlocks_fragmented (n : Nat) :
    grownBlocks smallGeometry fragmentedFile.fs.disk fragmentedFile.fe n =
      ((List.range 96).filter fun b => b % 2 = 0).take n := by
  rfl

/-- The file after a write. -/
def fragmentedWritten (data : List UInt8) (off : Nat) : OpenFile where
  fs   := (fileWrite smallGeometry fragmentedFile.fs fragmentedFile.nd data off).2.2
  nd   := (fileWrite smallGeometry fragmentedFile.fs fragmentedFile.nd data off).2.1
  file := written .empty data off

/-- A write of two blocks, the first of them a gap. -/
theorem two_descriptors_fit :
    ((fileSystem smallGeometry).restrict (DescriptorsFit smallGeometry)).Reachable
      (fragmentedWritten [7] 1000) ∧
    (fileRead smallGeometry (fragmentedWritten [7] 1000).fs
      (fragmentedWritten [7] 1000).nd 5 998).1 = some [0, 0, 7] := by
  have hroom : DescriptorsFit smallGeometry fragmentedFile (.write [7] 1000) := by
    intro _
    decide +kernel
  have henough : Enough smallGeometry fragmentedFile.fs.disk fragmentedFile.fe
      (written fragmentedFile.file [7] 1000).size := by
    intro _
    decide +kernel
  have hreach : ((fileSystem smallGeometry).restrict (DescriptorsFit smallGeometry)).Reachable
      (fragmentedWritten [7] 1000) :=
    .step (.write [7] 1000) (.init fragmentedFile_created)
      ⟨hroom, FileStep.write (by decide) henough⟩
  exact ⟨hreach, ((udf_file_is_byte_array _ smallGeometry_sound _ hreach).read 5 998).trans
    (by decide)⟩

/-- A write of 43 blocks to the new file fails, although 48 blocks are free. -/
theorem fragmented_write_fails :
    Sound smallGeometry ∧ ∃ data, (fileSystem smallGeometry).Reachable (fragmentedWritten data 0) ∧
      (fileWrite smallGeometry fragmentedFile.fs fragmentedFile.nd data 0).1 = -efbig ∧
      ¬ IsByteArray smallGeometry (fragmentedWritten data 0) := by
  have hlen : (replicate 22016 (7 : UInt8)).length = 22016 := length_replicate
  generalize replicate 22016 (7 : UInt8) = data at hlen
  have hwritten : written .empty data 0 = ByteFile.empty.write 0 data := if_neg (by omega)
  have hsize : (ByteFile.empty.write 0 data).size = 22016 := by
    simp only [ByteFile.write, ByteFile.empty]
    omega
  have hstop : 0 + data.length ≤ maxSize := by
    rw [hlen]
    decide
  have henough : Enough smallGeometry fragmentedFile.fs.disk fragmentedFile.fe
      (ByteFile.empty.write 0 data).size := by
    intro _
    rw [fragmentedFile_fe.1, freeList_fragmented, hsize]
    decide +kernel
  have hroom : ¬ HasRoom smallGeometry fragmentedFile.fe
      (grownBlocks smallGeometry fragmentedFile.fs.disk fragmentedFile.fe
        (blockCount 512 (ByteFile.empty.write 0 data).size))
        (ByteFile.empty.write 0 data).size := by
    rw [HasRoom, grownBlocks_fragmented, fragmentedFile_fe.2, hsize]
    decide +kernel
  have hholds := fragmentedFile_created.holds smallGeometry_sound
  obtain ⟨d', hfail⟩ := (fileWrite_spec smallGeometry_sound hholds.memory hholds.file
    hholds.volume rfl (by omega) hstop rfl henough rfl).2 hroom
  refine ⟨smallGeometry_sound, data, ?_, by rw [hfail], fun harray => ?_⟩
  · refine .step (.write data 0) (.init fragmentedFile_created) (FileStep.write hstop ?_)
    rw [show written fragmentedFile.file data 0 = _ from hwritten]
    exact henough
  have hbad := harray.size
  rw [fragmentedWritten, hfail] at hbad
  simp only [hwritten, hsize] at hbad
  cases hbad

end Cervus.Udf
