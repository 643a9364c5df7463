import Cervus.Fs.UdfSpace

/-! # UDF: what a file entry says after it was written, and reading by it

    Writing an entry changes bytes at fixed places, and the area behind its header. What the
    header says about the kind of entry and the extended attributes stays (`SameHeader`), so the
    area stays where it is. -/

namespace Cervus.Udf

open Function

/-! ## Section 1: Headers -/

/-- Where `l_ea` is; `l_ad` comes after it, and then the header ends. -/
def lEaOff (fe : Bytes) : Nat := if isEfe fe then 208 else 168

/-- The two entries have the same header, as far as the place of the area goes. -/
structure SameHeader (fe fe' : Bytes) : Prop where
  efe : isEfe fe' = isEfe fe
  ea  : lEa fe' = lEa fe

/-- The header and the extended attributes fit into the block. -/
def HeaderFits (g : Geometry) (fe : Bytes) : Prop := headerLen fe + lEa fe ≤ g.blockSize

section

variable {g : Geometry} {fe fe' fe'' d : Bytes} {i size tagId crcLen tagLoc : Nat}

theorem lEa_eq (fe : Bytes) : lEa fe = getLe 4 fe (lEaOff fe) := rfl

theorem lAd_eq (fe : Bytes) : lAd fe = getLe 4 fe (lEaOff fe + 4) := by
  unfold lAd lEaOff
  split <;> rfl

theorem headerLen_eq (fe : Bytes) : headerLen fe = lEaOff fe + 8 := by
  unfold headerLen lEaOff
  split <;> rfl

theorem lEaOff_ge (fe : Bytes) : 168 ≤ lEaOff fe := by
  unfold lEaOff
  split <;> omega

section

variable (h : SameHeader fe fe')
include h

theorem SameHeader.trans (h' : SameHeader fe' fe'') :
    SameHeader fe fe'' := ⟨h'.efe.trans h.efe, h'.ea.trans h.ea⟩

theorem SameHeader.off : lEaOff fe' = lEaOff fe := by
  unfold lEaOff
  rw [h.efe]

theorem SameHeader.len : headerLen fe' = headerLen fe := by
  unfold headerLen
  rw [h.efe]

theorem SameHeader.area : adArea fe' = adArea fe := by
  unfold adArea
  rw [h.len, h.ea]

theorem SameHeader.cap : inlineCap g fe' = inlineCap g fe := by
  unfold inlineCap
  rw [h.area]

theorem SameHeader.fits (hfits : HeaderFits g fe) : HeaderFits g fe' := by
  unfold HeaderFits
  rw [h.len, h.ea]
  exact hfits

end

/-- The bytes that matter: those of the tag's number and of `l_ea`. -/
theorem SameHeader.of_bytes
    (h : ∀ i, i < 2 ∨ (lEaOff fe ≤ i ∧ i < lEaOff fe + 4) → fe' i = fe i) : SameHeader fe fe' := by
  have hefe : isEfe fe' = isEfe fe := by
    unfold isEfe
    rw [getLe_congr fun i _ hi => h i (.inl (by omega))]
  refine ⟨hefe, ?_⟩
  have hoff : lEaOff fe' = lEaOff fe := by
    unfold lEaOff
    rw [hefe]
  rw [lEa_eq, lEa_eq, hoff]
  exact getLe_congr fun i hlow hhigh => h i (.inr ⟨hlow, hhigh⟩)

theorem SameHeader.of_low (h : ∀ i, i < 2 ∨ 168 ≤ i → fe' i = fe i) : SameHeader fe fe' := by
  have hge := lEaOff_ge fe
  exact .of_bytes fun i hi => h i (by omega)

section

variable (hg : Sound g) (h : HeaderFits g fe)
include hg h

theorem HeaderFits.area_eq : adArea fe = headerLen fe + lEa fe := by
  have hsmall := hg.small
  unfold HeaderFits at h
  exact u32_of_lt (by omega)

theorem HeaderFits.cap_eq : inlineCap g fe = g.blockSize - adArea fe ∧ adArea fe ≤ g.blockSize := by
  have hsmall := hg.small
  have harea := h.area_eq hg
  unfold HeaderFits at h
  have hle : adArea fe ≤ g.blockSize := by omega
  exact ⟨sub32_of_le hsmall hle, hle⟩

theorem HeaderFits.header_le : 176 ≤ headerLen fe ∧ headerLen fe ≤ adArea fe := by
  have hge := lEaOff_ge fe
  rw [h.area_eq hg, headerLen_eq]
  omega

end

/-! ## Section 2: Writing to an entry -/

theorem finalizeTag_of_ne {off : Nat}
    (h : i < off ∨ off + 16 ≤ i) : finalizeTag g d off tagId crcLen tagLoc i = d i := by
  simp only [finalizeTag]
  rw [update_of_ne (by omega), putLe_of_ne (by omega), putLe_of_ne (by omega),
    putLe_of_ne (by omega), putLe_of_ne (by omega), update_of_ne (by omega),
    update_of_ne (by omega), putLe_of_ne (by omega), putLe_of_ne (by omega)]

theorem getLe_finalizeTag {off : Nat} (htag : tagId < 2 ^ 16) :
    getLe 2 (finalizeTag g d off tagId crcLen tagLoc) off = tagId := by
  have hbytes : ∀ i, off ≤ i → i < off + 2 →
      finalizeTag g d off tagId crcLen tagLoc i = putLe 2 d off tagId i := by
    intro i hlow hhigh
    simp only [finalizeTag]
    rw [update_of_ne (by omega), putLe_of_ne (by omega), putLe_of_ne (by omega),
      putLe_of_ne (by omega), putLe_of_ne (by omega), update_of_ne (by omega),
      update_of_ne (by omega), putLe_of_ne (by omega)]
  rw [getLe_congr hbytes, getLe_putLe, Nat.mod_eq_of_lt htag]

theorem sealFe_of_ge {feLba used : Nat} (h : 16 ≤ i) : sealFe g fe feLba used i = fe i :=
  finalizeTag_of_ne (.inr (by omega))

theorem isEfe_seal {x y : Nat} :
    isEfe (finalizeTag g fe 0 (if isEfe fe then tagEfe else tagFe) x y) = isEfe fe := by
  unfold isEfe
  rw [getLe_finalizeTag (by split <;> decide)]
  by_cases h : getLe 2 fe 0 = tagEfe
  · simp [h]
  · simp only [h, decide_false, Bool.false_eq_true, if_false]
    decide

theorem sameHeader_seal {x y : Nat} :
    SameHeader fe (finalizeTag g fe 0 (if isEfe fe then tagEfe else tagFe) x y) := by
  refine ⟨isEfe_seal, ?_⟩
  have hge := lEaOff_ge fe
  have hoff : lEaOff (finalizeTag g fe 0 (if isEfe fe then tagEfe else tagFe) x y) = lEaOff fe := by
    unfold lEaOff
    rw [isEfe_seal]
  rw [lEa_eq, lEa_eq, hoff]
  exact getLe_congr fun i hlow _ => finalizeTag_of_ne (.inr (by omega))

theorem clearArea_of_lt (h : i < adArea fe) : clearArea g fe i = fe i :=
  if_neg fun hin => absurd hin.1 (Nat.not_le.mpr h)

theorem sameHeader_clearArea (hg : Sound g) (h : HeaderFits g fe) :
    SameHeader fe (clearArea g fe) := by
  obtain ⟨-, hle⟩ := h.header_le hg
  have hlen := headerLen_eq fe
  exact .of_bytes fun i hi => clearArea_of_lt (by omega)

theorem setAdType_of_ne {type : UInt8} (h : i ≠ 34) : setAdType fe type i = fe i :=
  update_of_ne h _ _

theorem sameHeader_setAdType (type : UInt8) : SameHeader fe (setAdType fe type) := by
  have hge := lEaOff_ge fe
  exact .of_bytes fun i hi => setAdType_of_ne (by omega)

theorem adType_setAdType (fe : Bytes) (type : UInt8) :
    adType (setAdType fe type) = type.toNat % 8 := by
  unfold adType setAdType
  rw [update_self, UInt8.toNat_or, UInt8.toNat_and, show (8 : Nat) = 2 ^ 3 from rfl,
    Nat.or_mod_two_pow, Nat.and_mod_two_pow]
  simp

theorem adType_congr (h : fe' 34 = fe 34) : adType fe' = adType fe := by
  unfold adType
  rw [h]

theorem infoLen_congr (h : ∀ i, 56 ≤ i → i < 64 → fe' i = fe i) : infoLen fe' = infoLen fe :=
  getLe_congr h

/-- The lengths do not reach into the area, nor into the bytes before them. -/
theorem setLengths_of_ne {blocks len : Nat} (h : i < 56 ∨ headerLen fe ≤ i ∨
    (80 ≤ i ∧ i < lEaOff fe + 4)) : setLengths fe size blocks len i = fe i := by
  unfold setLengths
  unfold headerLen lEaOff at h
  split
  · next hefe =>
    rw [if_pos hefe, if_pos hefe] at h
    rw [putLe_of_ne (by omega), putLe_of_ne (by omega), putLe_of_ne (by omega),
      putLe_of_ne (by omega)]
  · next hefe =>
    rw [if_neg hefe, if_neg hefe] at h
    rw [putLe_of_ne (by omega), putLe_of_ne (by omega), putLe_of_ne (by omega)]

theorem sameHeader_setLengths (size blocks len : Nat) :
    SameHeader fe (setLengths fe size blocks len) := by
  have hge := lEaOff_ge fe
  exact .of_bytes fun i hi => setLengths_of_ne (by omega)

theorem infoLen_setLengths (hsize : size < 2 ^ 64) (blocks len : Nat) :
    infoLen (setLengths fe size blocks len) = size := by
  have hbytes : ∀ i, 56 ≤ i → i < 56 + 8 →
      setLengths fe size blocks len i = putLe 8 fe 56 size i := by
    intro i hlow hhigh
    unfold setLengths
    split
    · rw [putLe_of_ne (by omega), putLe_of_ne (by omega), putLe_of_ne (by omega)]
    · rw [putLe_of_ne (by omega), putLe_of_ne (by omega)]
  exact (getLe_congr hbytes).trans (getLe_putLe.trans (Nat.mod_eq_of_lt hsize))

theorem lAd_setLengths {len : Nat} (hlen : len < 2 ^ 32) (size blocks : Nat) :
    lAd (setLengths fe size blocks len) = len := by
  rw [lAd_eq, (sameHeader_setLengths size blocks len).off]
  unfold setLengths lEaOff
  split
  · rw [getLe_putLe, Nat.mod_eq_of_lt hlen]
  · rw [getLe_putLe, Nat.mod_eq_of_lt hlen]

theorem putAds_of_ne (ads : List (Nat × Nat)) :
    ∀ {fe : Bytes} {off i : Nat}, i < off ∨ off + 8 * ads.length ≤ i →
      putAds fe off ads i = fe i := by
  induction ads with
  | nil => exact fun _ => rfl
  | cons ad rest ih =>
    intro fe off i h
    rw [List.length_cons] at h
    rw [putAds, ih (by omega), putLe_of_ne (by omega), putLe_of_ne (by omega)]

/-- The descriptors are read back. -/
theorem getLe_putAds (ads : List (Nat × Nat)) :
    ∀ {fe : Bytes} {off k : Nat} {ad : Nat × Nat}, ads[k]? = some ad → ad.1 < 2 ^ 32 →
      ad.2 < 2 ^ 32 → getLe 4 (putAds fe off ads) (off + 8 * k) = ad.1 ∧
        getLe 4 (putAds fe off ads) (off + 8 * k + 4) = ad.2 := by
  induction ads with
  | nil =>
    intro fe off k ad h
    exact nomatch h
  | cons a rest ih =>
    intro fe off k ad h hraw hblock
    rw [putAds]
    cases k with
    | zero =>
      obtain rfl : a = ad := Option.some.inj h
      simp only [Nat.mul_zero, Nat.add_zero]
      constructor
      · rw [getLe_congr fun i _ hi => putAds_of_ne rest (.inl (by omega)),
          getLe_putLe_ne (by omega), getLe_putLe, Nat.mod_eq_of_lt hraw]
      · rw [getLe_congr fun i _ hi => putAds_of_ne rest (.inl (by omega)), getLe_putLe,
          Nat.mod_eq_of_lt hblock]
    | succ k =>
      have hrest := @ih (putLe 4 (putLe 4 fe off a.1) (off + 4) a.2) (off + 8) k ad h hraw hblock
      rw [show off + 8 * (k + 1) = off + 8 + 8 * k by omega]
      exact hrest

theorem sameHeader_putAds {off : Nat} (h : headerLen fe ≤ off) (ads : List (Nat × Nat)) :
    SameHeader fe (putAds fe off ads) := by
  have hlen := headerLen_eq fe
  exact .of_bytes fun i hi => putAds_of_ne ads (.inl (by omega))

theorem sameHeader_overwrite {off : Nat} (h : headerLen fe ≤ off) (data : List UInt8) :
    SameHeader fe (overwrite fe off data) := by
  have hlen := headerLen_eq fe
  exact .of_bytes fun i hi => overwrite_of_not_mem (.inl (by omega))

end

/-! ## Section 3: Entries -/

section

variable {g : Geometry} {fe fe' : Bytes}

/-- The fields of an entry whose lengths and tag are written last. -/
theorem sealed_spec {fe1 : Bytes} {size blocks len feLba used : Nat}
    (hfe1 : fe1 = setLengths fe size blocks len) (hfe' : fe' = sealFe g fe1 feLba used)
    (hsize : size < 2 ^ 64) (hlen : len < 2 ^ 32) : SameHeader fe fe' ∧ adType fe' = adType fe ∧
    infoLen fe' = size ∧ lAd fe' = len ∧ ∀ i, headerLen fe ≤ i → fe' i = fe i := by
  have hge := lEaOff_ge fe
  have hhead := headerLen_eq fe
  have hlengths : SameHeader fe fe1 := by
    rw [hfe1]
    exact sameHeader_setLengths _ _ _
  have hseal : SameHeader fe1 fe' := by
    rw [hfe']
    exact sameHeader_seal
  have hbytes : ∀ i, 16 ≤ i → fe' i = fe1 i := by
    intro i hi
    rw [hfe', sealFe_of_ge hi]
  refine ⟨hlengths.trans hseal, ?_, ?_, ?_, fun i hi => ?_⟩
  · rw [adType_congr (hbytes _ (by omega)), hfe1, adType_congr (setLengths_of_ne (by omega))]
  · rw [infoLen_congr fun i hlow _ => hbytes i (by omega), hfe1, infoLen_setLengths hsize]
  · rw [lAd_eq, hseal.off, hlengths.off, getLe_congr fun i hlow _ => hbytes i (by omega),
      ← hlengths.off, ← lAd_eq, hfe1, lAd_setLengths hlen]
  · rw [hbytes i (by omega), hfe1, setLengths_of_ne (by omega)]

section

variable (hg : Sound g) (h : HeaderFits g fe)
include hg h

/-- What an entry with its data inline says. -/
theorem inlineFe_spec {size feLba : Nat} {data : Bytes} (hsize : size ≤ inlineCap g fe)
    (hfe' : fe' = inlineFe g fe feLba data size) :
    SameHeader fe fe' ∧ adType fe' = 3 ∧ infoLen fe' = size ∧ lAd fe' = size ∧
    ∀ i < size, fe' (adArea fe + i) = data i := by
  obtain ⟨hcap, harea⟩ := h.cap_eq hg
  have hsmall := hg.small
  obtain ⟨hge, hheader⟩ := h.header_le hg
  obtain ⟨fe1, hfe1⟩ : ∃ x, x = setAdType (clearArea g fe) 3 := ⟨_, rfl⟩
  obtain ⟨fe2, hfe2⟩ : ∃ x, x = overwrite fe1 (adArea fe1) (slice data 0 size) := ⟨_, rfl⟩
  have h1 : SameHeader fe fe1 := by
    rw [hfe1]
    exact (sameHeader_clearArea hg h).trans (sameHeader_setAdType 3)
  have h2 : SameHeader fe1 fe2 := by
    rw [hfe2]
    exact sameHeader_overwrite (by rw [h1.len, h1.area]; exact hheader) _
  have htype : adType fe2 = 3 := by
    rw [hfe2, adType_congr (overwrite_of_not_mem (.inl (by rw [h1.area]; omega))), hfe1,
      adType_setAdType]
    rfl
  have heq : fe' = sealFe g (setLengths fe2 size 0 size) feLba size := by
    rw [hfe', hfe2, hfe1]
    rfl
  obtain ⟨h3, htype3, hinfo, hlad, hbytes⟩ := sealed_spec rfl heq (by omega) (by omega)
  refine ⟨(h1.trans h2).trans h3, htype3.trans htype, hinfo, hlad, fun i hi => ?_⟩
  rw [hbytes _ (by rw [(h1.trans h2).len]; omega), hfe2,
    overwrite_of_mem (by rw [h1.area]; omega) (by rw [h1.area, length_slice]; omega), h1.area,
    Nat.add_sub_cancel_left, getD_slice hi, Nat.zero_add]

/-- What an entry with descriptors says. -/
theorem extentsFe_spec {ads : List (Nat × Nat)} (hads : 8 * ads.length ≤ inlineCap g fe)
    (hraw : ∀ ad ∈ ads, ad.1 < 2 ^ 32 ∧ ad.2 < 2 ^ 32) {size feLba blocks : Nat}
    (hsize : size < 2 ^ 64) (hfe' : fe' = extentsFe g fe feLba size blocks ads) :
    SameHeader fe fe' ∧ adType fe' = 0 ∧
    infoLen fe' = size ∧ lAd fe' = 8 * ads.length ∧ shortAds fe' = ads := by
  obtain ⟨hcap, harea⟩ := h.cap_eq hg
  have hsmall := hg.small
  obtain ⟨hge, hheader⟩ := h.header_le hg
  obtain ⟨fe1, hfe1⟩ : ∃ x, x = clearArea g fe := ⟨_, rfl⟩
  obtain ⟨fe2, hfe2⟩ : ∃ x, x = putAds fe1 (adArea fe1) ads := ⟨_, rfl⟩
  obtain ⟨fe3, hfe3⟩ : ∃ x, x = setAdType fe2 0 := ⟨_, rfl⟩
  have h1 : SameHeader fe fe1 := by
    rw [hfe1]
    exact sameHeader_clearArea hg h
  have h2 : SameHeader fe1 fe2 := by
    rw [hfe2]
    exact sameHeader_putAds (by rw [h1.len, h1.area]; exact hheader) _
  have h13 : SameHeader fe fe3 := by
    rw [hfe3]
    exact (h1.trans h2).trans (sameHeader_setAdType 0)
  have htype : adType fe3 = 0 := by
    rw [hfe3, adType_setAdType]
    rfl
  have heq : fe' =
      sealFe g (setLengths fe3 size blocks (8 * ads.length)) feLba (8 * ads.length) := by
    rw [hfe', hfe3, hfe2, hfe1]
    rfl
  obtain ⟨h4, htype4, hinfo, hlad, hbytes⟩ := sealed_spec rfl heq hsize (by omega)
  refine ⟨h13.trans h4, htype4.trans htype, hinfo, hlad, ?_⟩
  -- the area is as `putAds` left it
  have harea' : ∀ i, adArea fe ≤ i → fe' i = fe2 i := by
    intro i hi
    rw [hbytes i (by rw [h13.len]; omega), hfe3, setAdType_of_ne (by omega)]
  rw [shortAds, hlad, Nat.mul_div_cancel_left _ (by decide : 0 < 8)]
  apply List.ext_getElem?
  intro k
  rw [List.getElem?_map]
  cases hk : ads[k]? with
  | none =>
    have hle := List.getElem?_eq_none_iff.mp hk
    rw [List.getElem?_eq_none (by rw [List.length_range]; exact hle)]
    rfl
  | some ad =>
    obtain ⟨hlt, -⟩ := List.getElem?_eq_some_iff.mp hk
    obtain ⟨hraw1, hraw2⟩ := hraw ad (List.mem_of_getElem? hk)
    obtain ⟨hfirst, hsecond⟩ := @getLe_putAds ads fe1 (adArea fe) k ad hk hraw1 hraw2
    rw [h1.area] at hfe2
    rw [← hfe2] at hfirst hsecond
    rw [List.getElem?_range hlt, Option.map_some, shortAd, (h13.trans h4).area,
      getLe_congr fun i hlow _ => harea' i (by omega),
      getLe_congr fun i hlow _ => harea' i (by omega), hfirst, hsecond]

/-- The file type stays. -/
theorem inlineFe_type (feLba : Nat) (data : Bytes) (size : Nat) :
    inlineFe g fe feLba data size 27 = fe 27 := by
  obtain ⟨hge, hheader⟩ := h.header_le hg
  have harea : adArea (setAdType (clearArea g fe) 3) = adArea fe :=
    ((sameHeader_clearArea hg h).trans (sameHeader_setAdType 3)).area
  simp only [inlineFe]
  rw [sealFe_of_ge (by omega), setLengths_of_ne (.inl (by omega)), harea,
    overwrite_of_not_mem (.inl (by omega)), setAdType_of_ne (by omega), clearArea_of_lt (by omega)]

theorem extentsFe_type (feLba size blocks : Nat) (ads : List (Nat × Nat)) :
    extentsFe g fe feLba size blocks ads 27 = fe 27 := by
  obtain ⟨hge, hheader⟩ := h.header_le hg
  have harea : adArea (clearArea g fe) = adArea fe := (sameHeader_clearArea hg h).area
  simp only [extentsFe]
  rw [sealFe_of_ge (by omega), setLengths_of_ne (.inl (by omega)), setAdType_of_ne (by omega),
    harea, putAds_of_ne _ (.inl (by omega)), clearArea_of_lt (by omega)]

/-- The entry of a new file. -/
theorem createFe_spec {block : Nat} (hfe' : fe' = createFe g fe block) :
    SameHeader fe fe' ∧ adType fe' = 3 ∧ infoLen fe' = 0 ∧ lAd fe' = 0 := by
  obtain ⟨hge, hheader⟩ := h.header_le hg
  have hhead := headerLen_eq fe
  obtain ⟨fe1, hfe1⟩ : ∃ x, x = putLe 2 (putLe 4 (update
      (setAdType (update fe 27 5) 3) 35 0) 44 0x7884) 48 1 := ⟨_, rfl⟩
  obtain ⟨fe2, hfe2⟩ : ∃ x, x = setLengths fe1 0 0 0 := ⟨_, rfl⟩
  obtain ⟨fe3, hfe3⟩ : ∃ x, x = clearArea g fe2 := ⟨_, rfl⟩
  obtain ⟨fe4, hfe4⟩ : ∃ x, x =
      putLe 8 fe3 (if isEfe fe3 then 200 else 160) (block + 16) := ⟨_, rfl⟩
  have h1 : SameHeader fe fe1 := by
    refine .of_low fun i hi => ?_
    rw [hfe1, putLe_of_ne (by omega), putLe_of_ne (by omega), update_of_ne (by omega),
      setAdType_of_ne (by omega), update_of_ne (by omega)]
  have h2 : SameHeader fe fe2 := by
    rw [hfe2]
    exact h1.trans (sameHeader_setLengths 0 0 0)
  have h3 : SameHeader fe fe3 := by
    rw [hfe3]
    exact h2.trans (sameHeader_clearArea hg (h2.fits h))
  have huid : (if isEfe fe3 then 200 else 160) + 8 = lEaOff fe3 ∧
      160 ≤ if isEfe fe3 then 200 else 160 := by
    unfold lEaOff
    split <;> omega
  have hoff := h3.off
  have h4 : SameHeader fe fe4 := by
    refine h3.trans (.of_bytes fun i hi => ?_)
    rw [hfe4, putLe_of_ne (by omega)]
  have heq : fe' = finalizeTag g fe4 0 (if isEfe fe4 then tagEfe else tagFe)
      ((adArea fe4 - 16) % 2 ^ 16) block := by
    rw [hfe', hfe4, hfe3, hfe2, hfe1]
    rfl
  have hseal : SameHeader fe4 fe' := by
    rw [heq]
    exact sameHeader_seal
  -- bytes between the tag and the unique id, and those of `l_ad`
  have hkeep : ∀ i, 16 ≤ i → i < 160 ∨ (lEaOff fe ≤ i ∧ i < lEaOff fe + 8) → fe' i = fe2 i := by
    intro i hlow hhigh
    rw [heq, finalizeTag_of_ne (.inr (by omega)), hfe4, putLe_of_ne (by omega), hfe3,
      clearArea_of_lt (by rw [h2.area]; omega)]
  refine ⟨h4.trans hseal, ?_, ?_, ?_⟩
  · have htype : fe1 34 = setAdType (update fe 27 5) 3 34 := by
      rw [hfe1, putLe_of_ne (by omega), putLe_of_ne (by omega), update_of_ne (by omega)]
    rw [adType_congr (hkeep 34 (by omega) (.inl (by omega))), hfe2,
      adType_congr (setLengths_of_ne (by omega)), adType_congr htype, adType_setAdType]
    rfl
  · rw [infoLen_congr fun i hlow hhigh => hkeep i (by omega) (.inl (by omega)), hfe2,
      infoLen_setLengths (by decide)]
  · rw [lAd_eq, (h4.trans hseal).off,
      getLe_congr fun i hlow hhigh => hkeep i (by omega) (.inr (by omega)), ← h2.off, ← lAd_eq,
      hfe2, lAd_setLengths (by decide)]

end

end

end Cervus.Udf
