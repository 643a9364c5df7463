import Mathlib.Tactic.Common

/-! # Certificate paths

    The model of `x509/x509.c`: `parse_extensions` with the DER reader under it, and
    `x509_verify_chain`. A certificate is what `x509_parse` leaves of it; names are the
    encoded bytes. Whether a signature verifies (`x509_verify_sig`) and whether the leaf
    names the host (`x509_check_host`) are parameters. -/

namespace Cervus.X509

/-! ## Section 1: Extensions -/

abbrev Bytes := List UInt8

/-- `der_len`: the length and what follows it. -/
def derLen : Bytes → Option (Nat × Bytes)
  | [] => none
  | b :: p =>
    if b < 0x80 then some (b.toNat, p)
    else
      let n := (b &&& 0x7f).toNat
      if n = 0 ∨ n > 4 ∨ p.length < n then none
      else some ((p.take n).foldl (fun v x => v * 256 + x.toNat) 0, p.drop n)

/-- `der_tlv`: tag, value and what follows. -/
def derTlv : Bytes → Option (UInt8 × Bytes × Bytes)
  | [] => none
  | tag :: p => do
    let (l, p) ← derLen p
    guard (l ≤ p.length)
    return (tag, p.take l, p.drop l)

def oidBasic : Bytes := [0x55, 0x1d, 0x13]

/-- The body of the loop of `parse_extensions`: one extension, which sets `is_ca` if it is
    basicConstraints and starts with a true flag. A critical flag is skipped. -/
def extensionIsCa (x : Bytes) : Option Unit := do
  let (t, oid, ep) ← derTlv x
  guard (t = 0x06)
  let (vt, val, ep) ← derTlv ep
  let (vt, val, _) ← if vt = 0x01 then derTlv ep else some (vt, val, ep)
  guard (vt = 0x04 ∧ oid = oidBasic)
  let (bt, bv, _) ← derTlv val
  guard (bt = 0x30)
  let (it, iv, _) ← derTlv bv
  guard (it = 0x01 ∧ iv.length = 1 ∧ iv ≠ [0])

/-- The loop of `parse_extensions`; every turn consumes a byte at least. -/
def extensionsLoop : Nat → Bytes → Bool
  | 0, _ => false
  | fuel + 1, sp =>
    match derTlv sp with
    | some (t, x, rest) =>
      if t = 0x30 then (extensionIsCa x).isSome || extensionsLoop fuel rest else false
    | none => false

/-- `parse_extensions`, as far as `is_ca` goes. -/
def parseExtensions (v : Bytes) : Bool :=
  match derTlv v with
  | some (t, sp, _) => if t = 0x30 then extensionsLoop sp.length sp else false
  | none => false

/-! ## Section 2: Chains -/

/-- The fields of `x509_cert` in use; `key` stands for the public key and `sig` for the
    signature with what it is over. -/
structure Cert where
  issuer     : Bytes
  subject    : Bytes
  notBefore  : Int
  notAfter   : Int
  key        : Bytes
  sig        : Bytes
  extensions : Bytes
  deriving DecidableEq

def Cert.isCa (c : Cert) : Bool := parseExtensions c.extensions

variable (sigOk : Cert → Cert → Bool)

/-- The validity check, made only with a clock. -/
def expired (now : Int) (c : Cert) : Bool := now ≠ 0 ∧ (now < c.notBefore ∨ now > c.notAfter)

/-- The test of one trusted root in the inner loop. -/
def trusts (now : Int) (c root : Cert) : Bool :=
  root.subject = c.issuer ∧ !expired now root ∧ sigOk root c

/-- The loop of `x509_verify_chain` from certificate `i` on. -/
def verifyFrom (store : List Cert) (now : Int) : Nat → List Cert → Except String Unit
  | _, [] => .error "no trusted root found for chain"
  | i, c :: rest =>
    if expired now c then .error s!"certificate {i} expired or not yet valid"
    else if store.any (trusts sigOk now c) then .ok ()
    else match rest with
      | [] => .error "no trusted root found for chain"
      | d :: _ =>
        if c.issuer ≠ d.subject then .error s!"broken chain link at {i}"
        else if !sigOk d c then .error s!"bad signature on certificate {i}"
        else verifyFrom store now (i + 1) rest

/-- `x509_verify_chain`; without a host the name is not checked. -/
def x509VerifyChain (hostOk : Option (Cert → Bool)) (chain store : List Cert) (now : Int) :
    Except String Unit :=
  match chain with
  | [] => .error "empty chain"
  | leaf :: _ =>
    if hostOk.any (fun ok => !ok leaf) then .error "hostname does not match certificate"
    else verifyFrom sigOk store now 0 chain

/-! ## Section 3: Paths -/

/-- `d` issued `c`: the names match and the signature verifies under `d`'s key. -/
def Issued (d c : Cert) : Prop := d.subject = c.issuer ∧ sigOk d c = true

def ValidAt (now : Int) (c : Cert) : Prop := c.notBefore ≤ now ∧ now ≤ c.notAfter

/-- A path to a trusted root, through presented certificates, in which every certificate
    is in its validity period and every issuer is a CA. -/
inductive Path (presented store : List Cert) (now : Int) : Cert → Prop where
  | root {c r} : r ∈ store → Issued sigOk r c → ValidAt now c → ValidAt now r →
      r.isCa = true → Path presented store now c
  | via {c d} : d ∈ presented → Issued sigOk d c → ValidAt now c → d.isCa = true →
      Path presented store now d → Path presented store now c

variable {sigOk} {presented store : List Cert} {now : Int} {c : Cert}

theorem validAt_of_not_expired (hnow : now ≠ 0) (h : ¬ expired now c = true) :
    ValidAt now c := by
  simp only [expired, hnow, ne_eq, not_false_eq_true, true_and, decide_eq_true_eq] at h
  simp only [ValidAt]
  omega

/-! ### The certificates that are used -/

variable (sigOk store now) in
/-- The presented certificates that the loop comes to: up to the first one for which a root of
    the store is trusted. -/
def reached : List Cert → List Cert
  | [] => []
  | c :: rest => if store.any (trusts sigOk now c) then [c] else c :: reached rest

variable (sigOk store now) in
/-- The certificates are a path, each issued by the next and the last by a root. -/
def PathAlong : List Cert → Prop
  | [] => False
  | [c] => ValidAt now c ∧ ∃ r ∈ store, Issued sigOk r c ∧ ValidAt now r ∧ r.isCa = true
  | c :: d :: rest =>
    ValidAt now c ∧ Issued sigOk d c ∧ d.isCa = true ∧ PathAlong (d :: rest)

variable (sigOk store now) in
/-- What the loop does not check of the certificates it comes to: the issuers among them and a
    root for the last one are CAs, and without a clock all of them are valid at time 0. -/
def IssuersAreCas : List Cert → Prop
  | [] => False
  | [c] => (now = 0 → ValidAt 0 c) ∧
    ∃ r ∈ store, trusts sigOk now c r = true ∧ (now = 0 → ValidAt 0 r) ∧ r.isCa = true
  | c :: d :: rest => (now = 0 → ValidAt 0 c) ∧ d.isCa = true ∧ IssuersAreCas (d :: rest)

theorem PathAlong.path {rest : List Cert} (hsub : ∀ d ∈ rest, d ∈ presented)
    (h : PathAlong sigOk store now (c :: rest)) : Path sigOk presented store now c := by
  induction rest generalizing c with
  | nil =>
    obtain ⟨hvalid, r, hr, hissued, hroot, hca⟩ := h
    exact .root hr hissued hvalid hroot hca
  | cons d rest ih =>
    obtain ⟨hvalid, hissued, hca, hrest⟩ := h
    exact .via (hsub d (.head _)) hissued hvalid hca (ih (fun e he => hsub e (.tail _ he)) hrest)

/-- A certificate that passed the check is valid, if there is a clock or it is valid at 0. -/
theorem validAt_iff (h : ¬ expired now c = true) : ValidAt now c ↔ (now = 0 → ValidAt 0 c) := by
  by_cases hnow : now = 0
  · simp [hnow]
  · exact iff_of_true (validAt_of_not_expired hnow h) fun hzero => absurd hzero hnow

/-- A trusted root has issued the certificate, and passed the check. -/
theorem trusts_iff {r : Cert} : (trusts sigOk now c r = true ∧ (now = 0 → ValidAt 0 r)) ↔
    Issued sigOk r c ∧ ValidAt now r := by
  simp only [trusts, decide_eq_true_eq, Bool.not_eq_true']
  constructor
  · rintro ⟨⟨hname, hexp, hsig⟩, hvalid⟩
    exact ⟨⟨hname, hsig⟩, (validAt_iff (by simp [hexp])).mpr hvalid⟩
  · rintro ⟨⟨hname, hsig⟩, hvalid⟩
    have hexp : expired now r = false := by
      unfold ValidAt at hvalid
      simp only [expired, decide_eq_false_iff_not]
      omega
    exact ⟨⟨hname, hexp, hsig⟩, (validAt_iff (by simp [hexp])).mp hvalid⟩

theorem pathAlong_last (hexp : ¬ expired now c = true) :
    PathAlong sigOk store now [c] ↔ IssuersAreCas sigOk store now [c] := by
  unfold PathAlong IssuersAreCas
  rw [validAt_iff hexp]
  simp only [← and_assoc, trusts_iff]

variable (sigOk store now) in
theorem reached_head (c : Cert) (rest : List Cert) :
    ∃ used, reached sigOk store now (c :: rest) = c :: used := by
  unfold reached
  split <;> exact ⟨_, rfl⟩

/-- Each turn of the loop that goes on adds one issuer to the path. -/
theorem verifyFrom_path {rest : List Cert} {i : Nat}
    (h : verifyFrom sigOk store now i (c :: rest) = .ok ()) :
    PathAlong sigOk store now (reached sigOk store now (c :: rest)) ↔
      IssuersAreCas sigOk store now (reached sigOk store now (c :: rest)) := by
  induction rest generalizing c i with
  | nil =>
    rw [verifyFrom] at h
    split_ifs at h with hexp hany
    rw [reached, if_pos hany]
    exact pathAlong_last hexp
  | cons d rest ih =>
    rw [verifyFrom] at h
    split_ifs at h with hexp hany hname hsig
    · rw [reached, if_pos hany]
      exact pathAlong_last hexp
    · have hissued : Issued sigOk d c := ⟨(not_not.1 hname).symm, by simpa using hsig⟩
      have hnext := ih h
      rw [reached, if_neg hany]
      obtain ⟨used, hused⟩ := reached_head sigOk store now d rest
      rw [hused] at hnext ⊢
      rw [PathAlong, IssuersAreCas, validAt_iff hexp, hnext]
      exact ⟨fun hp => ⟨hp.1, hp.2.2⟩, fun hp => ⟨hp.1, hissued, hp.2⟩⟩

variable (sigOk store now) in
theorem reached_subset (chain : List Cert) : ∀ d ∈ reached sigOk store now chain, d ∈ chain := by
  induction chain with
  | nil => exact fun d hd => hd
  | cons c rest ih =>
    intro d hd
    unfold reached at hd
    split at hd
    · rw [List.mem_singleton.mp hd]
      exact .head _
    · obtain rfl | hd := List.mem_cons.mp hd
      · exact .head _
      · exact .tail _ (ih d hd)

/-- **Accepted chains.** The certificates that an accepted chain was judged by are a path to a
    trusted root exactly when the issuers among them are CAs (and, without a clock, all are valid
    at time 0): these are the things that are not checked. -/
theorem accepted_chain_path (hostOk : Option (Cert → Bool)) (leaf : Cert) (rest : List Cert)
    (h : x509VerifyChain sigOk hostOk (leaf :: rest) store now = .ok ()) :
    (PathAlong sigOk store now (reached sigOk store now (leaf :: rest)) ↔
      IssuersAreCas sigOk store now (reached sigOk store now (leaf :: rest))) ∧
    (IssuersAreCas sigOk store now (reached sigOk store now (leaf :: rest)) →
      Path sigOk (leaf :: rest) store now leaf) := by
  rw [x509VerifyChain] at h
  split_ifs at h with hhost
  have hiff := verifyFrom_path h
  refine ⟨hiff, fun hcas => ?_⟩
  have hpath := hiff.mpr hcas
  obtain ⟨used, hused⟩ := reached_head sigOk store now leaf rest
  have hsub := reached_subset sigOk store now (leaf :: rest)
  rw [hused] at hpath hsub
  exact hpath.path fun d hd => hsub d (.tail _ hd)

/-! ## Section 4: A leaf as an issuer -/

/-- Signatures that name the key they verify under. -/
def namesKey (signer c : Cert) : Bool := signer.key = c.sig

/-- basicConstraints, critical, with the CA flag. -/
def caExtension : Bytes :=
  [0x30, 0x11, 0x30, 0x0f, 0x06, 3, 0x55, 0x1d, 0x13, 0x01, 1, 0xff, 0x04, 5, 0x30, 3,
    0x01, 1, 0xff]

def rootCert : Cert := ⟨[1], [1], 0, 100, [1], [1], caExtension⟩

/-- An end certificate issued by the root. -/
def leafCert : Cert := ⟨[1], [2], 0, 100, [2], [1], []⟩

/-- A certificate signed with the key of `leafCert`. -/
def forgedCert : Cert := ⟨[2], [3], 0, 100, [3], [2], []⟩

/-- A CA below the root, and an end certificate that it issued. -/
def middleCert : Cert := ⟨[1], [4], 0, 100, [4], [1], caExtension⟩

@[inherit_doc middleCert] def endCert : Cert := ⟨[4], [5], 0, 100, [5], [4], []⟩

/-- The loop stops at the root, before it comes to the forged certificate. -/
theorem accepted_end_path :
    x509VerifyChain namesKey none [endCert, middleCert, forgedCert] [rootCert] 50 = .ok () ∧
      reached namesKey [rootCert] 50 [endCert, middleCert, forgedCert] = [endCert, middleCert] ∧
      Path namesKey [endCert, middleCert, forgedCert] [rootCert] 50 endCert := by
  have hok : x509VerifyChain namesKey none [endCert, middleCert, forgedCert] [rootCert] 50 =
      .ok () := by decide
  have hreached : reached namesKey [rootCert] 50 [endCert, middleCert, forgedCert] =
      [endCert, middleCert] := by decide
  refine ⟨hok, hreached, (accepted_chain_path none endCert [middleCert, forgedCert] hok).2 ?_⟩
  rw [hreached]
  have hclock : ∀ c, (50 : Int) = 0 → ValidAt 0 c := fun c h => absurd h (by decide)
  exact ⟨hclock _, by decide, hclock _, rootCert, .head _, by decide, hclock _, by decide⟩

/-- The end certificate is accepted as an issuer, and no path justifies it. -/
theorem leaf_accepted_as_issuer :
    x509VerifyChain namesKey none [forgedCert, leafCert] [rootCert] 50 = .ok () ∧
    ¬ Path namesKey [forgedCert, leafCert] [rootCert] 50 forgedCert := by
  refine ⟨by decide, fun h => ?_⟩
  cases h with
  | root hr hi _ _ _ =>
    rw [List.mem_singleton.1 hr] at hi
    exact absurd hi.2 (by decide)
  | via hd hi _ hca _ =>
    rcases List.mem_cons.1 hd with rfl | hd
    · exact absurd hca (by decide)
    · rw [List.mem_singleton.1 hd] at hca
      exact absurd hca (by decide)

end Cervus.X509
