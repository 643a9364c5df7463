import Mathlib.Data.List.Infix
import Mathlib.Data.List.TakeWhile

/-! # The client's handshake

    The model of `tls_handshake` in `tls/tls.c` from the record of the ServerHello on, with
    `parse_server_hello`, `hs_fill`, `hs_next`, `parse_certificate` and `verify_peer`. The hash
    of the transcript is taken to be the transcript itself. Parameters are the MAC that a
    Finished must carry (it depends on the hellos, which the keys are made from, and on the
    transcript), `x509_parse`, and the checks of a signature and of a chain. The records are
    those that the record layer opens, until it fails; what the client sends is left out.

    The loop takes messages in any order and number, and what follows the ServerHello in its
    record is hashed and never looked at. `peerMessages` are all the messages of the peer after
    the ServerHello, read from the records; a handshake that returns 0 is authenticated exactly
    when they are `InOrder`. -/

namespace Cervus.Tls

open List

/-! ## Section 1: Messages -/

/-- Types of handshake messages -/
def certificateType : UInt8 := 11

def certificateVerifyType : UInt8 := 15

def finishedType : UInt8 := 20

def word16 (p : List UInt8) : Nat := p[0]!.toNat * 256 + p[1]!.toNat

def word24 (p : List UInt8) : Nat := p[0]!.toNat * 65536 + p[1]!.toNat * 256 + p[2]!.toNat

/-- A handshake message as it is sent: type, length in three bytes, body. -/
abbrev Message := List UInt8

namespace Message

def type (m : Message) : UInt8 := m.headD 0

def body (m : Message) : List UInt8 := m.drop 4

/-- The scheme of a CertificateVerify, and the length it gives for its signature. -/
def scheme (m : Message) : Nat := word16 m.body

def sigLen (m : Message) : Nat := word16 (m.body.drop 2)

end Message

/-- The bytes of the message that begins here, by its length field. -/
def messageLength (p : List UInt8) : Nat := 4 + word24 (p.drop 1)

/-- A record: whether it is a handshake record, and its content. -/
abbrev Record := Bool × List UInt8

section

variable {Cert : Type} (x509Parse : List UInt8 → Option Cert)

/-- The loop of `parse_certificate`, over what is left of the list, when `n` certificates have
    been found. -/
def certificateLoop : Nat → List UInt8 → Nat → List Cert
  | 0, _, _ => []
  | fuel + 1, p, n =>
    if p.length < 3 ∨ 12 ≤ n then []
    else
      let clen := word24 p
      let p := p.drop 3
      if p.length < clen then []
      else
        let found := (x509Parse (p.take clen)).toList
        let p := p.drop clen
        if p.length < 2 then found
        else found ++ certificateLoop fuel (p.drop (2 + word16 p)) (n + found.length)

def parseCertificate (body : List UInt8) : List Cert :=
  if body.length < 4 then []
  else
    let p := body.drop (1 + body[0]!.toNat)
    if p.length < 3 then []
    else certificateLoop x509Parse body.length ((p.drop 3).take (word24 p)) 0

variable (finishedMac : List UInt8 → List UInt8 → List UInt8)

/-- What the loop gathers: the transcript, the certificates, and of the last
    CertificateVerify the transcript before it, the scheme and where its signature is. -/
structure Gathered (Cert : Type) where
  th       : List UInt8
  pos      : Nat := 0
  chain    : List Cert := []
  thCert   : List UInt8 := []
  cvScheme : Nat := 0
  cvSig    : Nat := 0
  cvSigLen : Nat := 0

/-- The body of the loop for any message but Finished. -/
def gather (g : Gathered Cert) (m : Message) : Gathered Cert :=
  let g := if m.type = certificateType then { g with chain := parseCertificate x509Parse m.body }
    else g
  let g :=
    if m.type = certificateVerifyType then
      if m.body.length ≥ 4 then
        { g with thCert := g.th, cvScheme := m.scheme, cvSig := g.pos + 8, cvSigLen := m.sigLen }
      else { g with thCert := g.th }
    else g
  { g with th := g.th ++ m, pos := g.pos + m.length }

variable (verifySig : Cert → Nat → List UInt8 → List UInt8 → Bool)
variable (verifyChain : List Cert → Bool) (beyond : List UInt8)

/-- Bytes that are whole messages. -/
def splitMessages : Nat → List UInt8 → Option (List Message)
  | _, [] => some []
  | 0, _ => none
  | fuel + 1, p =>
    if p.length < messageLength p then none
    else (splitMessages fuel (p.drop (messageLength p))).map (p.take (messageLength p) :: ·)

/-- The messages up to the first Finished. -/
def upToFinished : Nat → List UInt8 → Option (List Message)
  | 0, _ => none
  | fuel + 1, p =>
    let m := p.take (messageLength p)
    if p.length < messageLength p then none
    else if Message.type m = finishedType then some [m]
    else (upToFinished fuel (p.drop (messageLength p))).map (m :: ·)

/-- The handshake bytes of records, up to the first record of another type. -/
def handshakeBytes (recs : List Record) : List UInt8 := (recs.takeWhile Prod.fst).flatMap Prod.snd

/-- The messages after the ServerHello, up to the first Finished: those that follow it in its
    record, and those of the later records. -/
def peerMessages (recs : List Record) : Option (List Message) := do
  let first ← recs.head?
  let helloAndMore ← splitMessages first.2.length first.2
  let later := handshakeBytes recs.tail
  let ms ← upToFinished later.length later
  return helloAndMore.tail ++ ms

/-- EncryptedExtensions, perhaps CertificateRequest, Certificate, CertificateVerify and
    Finished, each once. -/
structure InOrder (recs : List Record) (front : List Message) (cert cv fin : Message) :
    Prop where
  messages        : peerMessages recs = some (front ++ [cert, cv, fin])
  front_type      : front.map Message.type = [8] ∨ front.map Message.type = [8, 13]
  cert_type       : cert.type = certificateType
  certVerify_type : cv.type = certificateVerifyType
  finished_type   : fin.type = finishedType

end

variable {recs recs' : List Record} {buf buf' p q : List UInt8} {pos n : Nat} {m : Message}
variable {Cert : Type} {x509Parse : List UInt8 → Option Cert}
variable {finishedMac : List UInt8 → List UInt8 → List UInt8}

/-! ## Section 5: Framing -/

/-- From `recs` the handshake records at the front went into the buffer. -/
def Received (recs recs' : List Record) (buf buf' : List UInt8) : Prop :=
  ∃ used, recs = used ++ recs' ∧ (∀ r ∈ used, r.1 = true) ∧ buf' = buf ++ used.flatMap Prod.snd

theorem Received.refl (recs : List Record) (buf : List UInt8) : Received recs recs buf buf :=
  ⟨[], rfl, by simp, by simp⟩

theorem Received.trans {recs'' : List Record} {buf'' : List UInt8}
    (h : Received recs recs' buf buf') (h' : Received recs' recs'' buf' buf'') :
    Received recs recs'' buf buf'' := by
  obtain ⟨used, rfl, hused, rfl⟩ := h
  obtain ⟨used', rfl, hused', rfl⟩ := h'
  refine ⟨used ++ used', by simp, fun r hr => ?_, by simp⟩
  exact (mem_append.1 hr).elim (hused r) (hused' r)

/-- What is received into an empty buffer are the first handshake bytes. -/
theorem Received.handshakeBytes (h : Received recs recs' [] buf) : buf <+: handshakeBytes recs := by
  obtain ⟨used, rfl, hused, rfl⟩ := h
  rw [Tls.handshakeBytes, takeWhile_append_of_pos hused, flatMap_append, nil_append]
  exact prefix_append ..

variable {verifySig : Cert → Nat → List UInt8 → List UInt8 → Bool}
variable {verifyChain : List Cert → Bool} {beyond clientHello : List UInt8}

/-- The first bytes of words of 32 bytes each -/
def bytesOf (len : Nat) (words : List Nat) : List UInt8 :=
  (words.flatMap fun w => (range 32).map fun i => UInt8.ofNat (w >>> (8 * (31 - i)))).take len

end Cervus.Tls
