-- SUMMARY: ElGamal keys, masks, ciphertexts and the three kinds of sigma-protocol responses with their verification equations.
import Sxp.Base.HashMap
import Sxp.Java.Lang

/-!
# Responses

The transcripts (mask, challenge, response) that private contract signatures are
made of. The fields of an object read from the network are never null here, except
`aBis`, which a Schnorr transcript leaves out: a null in any other field ends the
checks below with the same exception as a null `aBis`.
-/

namespace Sxp

/-- The public part of an `ElGamalKey`. Two keys are `equals` exactly if these fields are. -/
structure ElGamalKey where
  p : Int
  g : Int
  publicKey : Int
deriving Repr, DecidableEq

/-- An `ElGamalKey` whose private key is known. -/
structure ElGamalKeyPair extends ElGamalKey where
  privateKey : Int
deriving Repr, DecidableEq

structure Masks where
  a : Int
  aBis : Option Int
deriving Repr, DecidableEq

structure ResEncrypt where
  u : Int
  v : Int
  M : List UInt8
deriving Repr, DecidableEq

/-- The subclasses of `Responses`. -/
inductive ResponsesKind where
  | schnorr
  | ccd
  | cce
deriving Repr, DecidableEq

structure Responses where
  kind : ResponsesKind
  masks : Masks
  challenge : Int
  response : Int
deriving Repr, DecidableEq

/-! ## Masks -/

namespace Masks

/-- `getaBis()` where the result is dereferenced. -/
def getaBis (m : Masks) : Except JavaException Int :=
  match m.aBis with
  | some aBis => .ok aBis
  | none => .error .nullPointer

def hashCode (m : Masks) : BitVec 32 :=
  match m.aBis with
  | none => BitVec.ofInt 32 m.a
  | some aBis => BitVec.ofInt 32 m.a + BitVec.ofInt 32 aBis

end Masks

namespace Responses

/-! ## Equality and hash codes -/

/-- What a subclass adds to the hash code of `Responses`. -/
def hashOffset : ResponsesKind → BitVec 32
  | .schnorr => 1
  | .ccd => 2
  | .cce => 3

/-- The base class takes the response twice and leaves the challenge out. -/
def hashCode (r : Responses) : BitVec 32 :=
  r.masks.hashCode + BitVec.ofInt 32 r.response + BitVec.ofInt 32 r.response + hashOffset r.kind

/-- `r.equals(o)`. Only the CCD subclass accepts an object of another subclass. -/
def equals (r o : Responses) : Bool :=
  (match r.kind with
    | .schnorr => o.kind == .schnorr
    | .cce => o.kind == .cce
    | .ccd => true) &&
  (o.masks == r.masks && o.response == r.response && o.challenge == r.challenge)

/-- How a hash map compares the key it looks for with a key it holds. -/
instance : BEq Responses where
  beq r o := r.hashCode == o.hashCode && r.equals o

theorem equals_self (r : Responses) : r.equals r = true := by
  cases hk : r.kind <;> simp [equals, hk]

theorem beq_self (r : Responses) : (r == r) = true := by
  change (r.hashCode == r.hashCode && r.equals r) = true
  simp [equals_self]

/-- What `equals` compares. -/
theorem equals_iff {r o : Responses} : r.equals o = true ↔
    (r.kind = .ccd ∨ o.kind = r.kind) ∧ o.masks = r.masks ∧ o.response = r.response ∧
    o.challenge = r.challenge := by
  cases hk : r.kind <;> simp [equals, hk, and_assoc]

/-- The hash codes of the classes are different, so equal responses with equal hash codes are of one
class. -/
theorem beq_iff {r o : Responses} : (r == o) = true ↔ r = o := by
  constructor
  · intro h
    have h' : (r.hashCode == o.hashCode && r.equals o) = true := h
    rw [Bool.and_eq_true, beq_iff_eq, equals_iff] at h'
    obtain ⟨hcode, -, hmasks, hresponse, hchallenge⟩ := h'
    obtain ⟨kind, masks, challenge, response⟩ := r
    obtain ⟨kind', masks', challenge', response'⟩ := o
    obtain rfl : masks' = masks := hmasks
    obtain rfl : response' = response := hresponse
    obtain rfl : challenge' = challenge := hchallenge
    have hoffset : hashOffset kind = hashOffset kind' := by
      simpa only [hashCode, BitVec.add_right_inj] using hcode
    cases kind <;> cases kind' <;> first | rfl | exact absurd hoffset (by decide)
  · rintro rfl
    exact beq_self r

instance lawfulBEq : LawfulBEq Responses where
  eq_of_beq := beq_iff.mp
  rfl := beq_self _

/-! ## Verification -/

/-- `g ^ response = y ^ challenge * a` modulo `p`. -/
def schnorrEquation (r : Responses) (k : ElGamalKey) : Except JavaException Bool := do
  let gPowr ← BigInteger.modPow k.g r.response k.p
  let yPowc ← BigInteger.modPow k.publicKey r.challenge k.p
  let rhs ← BigInteger.mod (yPowc * r.masks.a) k.p
  return gPowr == rhs

/-- `v.divide(M) ^ challenge * aBis` modulo `p`. -/
def quotientPower (r : Responses) (k : ElGamalKey) (res : ResEncrypt) :
    Except JavaException Int := do
  let M ← BigInteger.ofBytes res.M
  let vdivM ← BigInteger.divide res.v M
  let vDivMPowc ← BigInteger.modPow vdivM r.challenge k.p
  let aBis ← r.masks.getaBis
  BigInteger.mod (vDivMPowc * aBis) k.p

/-- `ResponsesCCD.Verifies(tKeys, res)`. -/
def verifiesCCD (r : Responses) (tKeys : ElGamalKey) (res : ResEncrypt) :
    Except JavaException Bool := do
  if ← r.schnorrEquation tKeys then
    let uPowr ← BigInteger.modPow res.u r.response tKeys.p
    let rhs ← r.quotientPower tKeys res
    return uPowr == rhs
  else return false

/-- `ResponsesCCE.Verifies(tKeys, res)`. -/
def verifiesCCE (r : Responses) (tKeys : ElGamalKey) (res : ResEncrypt) :
    Except JavaException Bool := do
  let gPowr ← BigInteger.modPow tKeys.g r.response tKeys.p
  let uPowc ← BigInteger.modPow res.u r.challenge tKeys.p
  let uPowcMulta ← BigInteger.mod (uPowc * r.masks.a) tKeys.p
  if gPowr == uPowcMulta then
    let pubPowr ← BigInteger.modPow tKeys.publicKey r.response tKeys.p
    let rhs ← r.quotientPower tKeys res
    return pubPowr == rhs
  else return false

/-- `Verifies(tKeys, res)`, dispatched on the class of the response. -/
def verifies (r : Responses) (tKeys : ElGamalKey) (res : ResEncrypt) : Except JavaException Bool :=
  match r.kind with
  | .schnorr => r.schnorrEquation tKeys
  | .ccd => r.verifiesCCD tKeys res
  | .cce => r.verifiesCCE tKeys res

end Responses

end Sxp
