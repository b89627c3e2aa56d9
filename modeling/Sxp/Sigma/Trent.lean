-- SUMMARY: What Trent computes with his keys: the CCD response that turns a promise into a signature, and the checks on ciphertexts.
import Sxp.Sigma.Signature

/-!
# Trent

The long-lived data of the third party and its arithmetic. The random numbers of a
computation are arguments; the JSON tools are unspecified functions, of which the
code uses that the text `ABORT` is not a JSON array.
-/

namespace Sxp

/-- The JSON conversions used by the solver. An array that cannot be read is `null`, and
an element of an array may be. -/
structure JsonTools where
  toOrs : String → Option (List (Option Or))
  signaturesToJson : List SigmaSignature → String
  claimsToJson : List (HashMap JString String) → String
  dishonestToJson : HashMap JString (Option String × Option String) → String
  tokenToJson : List String → String
  toOrs_abort : toOrs "ABORT" = none

structure Trent where
  hash : String → Int
  keys : ElGamalKeyPair
  json : JsonTools

namespace Trent

variable (trent : Trent)

/-- `getKey`: the public part of the keys. -/
def getKey : ElGamalKey := trent.keys.toElGamalKey

/-! ## Responses -/

/-- `SendMasks`, with the random exponent `s` that is kept for `SendAnswer`. -/
def sendMasks (s : Nat) (res : ResEncrypt) : Except JavaException Masks := do
  let a ← BigInteger.modPow trent.keys.g s trent.keys.p
  let aBis ← BigInteger.modPow res.u s trent.keys.p
  return { a, aBis := some aBis }

/-- `SendChallenge`: the message goes in as the text of its array object, not of its content. -/
def sendChallenge (mask : Masks) (messageText : String) : Int :=
  trent.hash (messageText ++ BigInteger.text mask.a)

def sendAnswer (challenge : Int) (s : Nat) : Int := trent.keys.privateKey * challenge + s

def sendResponse (s : Nat) (messageText : String) (res : ResEncrypt) :
    Except JavaException Responses := do
  let mask ← trent.sendMasks s res
  let challenge := trent.sendChallenge mask messageText
  return { kind := .ccd, masks := mask, challenge, response := trent.sendAnswer challenge s }

/-! ## Ciphertexts -/

/-- `decryption`: `u ^ (p - 1 - x) * v` modulo `p`. -/
def decryption (res : ResEncrypt) : Except JavaException Int := do
  let power ← BigInteger.modPow res.u (trent.keys.p - 1 - trent.keys.privateKey) trent.keys.p
  BigInteger.mod (power * res.v) trent.keys.p

/-- The key of a clause's first response, and whether the clause's ciphertext is the
identification of that key. -/
def verifiesClause (a : And) : Except JavaException Bool := do
  let k ← Sender.identification (← a.keyOf (← a.firstResponse))
  let h ← trent.decryption a.resEncrypt
  return h == k

/-- `VerifiesRes`; the sender's key it is given plays no role. -/
def verifiesRes (o : Or) (_senPubK : Int) : Except JavaException Bool :=
  o.ands.foldlM (fun isVerified a => do return isVerified || (← trent.verifiesClause a)) false

/-- A response needs nothing but a positive modulus. -/
theorem sendResponse_total (hp : 0 < trent.keys.p) (s : Nat) (messageText : String)
    (res : ResEncrypt) : ∃ r, trent.sendResponse s messageText res = .ok r := by
  simp [sendResponse, sendMasks, BigInteger.modPow_natCast hp, pure, Except.pure]

/-- A promise with a verified ciphertext has a clause whose ciphertext was decrypted. -/
theorem exists_clause_of_verifiesRes {o : Or} {senPubK : Int}
    (h : trent.verifiesRes o senPubK = .ok true) :
    ∃ a ∈ o.ands, trent.verifiesClause a = .ok true := by
  rcases List.exists_of_foldlM_or h with hfalse | hclause
  · cases hfalse
  · exact hclause

/-- Decryption needs a positive modulus. -/
theorem modulus_pos_of_verifiesClause {a : And} {b : Bool}
    (h : trent.verifiesClause a = .ok b) : 0 < trent.keys.p := by
  simp only [verifiesClause, decryption, Except.bind_eq_ok] at h
  obtain ⟨r, -, key, -, k, -, c, ⟨power, hpower, -⟩, -⟩ := h
  exact BigInteger.modPow_pos hpower

end Trent

end Sxp
