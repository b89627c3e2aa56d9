-- SUMMARY: Making responses: simulated ones by Fabric, honest ones by Sender, and the ciphertext they are about.
import Sxp.Sigma.Signature

/-!
# Sender and Fabric

Random numbers are arguments: the number a drawing loop ends with. Nothing is assumed
about them. An operation of a sender returns the sender's next state with its result.
-/

namespace Sxp

/-- What `ElGamal.encryptForContract` returns; the engine's own output bytes are not used. -/
structure ElGamalEncrypt where
  u : Int
  v : Int
  k : Int
deriving Repr, DecidableEq

namespace Utils

/-- `rand(bitLength, p)`, where the loop ends with `s`. -/
def rand (p : Int) (s : Nat) : Int := if p ≤ 0 then 0 else s

theorem rand_of_pos {p : Int} (hp : 0 < p) (s : Nat) : rand p s = s := if_neg (Int.not_le.mpr hp)

end Utils

/-! ## Encryption -/

namespace ElGamalEngineK

/-- The tests of `processBlock` on what it encrypts. -/
def checkInput (p : Int) (input : List UInt8) : Except JavaException Unit :=
  let maxLength := (BigInteger.bitLength p - 1 + 7) / 8
  if maxLength < input.length then
    .error (.runtime ("input too large for ElGamal cipher with " ++ toString input.length ++
      " characters instead of  " ++ toString maxLength ++ " total.\n"))
  else if p ≤ BigInteger.magnitude input then
    .error (.runtime "input too large for ElGamal cipher.\n")
  else .ok ()

end ElGamalEngineK

namespace ElGamal

/-- `encryptForContract`, where the engine draws the exponent `k`. The product is not reduced. -/
def encryptForContract (keys : ElGamalKey) (data : List UInt8) (k : Nat) :
    Except JavaException ElGamalEncrypt := do
  ElGamalEngineK.checkInput keys.p data
  let u ← BigInteger.modPow keys.g k keys.p
  let power ← BigInteger.modPow keys.publicKey k keys.p
  let m ← BigInteger.ofBytes data
  return { u, v := power * m, k }

end ElGamal

/-! ## Simulated responses -/

namespace Fabric

def fabricMaskSchnorr (c r : Int) (keys : ElGamalKey) : Except JavaException Masks := do
  let gPowr ← BigInteger.modPow keys.g r keys.p
  let modInv ← BigInteger.modInverse (← BigInteger.modPow keys.publicKey c keys.p) keys.p
  return { a := gPowr * modInv, aBis := none }

/-- The challenge and the response are drawn first, the mask is computed from them. -/
def sendResponseSchnorrFabric (keys : ElGamalKey) (challenge response : Nat) :
    Except JavaException Responses := do
  let challenge := Utils.rand keys.p challenge
  let response := Utils.rand keys.p response
  let mask ← fabricMaskSchnorr challenge response keys
  return { kind := .schnorr, masks := mask, challenge, response }

def fabricMaskCCE (c r : Int) (res : ResEncrypt) (keys : ElGamalKey) :
    Except JavaException Masks := do
  let gPowr ← BigInteger.modPow keys.g r keys.p
  let modInv ← BigInteger.modInverse (← BigInteger.modPow res.u c keys.p) keys.p
  let pubPowr ← BigInteger.modPow keys.publicKey r keys.p
  let M ← BigInteger.ofBytes res.M
  let vDivMPwc ← BigInteger.modPow (← BigInteger.divide res.v M) c keys.p
  let modInvBis ← BigInteger.modInverse vDivMPwc keys.p
  return { a := gPowr * modInv, aBis := some (pubPowr * modInvBis) }

def sendResponseCCEFabric (res : ResEncrypt) (keys : ElGamalKey) (challenge response : Nat) :
    Except JavaException Responses := do
  let challenge := Utils.rand keys.p challenge
  let response := Utils.rand keys.p response
  let mask ← fabricMaskCCE challenge response res keys
  return { kind := .cce, masks := mask, challenge, response }

end Fabric

/-! ## The sender -/

/-- A sender with the exponents of the masks it has made. -/
structure Sender where
  keys : ElGamalKeyPair
  encrypt : Option ElGamalEncrypt := none
  resEncrypt : Option ResEncrypt := none
  eph : HashMap Masks Int := {}
deriving Repr, DecidableEq

namespace Sender

variable (hash : String → Int)

/-- `getPublicKeys`. -/
def publicKeys (sender : Sender) : ElGamalKey := sender.keys.toElGamalKey

/-- `eph.put(mask, s)`. -/
def remember (sender : Sender) (mask : Masks) (s : Int) : Sender :=
  { sender with eph := sender.eph.put mask s }

/-- `eph.get(mask)` where the exponent is dereferenced. -/
def exponentOf (sender : Sender) (mask : Masks) : Except JavaException Int :=
  match sender.eph.get mask with
  | some s => .ok s
  | none => .error .nullPointer

@[simp] theorem remember_keys (sender : Sender) (mask : Masks) (s : Int) :
    (sender.remember mask s).keys = sender.keys := rfl

@[simp] theorem remember_encrypt (sender : Sender) (mask : Masks) (s : Int) :
    (sender.remember mask s).encrypt = sender.encrypt := rfl

@[simp] theorem exponentOf_remember (sender : Sender) (mask : Masks) (s : Int) :
    (sender.remember mask s).exponentOf mask = .ok s := by
  simp [exponentOf, remember, HashMap.get_put]

def sendChallenge (mask : Masks) (message : String) : Int :=
  hash (message ++ BigInteger.text mask.a)

def sendMasksSchnorr (sender : Sender) (s : Nat) : Except JavaException (Masks × Sender) := do
  let s := Utils.rand sender.keys.p s
  let a ← BigInteger.modPow sender.keys.g s sender.keys.p
  let mask : Masks := { a, aBis := none }
  return (mask, sender.remember mask s)

/-- `SendResponseSchnorr(mask, challenge)`. -/
def sendResponseSchnorr (sender : Sender) (mask : Masks) (challenge : Int) :
    Except JavaException Responses := do
  let response := sender.keys.privateKey * challenge + (← sender.exponentOf mask)
  return { kind := .schnorr, masks := mask, challenge, response }

def sendMasksCCE (sender : Sender) (tKeys : ElGamalKey) (s : Nat) :
    Except JavaException (Masks × Sender) := do
  let s := Utils.rand tKeys.p s
  let a ← BigInteger.modPow tKeys.g s tKeys.p
  let aBis ← BigInteger.modPow tKeys.publicKey s tKeys.p
  let masks : Masks := { a, aBis := some aBis }
  return (masks, sender.remember masks s)

/-- `ResponseCCE`: the secret is the exponent of the last encryption. -/
def responseCCE (sender : Sender) (challenge : Int) (mask : Masks) : Except JavaException Int :=
  match sender.encrypt with
  | none => .error .nullPointer
  | some encrypt => do return encrypt.k * challenge + (← sender.exponentOf mask)

/-- `SendResponseCCE(message, tKeys)`. -/
def sendResponseCCE (sender : Sender) (message : String) (tKeys : ElGamalKey) (s : Nat) :
    Except JavaException (Responses × Sender) := do
  let (mask, sender) ← sender.sendMasksCCE tKeys s
  let challenge := sendChallenge hash mask message
  let response ← sender.responseCCE challenge mask
  return ({ kind := .cce, masks := mask, challenge, response }, sender)

/-- `Encryption`, with the ciphertext it returns. -/
def encryption (sender : Sender) (input : List UInt8) (tKeys : ElGamalKey) (k : Nat) :
    Except JavaException (ResEncrypt × Sender) := do
  let encrypt ← ElGamal.encryptForContract tKeys input k
  let res : ResEncrypt := { u := encrypt.u, v := encrypt.v, M := input }
  return (res, { sender with encrypt := some encrypt, resEncrypt := some res })

end Sender

end Sxp
