-- SUMMARY: Making private contract signatures and sigma signatures.
import Sxp.Sigma.Sender

/-!
# PCS and SigmaSigner.sign

A promise has one clause with honest responses and one with simulated responses, around
the ciphertext that identifies the sender to Trent.
-/

namespace Sxp

/-- The random numbers of `createPcs`: challenge and response of the simulations, and the
exponents of the two honest masks. -/
structure PcsCoins where
  schnorrFabric : Nat × Nat := (1, 1)
  cceFabric : Nat × Nat := (1, 1)
  cce : Nat := 1
  schnorr : Nat := 1
deriving Repr, DecidableEq

structure PCS where
  sender : Sender
  trentK : ElGamalKey
  res : Option ResEncrypt
deriving Repr, DecidableEq

namespace PCS

variable (hash : String → Int)

/-- The constructor. -/
def create (s : Sender) (t : ElGamalKey) : PCS := { sender := s, trentK := t, res := s.resEncrypt }

/-- `res` where it is dereferenced. -/
def getRes (pcs : PCS) : Except JavaException ResEncrypt :=
  match pcs.res with
  | some res => .ok res
  | none => .error .nullPointer

/-- The clause with the responses `schnorr`, for the key `k`, and `cce`, for Trent's key. -/
def clause (res : ResEncrypt) (schnorr : Responses) (k : ElGamalKey) (cce : Responses)
    (trentK : ElGamalKey) : And where
  resEncrypt := res
  rK := (({} : HashMap Responses ElGamalKey).put schnorr k).put cce trentK
  responses := [schnorr, cce]

def createPcs (pcs : PCS) (m : String) (receiverK : ElGamalKey) (coins : PcsCoins) :
    Except JavaException (Or × PCS) := do
  -- two of the four responses are simulated
  let resSchnorr2 ← Fabric.sendResponseSchnorrFabric receiverK coins.schnorrFabric.1
    coins.schnorrFabric.2
  let res ← pcs.getRes
  let resCce2 ← Fabric.sendResponseCCEFabric res pcs.trentK coins.cceFabric.1 coins.cceFabric.2
  let (resCce1, sender) ← pcs.sender.sendResponseCCE hash m pcs.trentK coins.cce
  -- the last challenge is what is missing to the hash value
  let (mask, sender) ← sender.sendMasksSchnorr coins.schnorr
  let c := Sender.sendChallenge hash mask m
  let challenge := Int.xor c
    (Int.xor resSchnorr2.challenge (Int.xor resCce1.challenge resCce2.challenge))
  let resSchnorr1 ← sender.sendResponseSchnorr mask challenge
  let ands := [clause res resSchnorr1 sender.publicKeys resCce1 pcs.trentK,
    clause res resSchnorr2 receiverK resCce2 pcs.trentK]
  return ({ contract := some (getBytes m), ands, a := mask.a }, { pcs with sender })

/-- `getPcs`; the exponent `k` is used when the ciphertext is made anew. -/
def getPcs (pcs : PCS) (m : String) (r : ElGamalKey) (changeEncrypter : Bool) (k : Nat)
    (coins : PcsCoins) : Except JavaException (Or × PCS) := do
  if changeEncrypter then
    let b ← Sender.getIdentificationData pcs.sender.publicKeys
    let (res, sender) ← pcs.sender.encryption b pcs.trentK k
    createPcs hash { pcs with sender, res := some res } m r coins
  else createPcs hash pcs m r coins

end PCS

/-! ## Signing -/

/-- The random numbers of `sign`. -/
structure SignCoins where
  k : Nat := 1
  reveal : Nat := 1
  pcs : PcsCoins := {}
deriving Repr, DecidableEq

namespace SigmaSigner

variable (hash : String → Int)

/-- `sign`, for a signer object whose own key is `key`. -/
def sign (s : SigmaSigner) (key : ElGamalKeyPair) (message : String) (coins : SignCoins) :
    Except JavaException SigmaSignature :=
  match s.receiverK, s.trentK with
  | some receiverK, some trentK => do
      let b ← Sender.getIdentificationData key.toElGamalKey
      let (_, sender) ← Sender.encryption { keys := key } b trentK coins.k
      let (rpcs, sender) ← sender.sendResponseCCE hash message trentK coins.reveal
      let (pcs, _) ← (PCS.create sender trentK).getPcs hash message receiverK false
        coins.k coins.pcs
      return { pcs, rpcs, trentK }
  | _, _ => .error (.runtime "Trent and receiver keys not set")

end SigmaSigner

namespace PCS

variable (hash : String → Int)

/-- `getClearSignature(contract, r)`, for the contract's hashable data. -/
def getClearSignature (pcs : PCS) (data : String) (r : ElGamalKey) (coins : SignCoins) :
    Except JavaException SigmaSignature :=
  SigmaSigner.sign hash { trentK := some pcs.trentK, receiverK := some r }
    pcs.sender.keys data coins

end PCS

end Sxp
