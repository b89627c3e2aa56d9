-- SUMMARY: Private contract signatures (And, Or), sigma signatures, and their verification by SigmaSigner.
import Sxp.Base.Except
import Sxp.Sigma.Responses

/-!
# Private contract signatures

An `Or` of `And` clauses is a promise to sign; together with a response that
reveals whose promise it is, it is a signature. Throughout, `hash t` is the signed
integer read from the SHA-256 digest of the bytes of `t`, and a message `byte[]`
is the text it decodes to.
-/

namespace Sxp

structure And where
  resEncrypt : ResEncrypt
  rK : HashMap Responses ElGamalKey
  responses : List Responses
deriving Repr, DecidableEq

structure Or where
  contract : Option (List UInt8) := none
  ands : List And
  a : Int
deriving Repr, DecidableEq

structure SigmaSignature where
  pcs : Or
  rpcs : Responses
  trentK : ElGamalKey
deriving Repr, DecidableEq

/-! ## Identification -/

namespace Sender

/-- `getIdentificationData`: the first 125 characters of the decimal public key, as bytes. -/
def getIdentificationData (k : ElGamalKey) : Except JavaException (List UInt8) :=
  let data := BigInteger.digits k.publicKey
  if data.length < 125 then .error .indexOutOfBounds
  else .ok ((data.take 125).map fun c => c.toNat.toUInt8)

theorem getIdentificationData_length {k : ElGamalKey} {id : List UInt8}
    (h : getIdentificationData k = .ok id) : id.length = 125 := by
  simp only [getIdentificationData] at h
  split at h
  · cases h
  · rename_i hlen
    cases h
    simpa using hlen

/-- `new BigInteger(getIdentificationData(k))`. -/
def identification (k : ElGamalKey) : Except JavaException Int := do
  BigInteger.ofBytes (← getIdentificationData k)

end Sender

/-! ## Clauses -/

namespace And

/-- `rK.get(res)` where the key is dereferenced. -/
def keyOf (c : And) (res : Responses) : Except JavaException ElGamalKey :=
  match c.rK.get res with
  | some k => .ok k
  | none => .error .nullPointer

/-- `responses[0]`. -/
def firstResponse (c : And) : Except JavaException Responses :=
  match c.responses[0]? with
  | some r => .ok r
  | none => .error .indexOutOfBounds

/-- `Verifies(true)`: inside an `Or` the challenges are not checked one by one. -/
def verifies (c : And) : Except JavaException Bool :=
  c.responses.allM fun res => do
    res.verifies (← c.keyOf res) c.resEncrypt

end And

namespace Receiver

variable (hash : String → Int)

/-- `VerifiesChallenges`: the exclusive or of all challenges is the hash of the message and `a`. -/
def verifiesChallenges (message : String) (a : Int) (challenge : List Int) : Bool :=
  challenge.foldl Int.xor 0 == hash (message ++ BigInteger.text a)

end Receiver

namespace Or

variable (hash : String → Int)

/-- The challenges in the order `Verifies` collects them. -/
def challenges (o : Or) : List Int := o.ands.flatMap fun c => c.responses.map (·.challenge)

def verifies (o : Or) (m : String) : Except JavaException Bool := do
  if ← o.ands.allM And.verifies then
    return Receiver.verifiesChallenges hash m o.a o.challenges
  else return false

theorem verifies_eq_true {o : Or} {m : String} :
    o.verifies hash m = .ok true ↔
      (∀ c ∈ o.ands, c.verifies = .ok true) ∧
        Receiver.verifiesChallenges hash m o.a o.challenges = true := by
  unfold verifies
  rw [Except.bind_eq_ok, ← List.allM_eq_ok_true]
  constructor
  · rintro ⟨b, hb, hrest⟩
    rw [Except.ite_ok_true] at hrest
    obtain ⟨rfl, hrest⟩ := hrest
    exact ⟨hb, by simpa using hrest⟩
  · rintro ⟨hands, hch⟩
    exact ⟨true, hands, by simp [hch]⟩

/-- `ands[0]`. -/
def firstClause (o : Or) : Except JavaException And :=
  match o.ands[0]? with
  | some c => .ok c
  | none => .error .indexOutOfBounds

end Or

/-! ## Signatures -/

/-- The keys a signer object expects; `key`, which only signing uses, is given to `sign`. -/
structure SigmaSigner where
  trentK : Option ElGamalKey := none
  receiverK : Option ElGamalKey := none
deriving Repr, DecidableEq

namespace SigmaSigner

variable (hash : String → Int)

/-- The first test of `verify`: the encrypted identification is the one of `receiverK`. -/
def matchesReceiver (s : SigmaSigner) (resE : ResEncrypt) (trentKey : ElGamalKey) :
    Except JavaException Bool :=
  match s.receiverK with
  | none => .ok true
  | some receiverK => do
      let m ← BigInteger.mod (← BigInteger.ofBytes resE.M) trentKey.p
      let n ← Sender.identification receiverK
      return m == n

/-- The last test of `verify`, skipped while no Trent key is set. -/
def matchesTrent (s : SigmaSigner) (trentKey : ElGamalKey) : Bool :=
  match s.trentK with
  | none => true
  | some trentK => trentK.publicKey == trentKey.publicKey

def verify (s : SigmaSigner) (message : String) (sign : SigmaSignature) :
    Except JavaException Bool := do
  let clause ← sign.pcs.firstClause
  let resE := clause.resEncrypt
  if ← s.matchesReceiver resE sign.trentK then
    if ← sign.pcs.verifies hash message then
      if ← sign.rpcs.verifies sign.trentK resE then
        return s.matchesTrent sign.trentK
      else return false
    else return false
  else return false

theorem verify_eq_true {s : SigmaSigner} {m : String} {sign : SigmaSignature} :
    s.verify hash m sign = .ok true ↔
      ∃ clause, sign.pcs.firstClause = .ok clause ∧
        s.matchesReceiver clause.resEncrypt sign.trentK = .ok true ∧
        sign.pcs.verifies hash m = .ok true ∧
        sign.rpcs.verifies sign.trentK clause.resEncrypt = .ok true ∧
        s.matchesTrent sign.trentK = true := by
  unfold verify
  rw [Except.bind_eq_ok]
  refine exists_congr fun clause => and_congr_right fun _ => ?_
  constructor
  · intro h
    simp only [Except.bind_eq_ok, Except.ite_ok_true, Except.pure_eq_ok] at h
    obtain ⟨b, hb, rfl, b', hb', rfl, b'', hb'', rfl, ht⟩ := h
    exact ⟨hb, hb', hb'', ht⟩
  · rintro ⟨hm, hp, hr, ht⟩
    simp [hm, hp, hr, ht]

end SigmaSigner

end Sxp
