-- SUMMARY: Promises and signatures that pass verification although no private key was used.
import Sxp.Contract.SigmaContract
import Sxp.Sigma.Trent

/-!
# Forgeries

Verification takes the keys of the equations from the object it verifies. Under a
key with modulus one every equation holds, so a promise and a signature in any
name can be written down for any message.
-/

namespace Sxp

/-- A key in the name of the public key `y`. Modulo one all powers agree. -/
def weakKey (y : Int) : ElGamalKey := { p := 1, g := 0, publicKey := y }

theorem schnorrEquation_weakKey (r : Responses) (y : Int) :
    r.schnorrEquation (weakKey y) = .ok true := by
  simp [Responses.schnorrEquation, weakKey, BigInteger.modPow_one, BigInteger.mod]

/-! ## Promises -/

namespace Or

variable (hash : String → Int)

/-- The only response of a forged promise, with the challenge the message asks for. -/
def forgedResponse (m : String) : Responses where
  kind := .schnorr
  masks := { a := 0, aBis := none }
  challenge := hash (m ++ BigInteger.text 0)
  response := 0

/-- The only clause of a forged promise. -/
def forgedClause (m : String) (y : Int) (resE : ResEncrypt) : And where
  resEncrypt := resE
  rK := HashMap.singleton (forgedResponse hash m) (weakKey y)
  responses := [forgedResponse hash m]

def forged (m : String) (y : Int) (resE : ResEncrypt) : Or where
  ands := [forgedClause hash m y resE]
  a := 0

theorem forgedClause_keyOf (m : String) (y : Int) (resE : ResEncrypt) :
    (forgedClause hash m y resE).keyOf (forgedResponse hash m) = .ok (weakKey y) := by
  simp [And.keyOf, forgedClause]

theorem forged_verifies (m : String) (y : Int) (resE : ResEncrypt) :
    (forged hash m y resE).verifies hash m = .ok true := by
  rw [verifies_eq_true]
  constructor
  · intro c hc
    rw [List.mem_singleton.mp hc, And.verifies, List.allM_eq_ok_true]
    intro r hr
    rw [List.mem_singleton.mp hr, forgedClause_keyOf, Except.ok_bind]
    exact schnorrEquation_weakKey _ y
  · simp [Receiver.verifiesChallenges, challenges, forged, forgedClause, forgedResponse,
      BigInteger.xor_zero_left]

/-- A ciphertext that decrypts to the bytes `id`, whoever decrypts it. -/
def openCiphertext (id : List UInt8) : ResEncrypt :=
  { u := 1, v := BigInteger.magnitude id, M := id }

/-- A promise in the name of `k`, whose identification bytes are `id`. -/
def forgedFor (m : String) (k : ElGamalKey) (id : List UInt8) : Or :=
  forged hash m k.publicKey (openCiphertext id)

/-- Trent decrypts the ciphertext of such a promise to the identification of `k`. -/
theorem forgedFor_verifiesRes {trent : Trent} (hp : 256 ^ 125 ≤ trent.keys.p)
    (hx : trent.keys.privateKey < trent.keys.p) {k : ElGamalKey} {b : UInt8} {id : List UInt8}
    (hid : Sender.getIdentificationData k = .ok (b :: id)) (hb : b < 128) (m : String)
    (senPubK : Int) :
    trent.verifiesRes (forgedFor hash m k (b :: id)) senPubK = .ok true := by
  have hpos : 0 < trent.keys.p := lt_of_lt_of_le (by positivity) hp
  have hlt : BigInteger.magnitude (b :: id) < trent.keys.p := by
    refine lt_of_lt_of_le ?_ hp
    rw [← Sender.getIdentificationData_length hid]
    exact BigInteger.magnitude_lt _
  have hmod : BigInteger.magnitude (b :: id) % trent.keys.p = BigInteger.magnitude (b :: id) :=
    Int.emod_eq_of_lt (BigInteger.magnitude_nonneg _) hlt
  have hone : (1 : Int) % trent.keys.p * BigInteger.magnitude (b :: id) % trent.keys.p =
      BigInteger.magnitude (b :: id) := by
    rw [Int.mul_emod, Int.emod_emod_of_dvd _ (dvd_refl _), ← Int.mul_emod, one_mul, hmod]
  -- to the base one the exponent does not matter
  have hexp : (0 : Int) ≤ trent.keys.p - 1 - trent.keys.privateKey := by omega
  have hident : Sender.identification (weakKey k.publicKey) =
      .ok (BigInteger.magnitude (b :: id)) := by
    have hid' : Sender.getIdentificationData (weakKey k.publicKey) = .ok (b :: id) := hid
    rw [Sender.identification, hid', Except.ok_bind, BigInteger.ofBytes_of_lt hb]
  have hdec : trent.decryption (openCiphertext (b :: id)) =
      .ok (BigInteger.magnitude (b :: id)) := by
    simp only [openCiphertext, Trent.decryption, BigInteger.modPow, Int.not_le.mpr hpos, if_false,
      hexp, if_true, one_pow, Except.ok_bind, BigInteger.mod_of_pos hpos, hone]
  have hclause : trent.verifiesClause (forgedClause hash m k.publicKey (openCiphertext (b :: id))) =
      .ok true := by
    have hfirst : (forgedClause hash m k.publicKey (openCiphertext (b :: id))).firstResponse =
        .ok (forgedResponse hash m) := rfl
    have hres : (forgedClause hash m k.publicKey (openCiphertext (b :: id))).resEncrypt =
        openCiphertext (b :: id) := rfl
    rw [Trent.verifiesClause, hfirst, Except.ok_bind, forgedClause_keyOf, Except.ok_bind, hident,
      Except.ok_bind, hres, hdec, Except.ok_bind]
    simp [pure, Except.pure]
  simp only [Trent.verifiesRes, forgedFor, forged, List.foldlM_cons, List.foldlM_nil, hclause]
  rfl

end Or

/-! ## Signatures -/

namespace SigmaSignature

variable (hash : String → Int)

/-- The revealing response: all powers to the exponent zero are one. -/
def forgedReveal : Responses where
  kind := .schnorr
  masks := { a := 1, aBis := none }
  challenge := 0
  response := 0

/-- A signature on `m` with the identification bytes `id`, claiming to be made for Trent's key
`T`. -/
def forged (m : String) (id : List UInt8) (T : ElGamalKey) : SigmaSignature where
  pcs := Or.forged hash m 0 { u := 1, v := 1, M := id }
  rpcs := forgedReveal
  trentK := { p := 256 ^ 125, g := 1, publicKey := T.publicKey }

theorem forgedReveal_verifies (T : ElGamalKey) (resE : ResEncrypt) :
    forgedReveal.verifies { p := 256 ^ 125, g := 1, publicKey := T.publicKey } resE = .ok true := by
  have hone : (1 : Int) % 256 ^ 125 = 1 := by decide +kernel
  have hpos : (0 : Int) < 256 ^ 125 := by positivity
  have hpow : ∀ a : Int, BigInteger.modPow a 0 (256 ^ 125) = .ok 1 := by
    intro a
    have h := BigInteger.modPow_natCast (a := a) hpos 0
    rwa [pow_zero, hone] at h
  simp only [Responses.verifies, forgedReveal, Responses.schnorrEquation, hpow, Except.ok_bind,
    mul_one, BigInteger.mod_of_pos hpos, hone]
  rfl

theorem forged_matchesReceiver {k : ElGamalKey} {b : UInt8} {id : List UInt8}
    (hid : Sender.getIdentificationData k = .ok (b :: id)) (hb : b < 128) {s : SigmaSigner}
    (hs : s.receiverK = some k) (resE : ResEncrypt) (hM : resE.M = b :: id) (T : ElGamalKey) :
    s.matchesReceiver resE { p := 256 ^ 125, g := 1, publicKey := T.publicKey } = .ok true := by
  have hpos : (0 : Int) < 256 ^ 125 := by positivity
  have hlt : BigInteger.magnitude (b :: id) < 256 ^ 125 := by
    rw [← Sender.getIdentificationData_length hid]
    exact BigInteger.magnitude_lt _
  have hmod : BigInteger.magnitude (b :: id) % 256 ^ 125 = BigInteger.magnitude (b :: id) :=
    Int.emod_eq_of_lt (BigInteger.magnitude_nonneg _) hlt
  simp only [SigmaSigner.matchesReceiver, hs, hM, BigInteger.ofBytes_of_lt hb, Except.ok_bind,
    BigInteger.mod_of_pos hpos, hmod, Sender.identification, hid]
  simp [pure, Except.pure]

/-- Whoever `k` is, a signer object that expects `k` and Trent's key `T` accepts the forgery. -/
theorem forged_verify {k : ElGamalKey} {b : UInt8} {id : List UInt8}
    (hid : Sender.getIdentificationData k = .ok (b :: id)) (hb : b < 128) (T : ElGamalKey)
    (m : String) : SigmaSigner.verify hash { trentK := some T, receiverK := some k } m
      (forged hash m (b :: id) T) = .ok true := by
  rw [SigmaSigner.verify_eq_true]
  refine ⟨_, rfl, ?_, ?_, ?_, ?_⟩
  · exact forged_matchesReceiver hid hb rfl _ rfl T
  · exact Or.forged_verifies hash m 0 _
  · exact forgedReveal_verifies T _
  · simp [SigmaSigner.matchesTrent, forged]

end SigmaSignature

/-! ## A contract of two parties -/

namespace Sample

/-- A party key whose identification bytes are those of the digit one and zeros. -/
def aliceKey : ElGamalKey := { p := 23, g := 5, publicKey := 10 ^ 124 }

def bobKey : ElGamalKey := { p := 23, g := 5, publicKey := 10 ^ 124 + 1 }

def trentKey : ElGamalKey := { p := 23, g := 5, publicKey := 8 }

def aliceId : List UInt8 := 49 :: List.replicate 124 48

theorem aliceKey_identification : Sender.getIdentificationData aliceKey = .ok aliceId := by
  decide +kernel

/-- A contract of Alice and Bob, ready to be signed. -/
def contract : SigmaContract where
  parties := [aliceKey, bobKey]
  clauses := ["first", "second"]
  signer := { trentK := some trentKey, receiverK := none }
  status := .signing

def bobId : List UInt8 := 49 :: (List.replicate 123 48 ++ [49])

theorem bobKey_identification : Sender.getIdentificationData bobKey = .ok bobId := by
  decide +kernel

/-- Promises in the names of Alice and Bob for a round of the contract. -/
def claim (hash : String → Int) (round : Int) : List Or :=
  [Or.forgedFor hash (contract.roundData round) aliceKey aliceId,
    Or.forgedFor hash (contract.roundData round) bobKey bobId]

/-- The texts `[1]` and `[2]` stand for the arrays of the promises of these rounds, and `[]` for
the empty array. -/
def json (hash : String → Int) : JsonTools where
  toOrs m :=
    if m = "[1]" then some ((claim hash 1).map some)
    else if m = "[2]" then some ((claim hash 2).map some)
    else if m = "[]" then some []
    else none
  signaturesToJson _ := "signatures"
  claimsToJson _ := "claims"
  dishonestToJson _ := "dishonest"
  tokenToJson := String.join
  toOrs_abort := rfl

def trent (hash : String → Int) : Trent where
  hash := hash
  keys := { trentKey with p := 256 ^ 125, g := 1, privateKey := 3 }
  json := json hash

theorem claim_checked (hash : String → Int) (round : Int) :
    ∀ o ∈ claim hash round, o.verifies (trent hash).hash (contract.roundData round) = .ok true ∧
      ∀ senPubK, (trent hash).verifiesRes o senPubK = .ok true := by
  have hbyte : (49 : UInt8) < 128 := by decide
  have hp : 256 ^ 125 ≤ (trent hash).keys.p := le_rfl
  have hx : (3 : Int) < 256 ^ 125 := by decide +kernel
  intro o ho
  rcases List.mem_pair.mp ho with rfl | rfl
  · exact ⟨Or.forged_verifies hash _ _ _,
      Or.forgedFor_verifiesRes hash hp hx aliceKey_identification hbyte _⟩
  · exact ⟨Or.forged_verifies hash _ _ _,
      Or.forgedFor_verifiesRes hash hp hx bobKey_identification hbyte _⟩

end Sample

end Sxp
