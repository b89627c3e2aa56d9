-- SUMMARY: The verification equations modulo a prime, as equations between field elements, and what simulated responses satisfy.
import Sxp.Base.SigmaProtocol
import Sxp.Java.Modular
import Sxp.Sigma.Sender

/-!
# Verification modulo a prime

When the modulus of a key is a prime that divides none of the bases, no verification
throws, and each test is the equation of a proof of knowledge of an exponent: of the
private key for a Schnorr response, of the exponent of the encryption for a CCE one.
-/

namespace Sxp

open SigmaProtocol (Accepts)

/-- A key of the group of nonzero residues modulo `p`. -/
structure ElGamalKey.InGroup (k : ElGamalKey) (p : ℕ) : Prop where
  modulus : k.p = p
  generator : (k.g : ZMod p) ≠ 0
  publicKey : (k.publicKey : ZMod p) ≠ 0

/-- A key pair of the group of nonzero residues modulo `p`. -/
structure ElGamalKeyPair.Valid (k : ElGamalKeyPair) (p : ℕ) [Fact p.Prime] : Prop where
  modulus : k.p = p
  generator : (k.g : ZMod p) ≠ 0
  pair : (k.publicKey : ZMod p) = (k.g : ZMod p) ^ k.privateKey

theorem ElGamalKeyPair.Valid.inGroup {k : ElGamalKeyPair} {p : ℕ} [Fact p.Prime] (h : k.Valid p) :
    k.toElGamalKey.InGroup p where
  modulus := h.modulus
  generator := h.generator
  publicKey := by
    rw [h.pair]
    exact zpow_ne_zero _ h.generator

/-- A ciphertext made with the key `k`: its first number is a unit, and its second one the
product of its content and of a unit `q`. -/
structure ResEncrypt.Divides (res : ResEncrypt) (p : ℕ) (q : Int) : Prop where
  unit : (res.u : ZMod p) ≠ 0
  quotient_unit : (q : ZMod p) ≠ 0
  quotient : ∃ M, BigInteger.ofBytes res.M = .ok M ∧ M ≠ 0 ∧ res.v = q * M

theorem Utils.rand_eq {p : ℕ} [Fact p.Prime] (s : Nat) : Utils.rand p s = s :=
  Utils.rand_of_pos BigInteger.prime_pos s

/-- A product is divided by one of its factors without a rest. -/
theorem ResEncrypt.divide_of_product {res : ResEncrypt} {q : Int}
    (h : ∃ M, BigInteger.ofBytes res.M = .ok M ∧ M ≠ 0 ∧ res.v = q * M) :
    ∃ M, BigInteger.ofBytes res.M = .ok M ∧ BigInteger.divide res.v M = .ok q := by
  obtain ⟨M, hM, hne, hv⟩ := h
  exact ⟨M, hM, by rw [BigInteger.divide, if_neg hne, hv, Int.mul_tdiv_cancel q hne]⟩

theorem ResEncrypt.Divides.divide {res : ResEncrypt} {p : ℕ} {q : Int} (h : res.Divides p q) :
    ∃ M, BigInteger.ofBytes res.M = .ok M ∧ BigInteger.divide res.v M = .ok q :=
  divide_of_product h.quotient

namespace Responses

variable {p : ℕ} [Fact p.Prime] {k : ElGamalKey} {res : ResEncrypt} {q : Int}

/-- The three powers and products of a test, compared. -/
theorem beq_val_eq_decide (x y : ZMod p) :
    (((x.val : ℕ) : Int) == ((y.val : ℕ) : Int)) = decide (x = y) := by
  rw [Bool.eq_iff_iff, beq_iff_eq, BigInteger.val_eq_iff, decide_eq_true_iff]

/-- A generator of zero has no negative powers. -/
theorem schnorrEquation_eq_of (hp : k.p = p) {r : Responses}
    (hg : (k.g : ZMod p) ≠ 0 ∨ 0 ≤ r.response) (hy : (k.publicKey : ZMod p) ≠ 0) :
    r.schnorrEquation k = .ok
      (decide (Accepts (k.g : ZMod p) k.publicKey r.masks.a r.challenge r.response)) := by
  simp only [schnorrEquation, hp, BigInteger.modPow_eq_val_of_nonneg hg,
    BigInteger.modPow_eq_val hy,
    BigInteger.mod_eq_val, Except.ok_bind, Int.cast_mul, BigInteger.cast_val, beq_val_eq_decide]
  rfl

theorem schnorrEquation_eq (hk : k.InGroup p) (r : Responses) :
    r.schnorrEquation k = .ok
      (decide (Accepts (k.g : ZMod p) k.publicKey r.masks.a r.challenge r.response)) :=
  schnorrEquation_eq_of hk.modulus (.inl hk.generator) hk.publicKey

theorem quotientPower_eq (hp : k.p = p)
    (hquotient : ∃ M, BigInteger.ofBytes res.M = .ok M ∧ BigInteger.divide res.v M = .ok q)
    (hq : (q : ZMod p) ≠ 0) {r : Responses} {aBis : Int} (haBis : r.masks.aBis = some aBis) :
    r.quotientPower k res = .ok ((((q : ZMod p) ^ r.challenge * aBis).val : ℕ) : Int) := by
  obtain ⟨M, hM, hdiv⟩ := hquotient
  have hmask : r.masks.getaBis = .ok aBis := by rw [Masks.getaBis, haBis]
  simp only [quotientPower, hM, hdiv, hmask, hp, BigInteger.modPow_eq_val hq,
    BigInteger.mod_eq_val, Except.ok_bind, Int.cast_mul, BigInteger.cast_val]

/-- A CCE response proves that both numbers of the ciphertext have one exponent. -/
theorem verifiesCCE_eq (hk : k.InGroup p) (hres : res.Divides p q) {r : Responses} {aBis : Int}
    (haBis : r.masks.aBis = some aBis) :
    r.verifiesCCE k res = .ok
      (decide (Accepts (k.g : ZMod p) res.u r.masks.a r.challenge r.response) &&
        decide (Accepts (k.publicKey : ZMod p) q aBis r.challenge r.response)) := by
  simp only [verifiesCCE, quotientPower_eq hk.modulus hres.divide hres.quotient_unit haBis,
    hk.modulus, BigInteger.modPow_eq_val hk.generator, BigInteger.modPow_eq_val hk.publicKey,
    BigInteger.modPow_eq_val hres.unit, BigInteger.mod_eq_val, Except.ok_bind, Int.cast_mul,
    BigInteger.cast_val, beq_val_eq_decide]
  rcases Decidable.em (Accepts (k.g : ZMod p) res.u r.masks.a r.challenge r.response) with h | h
  · rw [Accepts] at h
    simp only [h, decide_true, if_true, SigmaProtocol.Accepts, Bool.true_and]
    rfl
  · rw [Accepts] at h
    simp only [h, decide_false, SigmaProtocol.Accepts, Bool.false_and]
    rfl

end Responses

/-! ## Simulated responses -/

namespace Fabric

variable {p : ℕ} [Fact p.Prime] {k : ElGamalKey} {res : ResEncrypt} {q : Int}

open BigInteger (modPow_eq_val modInverse_eq_val cast_val)

/-- The mask as it is computed, a product of two representatives. -/
def simulatedMask (g y : ZMod p) (c r : Int) : Int :=
  (((g ^ r).val : ℕ) : Int) * ((((y ^ c)⁻¹).val : ℕ) : Int)

theorem accepts_simulatedMask {g y : ZMod p} (hy : y ≠ 0) (c r : Int) :
    Accepts g y (simulatedMask g y c r) c r := by
  simp only [simulatedMask, Int.cast_mul, cast_val]
  exact SigmaProtocol.accepts_simulated hy c r

theorem modInverse_pow {y : Int} (hy : (y : ZMod p) ≠ 0) (c : Int) :
    BigInteger.modInverse ((((y : ZMod p) ^ c).val : ℕ) : Int) p =
      .ok ((((y : ZMod p) ^ c)⁻¹.val : ℕ) : Int) := by
  have hpow : (((((y : ZMod p) ^ c).val : ℕ) : Int) : ZMod p) ≠ 0 := by
    rw [cast_val]
    exact zpow_ne_zero c hy
  rw [modInverse_eq_val hpow, cast_val]

theorem fabricMaskSchnorr_eq (hk : k.InGroup p) (c r : Int) :
    fabricMaskSchnorr c r k =
      .ok { a := simulatedMask (k.g : ZMod p) k.publicKey c r, aBis := none } := by
  simp only [fabricMaskSchnorr, hk.modulus, modPow_eq_val hk.generator,
    modPow_eq_val hk.publicKey, modInverse_pow hk.publicKey, Except.ok_bind]
  rfl

theorem fabricMaskCCE_eq (hk : k.InGroup p) (hres : res.Divides p q) (c r : Int) :
    fabricMaskCCE c r res k = .ok {
      a := simulatedMask (k.g : ZMod p) res.u c r
      aBis := some (simulatedMask (k.publicKey : ZMod p) q c r) } := by
  obtain ⟨M, hM, hdiv⟩ := hres.divide
  simp only [fabricMaskCCE, hk.modulus, modPow_eq_val hk.generator, modPow_eq_val hk.publicKey,
    modPow_eq_val hres.unit, modPow_eq_val hres.quotient_unit, modInverse_pow hres.unit,
    modInverse_pow hres.quotient_unit, hM, hdiv, Except.ok_bind]
  rfl

/-- A Schnorr mask computed from its challenge and response passes the test. -/
theorem fabricMaskSchnorr_accepted (hk : k.InGroup p) (res : ResEncrypt) (c r : Int) :
    ∃ mask, fabricMaskSchnorr c r k = .ok mask ∧
      Responses.verifies ⟨.schnorr, mask, c, r⟩ k res = .ok true := by
  refine ⟨_, fabricMaskSchnorr_eq hk c r, ?_⟩
  rw [Responses.verifies, Responses.schnorrEquation_eq hk,
    decide_eq_true (accepts_simulatedMask hk.publicKey c r)]

/-- The same for a CCE mask, whatever the ciphertext contains. -/
theorem fabricMaskCCE_accepted (hk : k.InGroup p) (hres : res.Divides p q) (c r : Int) :
    ∃ mask, fabricMaskCCE c r res k = .ok mask ∧
      Responses.verifies ⟨.cce, mask, c, r⟩ k res = .ok true := by
  refine ⟨_, fabricMaskCCE_eq hk hres c r, ?_⟩
  rw [Responses.verifies, Responses.verifiesCCE_eq hk hres rfl,
    decide_eq_true (accepts_simulatedMask hres.unit c r),
    decide_eq_true (accepts_simulatedMask hres.quotient_unit c r)]
  rfl

end Fabric

end Sxp
