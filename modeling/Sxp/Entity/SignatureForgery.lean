-- SUMMARY: An accepted ElGamal signature yields accepted signatures of other messages, since the check bounds neither of its numbers.
import Mathlib.Data.Int.ModEq
import Sxp.Entity.ElGamalSignature

/-!
# Signatures from signatures

The check reads the first number of a signature modulo `p`, as a base, and modulo `p - 1`, as
an exponent. A number that is not below `p` can be chosen freely for the two.
-/

namespace Sxp

namespace BigInteger

variable {p : ℕ} [Fact p.Prime]

/-- A power with an exponent that is not negative, of any base. -/
theorem modPow_of_nonneg {a e : Int} (he : 0 ≤ e) :
    modPow a e p = .ok ((((a : ZMod p) ^ e).val : ℕ) : Int) := by
  obtain ⟨n, rfl⟩ := Int.eq_ofNat_of_zero_le he
  rw [modPow_natCast prime_pos, zpow_natCast, ← Int.cast_pow, ZMod.val_intCast]

/-- Zero is the one base that has no negative power. -/
theorem modPow_eq_ok_iff {a e v : Int} :
    modPow a e p = .ok v ↔ ((a : ZMod p) ≠ 0 ∨ 0 ≤ e) ∧ v = (((a : ZMod p) ^ e).val : ℕ) := by
  by_cases hdefined : (a : ZMod p) ≠ 0 ∨ 0 ≤ e
  · have hpow : modPow a e p = .ok ((((a : ZMod p) ^ e).val : ℕ) : Int) :=
      hdefined.elim (fun ha => modPow_eq_val ha e) modPow_of_nonneg
    simp [hpow, hdefined, eq_comm]
  · obtain ⟨ha, he⟩ := not_or.mp hdefined
    have hgcd : Int.gcd a p ≠ 1 := by
      intro hone
      rw [not_ne_iff, ZMod.intCast_zmod_eq_zero_iff_dvd] at ha
      have hdvd := Int.dvd_coe_gcd ha (dvd_refl (p : Int))
      rw [hone, Int.natCast_dvd_natCast] at hdvd
      exact (Fact.out : p.Prime).one_lt.not_ge (Nat.le_of_dvd one_pos hdvd)
    have hthrows := mt (modPow_total_iff (by exact_mod_cast (Fact.out : p.Prime).one_lt)).mp
      (not_or.mpr ⟨he, hgcd⟩)
    exact iff_of_false (fun h => hthrows ⟨v, h⟩) (fun h => hdefined h.1)

end BigInteger

namespace ElGamalSignature

variable {Message : Type} {hash : Message → Int} {p : ℕ} [Fact p.Prime] {key : ElGamalKeyPair}

/-- The equation that the check is about. Where the code asks for the inverse of zero, and
throws, the two sides are different. -/
theorem check_eq_true_iff (hkey : key.Valid p) {message : Message} {r s : Int} :
    check hash key.p key.g key.publicKey message { r := some r, s := some s } = .ok true ↔
      (key.g : ZMod p) ^ hash message = (key.publicKey : ZMod p) ^ r * (r : ZMod p) ^ s := by
  simp only [check, notNull, hkey.modulus, BigInteger.modPow_eq_val hkey.generator,
    BigInteger.modPow_eq_val hkey.inGroup.publicKey, BigInteger.mod_eq_val, Except.ok_bind,
    Except.bind_eq_ok,
    Except.pure_eq_ok, beq_iff_eq, BigInteger.val_eq_iff, Int.cast_mul, BigInteger.cast_val,
    BigInteger.modPow_eq_ok_iff]
  constructor
  · rintro ⟨_, ⟨-, rfl⟩, h⟩
    rwa [BigInteger.cast_val] at h
  · intro h
    refine ⟨_, ⟨?_, rfl⟩, by rwa [BigInteger.cast_val]⟩
    by_contra hnegative
    obtain ⟨hr, hs⟩ := not_or.mp hnegative
    rw [not_ne_iff.mp hr, zero_zpow s (by omega), mul_zero] at h
    exact zpow_ne_zero _ hkey.generator h

/-- `(r', s')` is made of `(r, s)` with the quotient `u` of the numbers `h'` and `h`. -/
def Forges (p h h' r s r' s' : Int) : Prop :=
  ∃ u, u * h ≡ h' [ZMOD p - 1] ∧ r' ≡ r [ZMOD p] ∧ r' ≡ r * u [ZMOD p - 1] ∧ s' = s * u % (p - 1)

/-- The two moduli have no factor in common, so there is such a pair for every `h'`. -/
theorem forges_exists {p h : Int} (hh : Int.gcd h (p - 1) = 1) (h' r s : Int) :
    ∃ r' s', Forges p h h' r s r' s' := by
  obtain ⟨inv, hinv⟩ : ∃ inv, h * inv ≡ 1 [ZMOD p - 1] := by
    have hbezout := Int.gcd_eq_gcd_ab h (p - 1)
    rw [hh] at hbezout
    exact ⟨_, Int.modEq_iff_dvd.mpr ⟨_, sub_eq_iff_eq_add'.mpr hbezout⟩⟩
  refine ⟨r * (inv * h') * p - r * (p - 1), _, inv * h', ?_, ?_, ?_, rfl⟩
  · calc inv * h' * h = h * inv * h' := by ring
      _ ≡ 1 * h' [ZMOD p - 1] := hinv.mul_right h'
      _ = h' := one_mul h'
  · refine (Int.modEq_iff_dvd.mpr ⟨r - r * (inv * h'), ?_⟩)
    ring
  · refine (Int.modEq_iff_dvd.mpr ⟨r - r * (inv * h'), ?_⟩)
    ring

/-- The equation for a message gives the equation for any other one. -/
theorem equation_of_forges {g y : ZMod p} (hg : g ≠ 0) (hy : y ≠ 0) {h h' r s r' s' : Int}
    (hforges : Forges p h h' r s r' s') (heq : g ^ h = y ^ r * (r : ZMod p) ^ s) :
    g ^ h' = y ^ r' * (r' : ZMod p) ^ s' := by
  obtain ⟨u, hu, hbase, hexponent, rfl⟩ := hforges
  have hcast : (r' : ZMod p) = r := (ZMod.intCast_eq_intCast_iff r' r p).mpr hbase
  have hs : (r : ZMod p) ^ (s * u % ((p : Int) - 1)) = (r : ZMod p) ^ (s * u) := by
    by_cases hr : (r : ZMod p) = 0
    -- then the second number was zero, and is zero again
    · have hzero : s = 0 := by
        by_contra hs
        rw [hr, zero_zpow s hs, mul_zero] at heq
        exact zpow_ne_zero h hg heq
      rw [hzero, zero_mul, Int.zero_emod]
    · exact BigInteger.zpow_congr hr (Int.emod_emod_of_dvd _ (dvd_refl _))
  calc g ^ h' = g ^ (h * u) := BigInteger.zpow_congr hg (by rw [mul_comm h u]; exact hu.symm)
    _ = (y ^ r * (r : ZMod p) ^ s) ^ u := by rw [zpow_mul, heq]
    _ = y ^ (r * u) * (r : ZMod p) ^ (s * u) := by rw [mul_zpow, ← zpow_mul, ← zpow_mul]
    _ = y ^ r' * (r' : ZMod p) ^ (s * u % ((p : Int) - 1)) := by
        rw [hcast, hs, BigInteger.zpow_congr hy hexponent]

/-- What is made of an accepted signature is accepted, by the two classes that check. -/
theorem forged_accepted (hash : Message → Int) (hkey : key.Valid p) {m : Message} {r s : Int}
    (hm : Int.gcd (hash m) (key.p - 1) = 1)
    (h : ElGamalSigner.verifyWithKey hash (some key.signerKey) m { r := some r, s := some s } =
      .ok true) (m' : Message) :
    (∃ r' s', Forges key.p (hash m) (hash m') r s r' s') ∧
    ∀ r' s', Forges key.p (hash m) (hash m') r s r' s' →
      ElGamalSigner.verifyWithKey hash (some key.signerKey) m' { r := some r', s := some s' } =
      .ok true ∧
      ElGamal.verifySignature hash key.signerKey m' (some { r := some r', s := some s' }) =
      .ok true := by
  refine ⟨forges_exists hm _ _ _, fun r' s' hforges => ?_⟩
  have hcheck : check hash key.p key.g key.publicKey m' { r := some r', s := some s' } =
      .ok true := by
    rw [hkey.modulus] at hforges
    rw [check_eq_true_iff hkey]
    exact equation_of_forges hkey.generator hkey.inGroup.publicKey hforges
      ((check_eq_true_iff hkey).mp h)
  refine ⟨hcheck, ?_⟩
  have hpow : BigInteger.modPow key.g (hash m') key.p =
      .ok ((((key.g : ZMod p) ^ hash m').val : ℕ) : Int) := by
    rw [hkey.modulus, BigInteger.modPow_eq_val hkey.generator]
  simpa only [ElGamal.verifySignature, ElGamalKeyPair.signerKey, notNull, hpow, Except.ok_bind]
    using hcheck

end ElGamalSignature

namespace Sample

instance fact_twentyThree : Fact (Nat.Prime 23) := ⟨by norm_num⟩

/-- A key pair modulo 23, where 5 generates all units. -/
def smallKey : ElGamalKeyPair := { p := 23, g := 5, publicKey := 2, privateKey := 2 }

theorem smallKey_valid : smallKey.Valid 23 where
  modulus := rfl
  generator := by decide
  pair := by decide

/-- A hash with the numbers 9 and 3. -/
def smallHash (message : String) : Int := if message = "other" then 9 else 3

-- the signature of a message with the nonce one
example : ElGamalSignature.make smallHash 23 5 2 1 "" = .ok { r := some 5, s := some 15 } := by
  decide +kernel

end Sample

namespace ElGamalSignature

theorem forged_accepted_small :
    ElGamalSigner.verifyWithKey Sample.smallHash (some Sample.smallKey.signerKey) "other"
        { r := some 235, s := some 1 } = .ok true ∧
      ElGamal.verifySignature Sample.smallHash Sample.smallKey.signerKey "other"
        (some { r := some 235, s := some 1 }) = .ok true :=
  (forged_accepted (r := 5) (s := 15) Sample.smallHash Sample.smallKey_valid (m := "") (by
    decide) (by decide) "other").2 235 1 ⟨3, by decide, by decide, by decide, by decide⟩

/-- The quotient of 9 and 3 makes `(235, 1)` of the signature `(5, 15)`. -/
theorem forged_not_rejected :
    ¬ ∀ (m m' : String) (r s r' s' : Int),
      ElGamalSigner.verifyWithKey Sample.smallHash (some Sample.smallKey.signerKey) m
      { r := some r, s := some s } = .ok true →
      Int.gcd (Sample.smallHash m) 22 = 1 → Sample.smallHash m % 22 ≠ Sample.smallHash m' % 22 →
      Forges 23 (Sample.smallHash m) (Sample.smallHash m') r s r' s' →
      ElGamalSigner.verifyWithKey Sample.smallHash (some Sample.smallKey.signerKey) m'
      { r := some r', s := some s' } ≠ .ok true := by
  intro h
  exact h "" "other" 5 15 235 1 (by decide) (by decide) (by decide) ⟨3, by decide, by decide, by
    decide, by decide⟩ (by decide)

end ElGamalSignature

end Sxp
