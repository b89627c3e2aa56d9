-- SUMMARY: BigInteger arithmetic modulo n: inverses and powers for exponents of either sign, of units and, modulo a prime, of all residues but zero.
import Sxp.Base.Except
import Sxp.Java.Lang
import Mathlib.Data.ZMod.Basic
import Mathlib.Data.ZMod.Units
import Mathlib.Data.ZMod.Coprime
import Mathlib.Algebra.Field.ZMod
import Mathlib.FieldTheory.Finite.Basic

/-!
# BigInteger modulo n

`modPow` and `modInverse` of a unit modulo `n` do not throw, and compute in the group of
units. Modulo a prime every number is a unit that is not a multiple of the prime, and the
results are residues of a field.
-/

namespace Sxp

namespace BigInteger

/-- The left factor of a product need not be reduced first. -/
theorem emod_mul_emod (a b m : Int) : a % m * b % m = a * b % m := by
  rw [Int.mul_emod, Int.emod_emod_of_dvd _ (dvd_refl m), ← Int.mul_emod]

/-- The inverse is an inverse. -/
theorem modInverse_mul {a m inv : Int} (h : modInverse a m = .ok inv) : inv * a % m = 1 % m := by
  rw [modInverse] at h
  split at h
  · cases h
  · split at h
    · rename_i hone
      rw [hone, Int.emod_one, Int.emod_one]
    · split at h
      · rename_i hgcd
        rw [Except.ok.injEq] at h
        have hbezout := Int.gcd_eq_gcd_ab a m
        rw [hgcd] at hbezout
        calc inv * a % m = Int.gcdA a m * a % m := by
              rw [← h, emod_mul_emod]
          _ = (1 - m * Int.gcdB a m) % m := by
              congr 1
              push_cast at hbezout
              rw [hbezout]
              ring
          _ = 1 % m := Int.sub_mul_emod_self_left 1 m _
      · cases h

theorem gcd_of_modInverse {a m inv : Int} (hm : 1 < m) (h : modInverse a m = .ok inv) :
    Int.gcd a m = 1 := by
  have hpos : ¬ m ≤ 0 := by omega
  have hone : m ≠ 1 := by omega
  rw [modInverse, if_neg hpos, if_neg hone] at h
  by_contra hgcd
  rw [if_neg hgcd] at h
  cases h

/-- The next power is the power times the base. -/
theorem modPow_succ {a e m r : Int} (h : modPow a e m = .ok r) :
    modPow a (e + 1) m = .ok (r * a % m) := by
  have hm := modPow_pos h
  rw [modPow, if_neg (Int.not_le.mpr hm)] at h ⊢
  split at h
  · rename_i he
    rw [Except.ok.injEq] at h
    have he' : 0 ≤ e + 1 := by omega
    rw [if_pos he', ← h, Int.toNat_add he Int.one_nonneg, Int.toNat_one, pow_succ, emod_mul_emod]
  · rename_i he
    obtain ⟨inv, hinv, hr⟩ := Except.bind_eq_ok.mp h
    rw [Except.ok.injEq] at hr
    obtain ⟨n, hn⟩ := Int.eq_ofNat_of_zero_le (show 0 ≤ -e - 1 by omega)
    have hexp : (-e).toNat = n + 1 := by omega
    -- one of the inverses is used up
    have hcancel : r * a % m = inv ^ n % m := by
      calc r * a % m = inv ^ n * (inv * a) % m := by
            rw [← hr, hexp, emod_mul_emod, pow_succ, mul_assoc]
        _ = inv ^ n * 1 % m := by
            rw [Int.mul_emod, modInverse_mul hinv, ← Int.mul_emod]
        _ = inv ^ n % m := by rw [mul_one]
    rw [hcancel]
    rcases Decidable.em (0 ≤ e + 1) with he' | he'
    · have hzero : n = 0 := by omega
      have hnext : (e + 1).toNat = 0 := by omega
      rw [if_pos he', hnext, hzero, pow_zero, pow_zero]
    · have hnext : (-(e + 1)).toNat = n := by omega
      rw [if_neg he', hinv, Except.ok_bind, hnext]

/-- A power is computed exactly if its exponent does not ask for an inverse that is missing. -/
theorem modPow_total_iff {a m e : Int} (hm : 1 < m) :
    (∃ r, modPow a e m = .ok r) ↔ 0 ≤ e ∨ Int.gcd a m = 1 := by
  have hpos : ¬ m ≤ 0 := by omega
  have hone : m ≠ 1 := by omega
  simp only [modPow, modInverse, if_neg hpos, if_neg hone]
  by_cases he : 0 ≤ e
  · simp [he]
  · by_cases hgcd : Int.gcd a m = 1
    · simp [he, hgcd]
    · simp [he, hgcd, bind, Except.bind]

/-- A power is reduced. -/
theorem modPow_emod {a m e r : Int} (h : modPow a e m = .ok r) : r % m = r := by
  have hm := modPow_pos h
  rw [modPow, if_neg (Int.not_le.mpr hm)] at h
  split at h
  · rw [← Except.ok.inj h, Int.emod_emod_of_dvd _ (dvd_refl m)]
  · obtain ⟨inv, -, hr⟩ := Except.bind_eq_ok.mp h
    rw [← Except.ok.inj hr, Int.emod_emod_of_dvd _ (dvd_refl m)]

/-- A factor and its inverse leave a reduced number as it was. -/
theorem mod_mul_modInverse {a b inv m : Int} (hm : 0 < m) (hb : b % m = b)
    (h : modInverse a m = .ok inv) : mod (a * (b * inv)) m = .ok b := by
  rw [mod_of_pos hm, Except.ok.injEq]
  calc a * (b * inv) % m = b * (inv * a) % m := by
        congr 1
        ring
    _ = b * 1 % m := by rw [Int.mul_emod, modInverse_mul h, ← Int.mul_emod]
    _ = b := by rw [mul_one, hb]

/-! ## Units -/

section Units

variable {n : ℕ} {a : Int} {u : (ZMod n)ˣ}

theorem gcd_unit (ha : (a : ZMod n) = u) : Int.gcd a n = 1 := by
  have hunit : IsUnit (a : ZMod n) := ha ▸ u.isUnit
  rw [ZMod.coe_int_isUnit_iff_isCoprime, Int.isCoprime_iff_gcd_eq_one] at hunit
  rwa [Int.gcd_comm]

theorem modInverse_unit (hn : 1 < n) (ha : (a : ZMod n) = u) :
    modInverse a n = .ok ((((u⁻¹ : (ZMod n)ˣ) : ZMod n).val : ℕ) : Int) := by
  have : NeZero n := ⟨by omega⟩
  have hpos : ¬ (n : Int) ≤ 0 := by omega
  have hone : (n : Int) ≠ 1 := by omega
  have hgcd := gcd_unit ha
  -- Bézout's identity read modulo `n`
  have hbezout : (u : ZMod n) * (Int.gcdA a n : ZMod n) = 1 := by
    have h := congrArg (Int.cast : Int → ZMod n) (Int.gcd_eq_gcd_ab a n)
    rw [hgcd] at h
    push_cast at h
    rw [ZMod.natCast_self, zero_mul, add_zero, ha] at h
    exact h.symm
  rw [modInverse, if_neg hpos, if_neg hone, if_pos hgcd, Units.inv_eq_of_mul_eq_one_right hbezout,
    ZMod.val_intCast]

theorem modPow_unit (hn : 1 < n) (ha : (a : ZMod n) = u) (e : Int) :
    modPow a e n = .ok ((((u ^ e : (ZMod n)ˣ) : ZMod n).val : ℕ) : Int) := by
  have : NeZero n := ⟨by omega⟩
  have hpos : ¬ (n : Int) ≤ 0 := by omega
  rw [modPow, if_neg hpos]
  split
  · rename_i he
    obtain ⟨k, rfl⟩ := Int.eq_ofNat_of_zero_le he
    have hpow : ((u ^ (k : Int) : (ZMod n)ˣ) : ZMod n) = ((a ^ k : Int) : ZMod n) := by
      rw [zpow_natCast, Units.val_pow_eq_pow_val, Int.cast_pow, ha]
    rw [Int.toNat_natCast, hpow, ZMod.val_intCast]
  · rename_i he
    obtain ⟨k, hk⟩ := Int.eq_ofNat_of_zero_le (show 0 ≤ -e by omega)
    have hpow : ((u ^ e : (ZMod n)ˣ) : ZMod n) =
        (((((u⁻¹ : (ZMod n)ˣ) : ZMod n).val : ℕ) ^ k : Int) : ZMod n) := by
      rw [show e = -(k : Int) by omega, zpow_neg, ← inv_zpow, zpow_natCast,
        Units.val_pow_eq_pow_val, Int.cast_pow, Int.cast_natCast, ZMod.natCast_zmod_val]
    rw [modInverse_unit hn ha, Except.ok_bind, hk, Int.toNat_natCast, hpow, ZMod.val_intCast]

end Units

/-! ## Prime moduli -/

variable {p : ℕ} [Fact p.Prime]

theorem prime_pos : (0 : Int) < p := Int.natCast_pos.mpr (Fact.out : p.Prime).pos

theorem mod_eq_val (a : Int) : mod a p = .ok ((a : ZMod p).val : Int) := by
  rw [mod_of_pos prime_pos, ZMod.val_intCast]

/-- The representative of a residue is that residue. -/
theorem cast_val (x : ZMod p) : (((x.val : ℕ) : Int) : ZMod p) = x := by
  rw [Int.cast_natCast, ZMod.natCast_zmod_val]

theorem val_eq_iff {x y : ZMod p} : ((x.val : ℕ) : Int) = y.val ↔ x = y := by
  rw [Int.natCast_inj]
  exact (ZMod.val_injective p).eq_iff

theorem modInverse_eq_val {a : Int} (ha : (a : ZMod p) ≠ 0) :
    modInverse a p = .ok ((a : ZMod p)⁻¹.val : Int) := by
  rw [modInverse_unit (Fact.out : p.Prime).one_lt (Units.val_mk0 ha).symm, Units.val_inv_eq_inv_val,
    Units.val_mk0]

theorem modPow_eq_val {a : Int} (ha : (a : ZMod p) ≠ 0) (e : Int) :
    modPow a e p = .ok ((((a : ZMod p) ^ e).val : ℕ) : Int) := by
  rw [modPow_unit (Fact.out : p.Prime).one_lt (Units.val_mk0 ha).symm, Units.val_zpow_eq_zpow_val,
    Units.val_mk0]

/-- Powers of zero are only asked for with exponents that are not negative. -/
theorem modPow_eq_val_of_nonneg {a e : Int} (h : (a : ZMod p) ≠ 0 ∨ 0 ≤ e) :
    modPow a e p = .ok ((((a : ZMod p) ^ e).val : ℕ) : Int) := by
  rcases h with ha | he
  · exact modPow_eq_val ha e
  · obtain ⟨n, rfl⟩ := Int.eq_ofNat_of_zero_le he
    rw [modPow_natCast prime_pos, zpow_natCast, ← Int.cast_pow, ZMod.val_intCast]

theorem gcd_prime_iff {a : Int} : Int.gcd a p = 1 ↔ (a : ZMod p) ≠ 0 := by
  rw [← isUnit_iff_ne_zero, ZMod.coe_int_isUnit_iff_isCoprime, Int.isCoprime_iff_gcd_eq_one,
    Int.gcd_comm]

/-- A power is computed exactly if its base is not zero or its exponent not negative. -/
theorem modPow_total_iff_prime {a e : Int} :
    (∃ r, modPow a e p = .ok r) ↔ 0 ≤ e ∨ (a : ZMod p) ≠ 0 := by
  rw [modPow_total_iff (by exact_mod_cast (Fact.out : p.Prime).one_lt), gcd_prime_iff]

theorem modInverse_total_iff_prime {a : Int} : (∃ i, modInverse a p = .ok i) ↔
    (a : ZMod p) ≠ 0 := by
  constructor
  · rintro ⟨i, hi⟩
    exact gcd_prime_iff.mp (gcd_of_modInverse (by exact_mod_cast (Fact.out : p.Prime).one_lt) hi)
  · exact fun ha => ⟨_, modInverse_eq_val ha⟩

/-- The inverse of a power is computed exactly if the base is not zero or there is nothing to
invert. -/
theorem modInverse_modPow_total_iff {a e : Int} :
    (∃ r, modPow a e p = .ok r ∧ ∃ i, modInverse r p = .ok i) ↔ e = 0 ∨ (a : ZMod p) ≠ 0 := by
  constructor
  · rintro ⟨r, hr, hi⟩
    by_contra hzero
    obtain ⟨he, ha⟩ := not_or.mp hzero
    rw [not_not] at ha
    have he' : 0 ≤ e := (modPow_total_iff_prime.mp ⟨r, hr⟩).resolve_right (not_not.mpr ha)
    rw [modPow_eq_val_of_nonneg (.inr he'), ha, zero_zpow e he, ZMod.val_zero,
      Except.ok.injEq] at hr
    rw [modInverse_total_iff_prime, ← hr] at hi
    exact hi Int.cast_zero
  · intro h
    have hpow : (a : ZMod p) ^ e ≠ 0 := by
      rcases h with rfl | ha
      · rw [zpow_zero]
        exact one_ne_zero
      · exact zpow_ne_zero e ha
    refine ⟨_, modPow_eq_val_of_nonneg (h.symm.imp_right fun he => he.ge),
      modInverse_total_iff_prime.mpr ?_⟩
    rwa [cast_val]

/-- Exponents count modulo the modulus less one. -/
theorem zpow_pred_eq_one {a : ZMod p} (ha : a ≠ 0) : a ^ ((p : Int) - 1) = 1 := by
  have hpred : (p : Int) - 1 = ((p - 1 : ℕ) : Int) := by
    have := (Fact.out : p.Prime).one_le
    omega
  rw [hpred, zpow_natCast]
  exact ZMod.pow_card_sub_one_eq_one ha

theorem zpow_congr {a : ZMod p} (ha : a ≠ 0) {e e' : Int} (h : e % (p - 1) = e' % (p - 1)) :
    a ^ e = a ^ e' := by
  have hreduce : ∀ e : Int, a ^ e = a ^ (e % (p - 1)) := by
    intro e
    conv_lhs => rw [← Int.mul_ediv_add_emod e (p - 1)]
    rw [zpow_add₀ ha, zpow_mul, zpow_pred_eq_one ha, one_zpow, one_mul]
  rw [hreduce e, h, ← hreduce e']

/-- Two powers in a row, the second of them not zero, have a base that is not zero. -/
theorem base_ne_zero {a e r r' : Int} (h : modPow a e p = .ok r) (h' : modPow a (e + 1) p = .ok r')
    (hr' : (r' : ZMod p) ≠ 0) : (a : ZMod p) ≠ 0 := by
  intro ha
  refine hr' ?_
  obtain rfl : r * a % p = r' := Except.ok.inj ((modPow_succ h).symm.trans h')
  rw [ZMod.intCast_mod, Int.cast_mul, ha, mul_zero]

end BigInteger

end Sxp
