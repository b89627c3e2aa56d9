-- SUMMARY: Transcripts of proofs of knowledge of an exponent: which ones are accepted, honest ones and simulated ones.
import Mathlib.Algebra.GroupWithZero.Units.Basic
import Mathlib.Tactic.Common

/-!
# Proofs of knowledge of an exponent

A prover shows that it knows an exponent `x` with `y = g ^ x`: it sends a mask `a`,
gets a challenge `c` and answers with a response `r`. Exponents are integers of
either sign, so the bases must not be zero.
-/

namespace SigmaProtocol

variable {G : Type*} [CommGroupWithZero G] {g y a : G}

/-- The verification equation for the base `g` and the public value `y`. -/
def Accepts (g y a : G) (c r : ℤ) : Prop := g ^ r = y ^ c * a

instance [DecidableEq G] (g y a : G) (c r : ℤ) : Decidable (Accepts g y a c r) :=
  inferInstanceAs (Decidable (_ = _))

/-- Whoever knows the exponent and the one of the mask is accepted, for every challenge. -/
theorem accepts_honest (hg : g ≠ 0) (x s c : ℤ) : Accepts g (g ^ x) (g ^ s) c (x * c + s) := by
  rw [Accepts, zpow_add₀ hg, zpow_mul]

theorem ne_zero_or_eq_zero {x : ℤ} (hx : g ^ x ≠ 0) : g ≠ 0 ∨ x = 0 := by
  by_contra h
  obtain ⟨hg, hne⟩ := not_or.mp h
  rw [not_not] at hg
  exact hx (by rw [hg, zero_zpow x hne])

/-- The same if only the public value is known not to be zero: the exponent of a zero base is
zero. -/
theorem accepts_honest_of_public {x : ℤ} (hx : g ^ x ≠ 0) (s c : ℤ) :
    Accepts g (g ^ x) (g ^ s) c (x * c + s) := by
  rcases ne_zero_or_eq_zero hx with hg | rfl
  · exact accepts_honest hg x s c
  · rw [Accepts, Int.zero_mul, Int.zero_add, zpow_zero, one_zpow, one_mul]

/-- The mask that goes with a challenge and a response is determined by them. -/
theorem accepts_iff_mask (hy : y ≠ 0) {c r : ℤ} : Accepts g y a c r ↔ a = g ^ r * (y ^ c)⁻¹ := by
  have hpow : y ^ c ≠ 0 := zpow_ne_zero c hy
  rw [Accepts, eq_mul_inv_iff_mul_eq₀ hpow, mul_comm a]
  exact eq_comm

/-- Whoever chooses the mask last needs to know nothing. -/
theorem accepts_simulated (hy : y ≠ 0) (c r : ℤ) : Accepts g y (g ^ r * (y ^ c)⁻¹) c r :=
  (accepts_iff_mask hy).mpr rfl

/-- Two accepted answers to one mask, for challenges that differ by one, give the exponent away. -/
theorem Accepts.exponent (hg : g ≠ 0) (hy : y ≠ 0) {c r r' : ℤ} (h : Accepts g y a c r)
    (h' : Accepts g y a (c + 1) r') : y = g ^ (r' - r) := by
  rw [Accepts] at h h'
  have hstep : g ^ r' = y * g ^ r := by
    calc g ^ r' = y ^ (c + 1) * a := h'
      _ = y * (y ^ c * a) := by rw [zpow_add_one₀ hy, mul_comm (y ^ c), mul_assoc]
      _ = y * g ^ r := by rw [h]
  rw [zpow_sub₀ hg, hstep, mul_div_assoc, div_self (zpow_ne_zero r hg), mul_one]

end SigmaProtocol
