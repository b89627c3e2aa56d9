-- SUMMARY: Lucas' primality test for numbers of the form q * 2 ^ (n + 1) + 1, by repeated squaring.
import Mathlib.NumberTheory.LucasPrimality
import Mathlib.Tactic.Ring

/-!
# Primes of the form `q * 2 ^ (n + 1) + 1`

The powers that Lucas' test asks for are computed by squaring, so that the test can
be evaluated for large numbers.
-/

namespace Primality

/-- The numbers the test is for. -/
def candidate (q n : ℕ) : ℕ := q * 2 ^ (n + 1) + 1

/-- `a` squared `n` times modulo `m`. -/
def squares (m : ℕ) : ℕ → ℕ → ℕ
  | 0, a => a % m
  | n + 1, a => squares m n (a * a % m)

theorem squares_eq (m n a : ℕ) : squares m n a = a ^ 2 ^ n % m := by
  induction n generalizing a with
  | zero => simp [squares]
  | succ n ih =>
      calc squares m (n + 1) a = (a * a % m) ^ 2 ^ n % m := ih (a * a % m)
        _ = (a * a) ^ 2 ^ n % m := (Nat.pow_mod (a * a) (2 ^ n) m).symm
        _ = a ^ 2 ^ (n + 1) % m := by
            congr 1
            rw [pow_succ 2 n]
            ring

theorem pow_eq_one_iff {m : ℕ} (hm : 1 < m) (a n : ℕ) : (a : ZMod m) ^ n = 1 ↔ a ^ n % m = 1 := by
  rw [← Nat.cast_pow, ← Nat.cast_one, ZMod.natCast_eq_natCast_iff', Nat.mod_eq_of_lt hm]

/-- The test: `a` generates the units. -/
theorem prime_of_squares {q : ℕ} (hq : q.Prime) (n a : ℕ)
    (hone : squares (candidate q n) (n + 1) (a ^ q) = 1)
    (hhalf : squares (candidate q n) n (a ^ q) ≠ 1)
    (hpart : squares (candidate q n) (n + 1) a ≠ 1) : (candidate q n).Prime := by
  have hpos : 0 < q * 2 ^ (n + 1) := Nat.mul_pos hq.pos (Nat.pow_pos Nat.two_pos)
  have hlt : 1 < candidate q n := Nat.succ_lt_succ hpos
  have hsub : candidate q n - 1 = q * 2 ^ (n + 1) := rfl
  rw [squares_eq, ← pow_mul] at hone hhalf
  rw [squares_eq] at hpart
  refine lucas_primality (candidate q n) (a : ZMod (candidate q n)) ?_ ?_
  · rw [hsub, pow_eq_one_iff hlt]
    exact hone
  · intro r hr hdvd
    rw [hsub] at hdvd ⊢
    rcases hr.dvd_mul.mp hdvd with hrq | hrtwo
    · rw [(Nat.prime_dvd_prime_iff_eq hr hq).mp hrq, Nat.mul_div_cancel_left _ hq.pos, Ne,
        pow_eq_one_iff hlt]
      exact hpart
    · rw [(Nat.prime_dvd_prime_iff_eq hr Nat.prime_two).mp (hr.dvd_of_dvd_pow hrtwo), pow_succ,
        ← mul_assoc, Nat.mul_div_cancel _ Nat.two_pos, Ne, pow_eq_one_iff hlt]
      exact hhalf

/-- Twice a prime `q` and one: the test needs the power `q` of `a` only. -/
theorem prime_of_half {m q : ℕ} (hm : m = 2 * q + 1) (hq : q.Prime) (a : ℕ)
    (hhalf : a ^ q % m = 2 * q) (hpart : a * a % m ≠ 1) : m.Prime := by
  have hlt : 2 < m := by
    have := hq.one_lt
    omega
  have hpred : m - 1 = 2 * q := by omega
  have hnegative : (a : ZMod m) ^ q = -1 := by
    rw [eq_neg_iff_add_eq_zero, ← Nat.cast_pow, ← Nat.cast_one, ← Nat.cast_add,
      ZMod.natCast_eq_zero_iff,
      Nat.dvd_iff_mod_eq_zero, Nat.add_mod, hhalf, Nat.mod_eq_of_lt (Nat.one_lt_two.trans hlt),
      ← hm, Nat.mod_self]
  refine lucas_primality m (a : ZMod m) ?_ ?_
  · rw [hpred, mul_comm, pow_mul, hnegative, neg_one_sq]
  · intro r hr hdvd
    rw [hpred] at hdvd ⊢
    rcases hr.dvd_mul.mp hdvd with hrtwo | hrq
    · rw [(Nat.prime_dvd_prime_iff_eq hr Nat.prime_two).mp hrtwo,
        Nat.mul_div_cancel_left _ Nat.two_pos, hnegative]
      have : Fact (2 < m) := ⟨hlt⟩
      exact ZMod.neg_one_ne_one
    · rw [(Nat.prime_dvd_prime_iff_eq hr hq).mp hrq, Nat.mul_div_cancel _ hq.pos, Ne,
        pow_eq_one_iff (Nat.one_lt_two.trans hlt), sq]
      exact hpart

/-- The power whose exponent is a candidate itself. -/
theorem pow_candidate (m q n a : ℕ) :
    a ^ candidate q n % m = squares m (n + 1) (a ^ q) * a % m := by
  rw [candidate, pow_succ, pow_mul, squares_eq, Nat.mod_mul_mod]

end Primality
