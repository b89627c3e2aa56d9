-- SUMMARY: ElGamal signatures over the default parameters: making and checking them, and what a check of a made signature decides.
import Mathlib.Tactic.ReduceModChar
import Sxp.Java.Modular
import Sxp.Choice.ChooseTrent

/-!
# ElGamalSigner

All signatures of entities are made and checked with keys of the factory, which have the
default parameters. `hash t` is the signed integer read from the SHA-256 digest of the bytes
of `t`; it enters the check only through the power of the generator.
-/

namespace Sxp

/-- An `ElGamalSignature`, and the entity it is kept in: both numbers can be null. -/
structure ElGamalSignEntity where
  r : Option Int := none
  s : Option Int := none
deriving Repr, DecidableEq

/-- The two keys of a user, as the factory makes them. -/
structure OwnerKey where
  privateKey : Int
  publicKey : Int
  valid : BigInteger.modPow ElGamalAsymKeyFactory.G privateKey ElGamalAsymKeyFactory.P =
    .ok publicKey

namespace ElGamalSigner

open ElGamalAsymKeyFactory (P G)

variable (hash : String → Int)

/-- `sign` with the nonce `k` that its loop ends with. -/
def sign (privateKey k : Int) (message : String) : Except JavaException ElGamalSignEntity := do
  let m := hash message
  let l ← BigInteger.modInverse k (P - 1)
  let r ← BigInteger.modPow G k P
  let s ← BigInteger.mod (m - r * privateKey) (P - 1)
  return { r := some r, s := some (l * s) }

/-- `verify` with a key of the factory whose public key was replaced. -/
def verify (publicKey : Option Int) (message : String) (sign : ElGamalSignEntity) :
    Except JavaException Bool :=
  match publicKey with
  | none => .error (.runtime "public key not set !")
  | some y => do
      let m := hash message
      let v ← BigInteger.modPow G m P
      let r ← notNull sign.r
      let yr ← BigInteger.modPow y r P
      let s ← notNull sign.s
      let rs ← BigInteger.modPow r s P
      let w ← BigInteger.mod (yr * rs) P
      return v == w

/-! ## The parameters -/

/-- The modulus as a natural number. -/
def modulus : ℕ := P.toNat

theorem P_eq : P = (modulus : Int) := by decide +kernel

theorem one_lt_modulus : 1 < modulus := by decide +kernel

theorem one_lt_P : 1 < P := by decide +kernel

/-- The generator is the public key of the exponent 1. -/
theorem modPow_G_one : BigInteger.modPow G 1 P = .ok G := by decide +kernel

/-- The generator's order divides the modulus less one. -/
theorem G_pow : ((G : Int) : ZMod modulus) ^ (modulus - 1) = 1 := by
  have hmodulus : modulus =
      124233341635855292420681698148845681014844866056212176632655173602444135581779341928584451946831820357622587249219477577145009300106828967466602146104562163160400103396735672041344557638270362523343149686623705761738910044071399582025053147811261321814632661084042311141045136246602979886564584763268994320823 := by
    decide +kernel
  rw [hmodulus, G]
  push_cast
  reduce_mod_char

/-- The generator as a unit. -/
def unitG : (ZMod modulus)ˣ where
  val := (G : Int)
  inv := ((G : Int) : ZMod modulus) ^ (modulus - 2)
  val_inv := by
    rw [← pow_succ', show modulus - 2 + 1 = modulus - 1 by decide +kernel]
    exact G_pow
  inv_val := by
    rw [← pow_succ, show modulus - 2 + 1 = modulus - 1 by decide +kernel]
    exact G_pow

theorem unitG_pow : unitG ^ (P - 1) = 1 := by
  have hnat : P - 1 = ((modulus - 1 : ℕ) : Int) := by decide +kernel
  rw [hnat, zpow_natCast]
  exact Units.ext G_pow

/-- Exponents count modulo the modulus less one. -/
theorem unitG_zpow_congr {a b : Int} (h : a % (P - 1) = b % (P - 1)) : unitG ^ a = unitG ^ b := by
  have hreduce : ∀ a : Int, unitG ^ a = unitG ^ (a % (P - 1)) := by
    intro a
    conv_lhs => rw [← Int.mul_ediv_add_emod a (P - 1)]
    rw [zpow_add, zpow_mul, unitG_pow, one_zpow, one_mul]
  rw [hreduce a, h, ← hreduce b]

instance neZero_modulus : NeZero modulus := ⟨by decide +kernel⟩

/-- The powers of the generator as the code computes them. -/
def power (m : Int) : Int := (((unitG ^ m : (ZMod modulus)ˣ) : ZMod modulus).val : ℕ)

theorem G_modPow (m : Int) : BigInteger.modPow G m P = .ok (power m) := by
  rw [P_eq]
  exact BigInteger.modPow_unit one_lt_modulus rfl m

theorem cast_power (m : Int) :
    (power m : ZMod modulus) = ((unitG ^ m : (ZMod modulus)ˣ) : ZMod modulus) := by
  rw [power, Int.cast_natCast, ZMod.natCast_zmod_val]

theorem power_nonneg (m : Int) : 0 ≤ power m := Int.natCast_nonneg _

theorem power_lt (m : Int) : power m < P := by
  rw [power, P_eq, Int.ofNat_lt]
  exact ZMod.val_lt _

/-- A number is a power of the generator if it is reduced and its residue is. -/
theorem eq_power {a m : Int}
    (ha : (a : ZMod modulus) = ((unitG ^ m : (ZMod modulus)ˣ) : ZMod modulus)) :
    a % P = power m := by
  rw [P_eq, power, ← ha, ZMod.val_intCast]

theorem modPow_power (m e : Int) : BigInteger.modPow (power m) e P = .ok (power (m * e)) := by
  have h := BigInteger.modPow_unit one_lt_modulus (cast_power m) e
  rwa [← P_eq, ← zpow_mul] at h

/-- Exponents count modulo the modulus less one. -/
theorem power_congr {a b : Int} (h : a % (P - 1) = b % (P - 1)) : power a = power b := by
  rw [power, unitG_zpow_congr h, power]

/-- Powers multiply to the power of the sum. -/
theorem power_mul_power (a b : Int) : power a * power b % P = power (a + b) :=
  eq_power (by rw [Int.cast_mul, cast_power, cast_power, zpow_add, Units.val_mul])

theorem publicKey_eq (key : OwnerKey) : key.publicKey = power key.privateKey := by
  have hvalid := key.valid
  rw [G_modPow, Except.ok.injEq] at hvalid
  exact hvalid.symm

/-! ## Checking -/

/-- The check gets to an answer: nothing it uses is null, and no inverse is missing. -/
def Checkable (publicKey : Option Int) (sign : ElGamalSignEntity) : Prop :=
  ∃ y r s, publicKey = some y ∧ sign.r = some r ∧ sign.s = some s ∧
    (0 ≤ r ∨ Int.gcd y P = 1) ∧ (0 ≤ s ∨ Int.gcd r P = 1)

/-- The two texts enter the check as the same power of the generator. -/
def SamePower (t u : String) : Prop :=
  BigInteger.modPow G (hash t) P = BigInteger.modPow G (hash u) P

instance decidableSamePower (t u : String) : Decidable (SamePower hash t u) :=
  inferInstanceAs (Decidable (_ = _))

variable {hash} {publicKey : Option Int} {sign : ElGamalSignEntity} {t u : String}

theorem SamePower.of_eq (h : t = u) : SamePower hash t u := by
  rw [h, SamePower]

theorem SamePower.symm (h : SamePower hash t u) : SamePower hash u t := Eq.symm h

theorem SamePower.trans {v : String} (h : SamePower hash t u) (h' : SamePower hash u v) :
    SamePower hash t v :=
  Eq.trans h h'

/-- A check compares the power for the text with a number that does not depend on the text. -/
theorem verify_of_checkable (h : Checkable publicKey sign) :
    ∃ w, ∀ t, verify hash publicKey t sign = (BigInteger.modPow G (hash t) P).map (· == w) := by
  obtain ⟨y, r, s, rfl, hr, hs, hyr, hrs⟩ := h
  obtain ⟨yr, hyr⟩ := (BigInteger.modPow_total_iff one_lt_P).mpr hyr
  obtain ⟨rs, hrs⟩ := (BigInteger.modPow_total_iff one_lt_P).mpr hrs
  refine ⟨yr * rs % P, fun t => ?_⟩
  have hmod := BigInteger.mod_of_pos (a := yr * rs) (lt_trans one_pos one_lt_P)
  simp only [verify, G_modPow, hr, hs, hyr, hrs, hmod, notNull, Except.ok_bind]
  rfl

theorem checkable_iff : (∃ b, verify hash publicKey t sign = .ok b) ↔ Checkable publicKey sign := by
  constructor
  · rintro ⟨b, h⟩
    cases publicKey with
    | none => cases h
    | some y =>
        simp only [verify, G_modPow, Except.ok_bind, Except.bind_eq_ok] at h
        obtain ⟨r, hr, yr, hyr, s, hs, rs, hrs, -⟩ := h
        exact ⟨y, r, s, rfl, notNull_eq_ok.mp hr, notNull_eq_ok.mp hs,
          (BigInteger.modPow_total_iff one_lt_P).mp ⟨yr, hyr⟩,
          (BigInteger.modPow_total_iff one_lt_P).mp ⟨rs, hrs⟩⟩
  · intro h
    obtain ⟨w, hw⟩ := @verify_of_checkable hash publicKey sign h
    exact ⟨_, by rw [hw, G_modPow]; rfl⟩

/-- Two texts that are accepted with one signature are the same power. -/
theorem samePower_of_verify (ht : verify hash publicKey t sign = .ok true)
    (hu : verify hash publicKey u sign = .ok true) : SamePower hash t u := by
  obtain ⟨w, hw⟩ := verify_of_checkable (checkable_iff.mp ⟨true, ht⟩)
  have hpower : ∀ t, verify hash publicKey t sign = .ok true →
      BigInteger.modPow G (hash t) P = .ok w := by
    intro t h
    rw [hw, G_modPow] at h
    simpa [G_modPow, Except.map] using h
  rw [SamePower, hpower t ht, hpower u hu]

/-! ## Signing -/

/-- A nonce that is invertible modulo `p - 1` makes a signature `(r, s)` with
`r = g ^ k` and `k * s = m - r * x` in the exponent. -/
theorem sign_eq {x k : Int} (hk : Int.gcd k (P - 1) = 1) (t : String) :
    ∃ s, ElGamalSigner.sign hash x k t = .ok { r := some (power k), s := some s } ∧
      k * s % (P - 1) = (hash t - power k * x) % (P - 1) := by
  have hpos : 0 < P - 1 := sub_pos.mpr one_lt_P
  obtain ⟨l, hl⟩ : ∃ l, BigInteger.modInverse k (P - 1) = .ok l := by
    have hone : P - 1 ≠ 1 := by decide +kernel
    exact ⟨_, by rw [BigInteger.modInverse, if_neg (not_le.mpr hpos), if_neg hone, if_pos hk]⟩
  refine ⟨l * ((hash t - power k * x) % (P - 1)), ?_, ?_⟩
  · simp only [ElGamalSigner.sign, hl, G_modPow, BigInteger.mod_of_pos hpos, Except.ok_bind]
    rfl
  · rw [← mul_assoc, mul_comm k l, ← BigInteger.emod_mul_emod, BigInteger.modInverse_mul hl,
      BigInteger.emod_mul_emod, one_mul, Int.emod_emod_of_dvd _ (dvd_refl _)]

/-- A made signature can be checked, and is accepted for the texts that are the same power. -/
theorem sign_verify (key : OwnerKey) {k : Int} (hk : Int.gcd k (P - 1) = 1) (t : String) :
    ∃ sign, ElGamalSigner.sign hash key.privateKey k t = .ok sign ∧
      ∀ u, verify hash (some key.publicKey) u sign =
        .ok (decide (SamePower hash u t)) := by
  obtain ⟨s, hsign, hs⟩ := @sign_eq hash key.privateKey k hk t
  -- the exponents of the generator add up to the number for the text
  have hexponent : power (key.privateKey * power k) * power (k * s) % P = power (hash t) := by
    rw [power_mul_power]
    refine power_congr ?_
    rw [Int.add_emod, hs, ← Int.add_emod]
    ring_nf
  refine ⟨_, hsign, fun u => ?_⟩
  have hpos : 0 < P := lt_trans one_pos one_lt_P
  simp only [verify, G_modPow, notNull, publicKey_eq, modPow_power,
    BigInteger.mod_of_pos hpos, hexponent, Except.ok_bind]
  simp [pure, Except.pure, SamePower, G_modPow, beq_eq_decide]

end ElGamalSigner

end Sxp
