-- SUMMARY: ElGamal signatures over any prime: signing ends, and with an accepted signature, exactly if the nonce is invertible modulo the prime less one.
import Mathlib.Tactic.NormNum.Prime
import Sxp.Base.Primality
import Sxp.Entity.ElGamalSigner
import Sxp.Sigma.Equations

/-!
# ElGamal signatures

`ElGamalSigner` and `ElGamal` sign in the same way. Their loops draw nonces until one has no
factor in common with `p`, while the inverse is the one modulo `p - 1`.
-/

namespace Sxp

/-- A key of a signer, with the parts that can be null. -/
structure SignerKey where
  p : Int
  g : Int
  publicKey : Option Int := none
  privateKey : Option Int := none
deriving Repr, DecidableEq

/-- The key object of a key pair. -/
def ElGamalKeyPair.signerKey (k : ElGamalKeyPair) : SignerKey :=
  { p := k.p, g := k.g, publicKey := some k.publicKey, privateKey := some k.privateKey }

variable {Message : Type} (hash : Message → Int)

namespace ElGamalSignature

/-- The loops go on while this is `false` for the number drawn. -/
def letsThrough (p k : Int) : Bool := !(k ≤ 1 || Int.gcd k p != 1)

/-- The signature with the nonce `k`. -/
def make (p g x k : Int) (message : Message) : Except JavaException ElGamalSignEntity := do
  let m := hash message
  let l ← BigInteger.modInverse k (p - 1)
  let r ← BigInteger.modPow g k p
  let s ← BigInteger.mod (m - r * x) (p - 1)
  return { r := some r, s := some (l * s) }

/-- `g ^ m = y ^ r * r ^ s` modulo `p`. -/
def check (p g y : Int) (message : Message) (sign : ElGamalSignEntity) :
    Except JavaException Bool := do
  let m := hash message
  let v ← BigInteger.modPow g m p
  let r ← notNull sign.r
  let yr ← BigInteger.modPow y r p
  let s ← notNull sign.s
  let rs ← BigInteger.modPow r s p
  let w ← BigInteger.mod (yr * rs) p
  return v == w

end ElGamalSignature

namespace ElGamalSigner

/-- `sign` with any key, where the loop ends with `k`. -/
def signWithKey (key : Option SignerKey) (k : Int) (message : Message) :
    Except JavaException ElGamalSignEntity :=
  match key with
  | none => .error (.runtime "Private key not set !")
  | some key =>
      match key.privateKey with
      | none => .error (.runtime "Private key not set !")
      | some x => ElGamalSignature.make hash key.p key.g x k message

/-- `verify` with any key. -/
def verifyWithKey (key : Option SignerKey) (message : Message) (sign : ElGamalSignEntity) :
    Except JavaException Bool :=
  match key with
  | none => .error (.runtime "public key not set !")
  | some key =>
      match key.publicKey with
      | none => .error (.runtime "public key not set !")
      | some y => ElGamalSignature.check hash key.p key.g y message sign

/-- The default parameters are a case of this. -/
theorem signWithKey_default (hash : String → Int) (x k : Int) (message : String) :
    signWithKey hash (some { p := ElGamalAsymKeyFactory.P, g := ElGamalAsymKeyFactory.G,
                             privateKey := some x }) k message =
      sign hash x k message := rfl

theorem verifyWithKey_default (hash : String → Int) (y : Option Int) (message : String)
    (sign : ElGamalSignEntity) :
    verifyWithKey hash (some { p := ElGamalAsymKeyFactory.P, g := ElGamalAsymKeyFactory.G,
                               publicKey := y }) message sign =
      verify hash y message sign := by
  cases y <;> rfl

end ElGamalSigner

namespace ElGamal

/-- `getMessageSignature`, where the loop ends with `k`. -/
def getMessageSignature (keys : SignerKey) (k : Int) (M : Message) :
    Except JavaException ElGamalSignEntity :=
  match keys.privateKey with
  | none => .error .nullPointer
  | some x => ElGamalSignature.make hash keys.p keys.g x k M

/-- `verifySignature`. It logs what is missing, and then uses it. -/
def verifySignature (keys : SignerKey) (M : Message) (sign : Option ElGamalSignEntity) :
    Except JavaException Bool := do
  let _ ← BigInteger.modPow keys.g (hash M) keys.p
  let y ← notNull keys.publicKey
  let sign ← notNull sign
  ElGamalSignature.check hash keys.p keys.g y M sign

end ElGamal

/-! ## Nonces -/

namespace ElGamalSignature

variable {hash} {p : ℕ} [Fact p.Prime] {key : ElGamalKeyPair} {k : Int} {message : Message}

theorem modInverse_total_iff {a m : Int} (hm : 0 < m) : (∃ l, BigInteger.modInverse a m = .ok l) ↔
    Int.gcd a m = 1 := by
  rw [BigInteger.modInverse, if_neg (Int.not_le.mpr hm)]
  rcases eq_or_ne m 1 with rfl | hone
  · simp
  · rw [if_neg hone]
    split <;> simp_all

/-- A signature is made only with a nonce that is invertible modulo `p - 1`. -/
theorem gcd_of_make {sign : ElGamalSignEntity} (hkey : key.Valid p)
    (h : make hash key.p key.g key.privateKey k message = .ok sign) :
    Int.gcd k (key.p - 1) = 1 := by
  have hpos : 0 < key.p - 1 := by
    have := (Fact.out : p.Prime).one_lt
    rw [hkey.modulus]
    omega
  obtain ⟨l, hl, -⟩ := Except.bind_eq_ok.mp h
  exact (modInverse_total_iff hpos).mp ⟨l, hl⟩

/-- With such a nonce one is made, and accepted for its message. -/
theorem make_check (hkey : key.Valid p) (hk : Int.gcd k (key.p - 1) = 1) :
    ∃ sign, make hash key.p key.g key.privateKey k message = .ok sign ∧
      check hash key.p key.g key.publicKey message sign = .ok true := by
  have hpos : 0 < key.p - 1 := by
    have := (Fact.out : p.Prime).one_lt
    rw [hkey.modulus]
    omega
  obtain ⟨l, hl⟩ := (modInverse_total_iff hpos).mpr hk
  have hr : BigInteger.modPow key.g k key.p = .ok ((((key.g : ZMod p) ^ k).val : ℕ) : Int) := by
    rw [hkey.modulus, BigInteger.modPow_eq_val hkey.generator]
  obtain ⟨r, hrdef⟩ : ∃ r : Int, r = ((((key.g : ZMod p) ^ k).val : ℕ) : Int) := ⟨_, rfl⟩
  have hrpow : (r : ZMod p) = (key.g : ZMod p) ^ k := by rw [hrdef, BigInteger.cast_val]
  rw [← hrdef] at hr
  obtain ⟨s, hs⟩ : ∃ s, s = l * ((hash message - r * key.privateKey) % (key.p - 1)) := ⟨_, rfl⟩
  have hsign : make hash key.p key.g key.privateKey k message =
      .ok { r := some r, s := some s } := by
    simp only [make, hl, hr, BigInteger.mod_of_pos hpos, Except.ok_bind, hs]
    rfl
  -- the exponents of the generator add up to the number of the message
  have hexponent : (key.privateKey * r + k * s) % (key.p - 1) = hash message % (key.p - 1) := by
    have hks : k * s % (key.p - 1) = (hash message - r * key.privateKey) % (key.p - 1) := by
      rw [hs, ← mul_assoc, mul_comm k l, ← BigInteger.emod_mul_emod, BigInteger.modInverse_mul hl,
        BigInteger.emod_mul_emod, one_mul, Int.emod_emod_of_dvd _ (dvd_refl _)]
    rw [Int.add_emod, hks, ← Int.add_emod]
    congr 1
    ring
  have hunit : (r : ZMod p) ≠ 0 := by
    rw [hrpow]
    exact zpow_ne_zero _ hkey.generator
  have hpowers : (key.publicKey : ZMod p) ^ r * (r : ZMod p) ^ s = (key.g : ZMod p) ^
      hash message := by
    rw [hkey.pair, hrpow, ← zpow_mul, ← zpow_mul, ← zpow_add₀ hkey.generator]
    refine BigInteger.zpow_congr hkey.generator ?_
    rw [← hkey.modulus]
    exact hexponent
  refine ⟨_, hsign, ?_⟩
  simp only [check, notNull, hkey.modulus, BigInteger.modPow_eq_val hkey.generator,
    BigInteger.modPow_eq_val hkey.inGroup.publicKey, BigInteger.modPow_eq_val hunit,
    BigInteger.mod_eq_val, Except.ok_bind, Int.cast_mul, BigInteger.cast_val, hpowers]
  simp [pure, Except.pure]

/-- Signing ends with an accepted signature if the nonce is invertible modulo `p - 1`, and only
then. -/
theorem make_check_iff (hkey : key.Valid p) :
    (∃ sign, make hash key.p key.g key.privateKey k message = .ok sign ∧
      check hash key.p key.g key.publicKey message sign = .ok true) ↔
        Int.gcd k (key.p - 1) = 1 := by
  constructor
  · rintro ⟨sign, h, -⟩
    exact gcd_of_make hkey h
  · exact make_check hkey

/-- The same for the two classes that sign. -/
theorem sign_accepted_iff (hash : Message → Int) (hkey : key.Valid p) (k : Int)
    (message : Message) :
    ((∃ sign, ElGamalSigner.signWithKey hash (some key.signerKey) k message = .ok sign ∧
        ElGamalSigner.verifyWithKey hash (some key.signerKey) message sign = .ok true) ↔
      Int.gcd k (key.p - 1) = 1) ∧
    ((∃ sign, ElGamal.getMessageSignature hash key.signerKey k message = .ok sign ∧
        ElGamal.verifySignature hash key.signerKey message (some sign) = .ok true) ↔
      Int.gcd k (key.p - 1) = 1) := by
  refine ⟨make_check_iff hkey, ?_⟩
  rw [← @make_check_iff _ hash p _ key k message hkey]
  have hpow : BigInteger.modPow key.g (hash message) key.p =
      .ok ((((key.g : ZMod p) ^ hash message).val : ℕ) : Int) := by
    rw [hkey.modulus, BigInteger.modPow_eq_val hkey.generator]
  simp only [ElGamal.getMessageSignature, ElGamal.verifySignature, ElGamalKeyPair.signerKey,
    notNull, hpow, Except.ok_bind]

end ElGamalSignature

/-! ## A safe prime -/

namespace Sample

theorem candidate_drawn_prime : (Primality.candidate 522637 1003).Prime :=
  Primality.prime_of_squares (by norm_num) 1003 3 (by decide +kernel) (by decide +kernel) (by
    decide +kernel)

theorem candidate_safe_prime : (2 * Primality.candidate 522637 1003 + 1).Prime := by
  refine Primality.prime_of_half rfl candidate_drawn_prime 2 ?_ (by decide +kernel)
  rw [Primality.pow_candidate]
  decide +kernel

/-- A prime of 1023 bits, as the loops draw it. -/
@[irreducible] def drawn : ℕ := Primality.candidate 522637 1003

/-- A safe prime, of the kind that the factory generates parameters with. -/
@[irreducible] def safePrime : ℕ := 2 * Primality.candidate 522637 1003 + 1

theorem drawn_prime : drawn.Prime := by
  unfold drawn
  exact candidate_drawn_prime

theorem safePrime_prime : safePrime.Prime := by
  unfold safePrime
  exact candidate_safe_prime

instance fact_safePrime : Fact safePrime.Prime := ⟨safePrime_prime⟩

/-- A key pair with the private key one. -/
def safeKey : ElGamalKeyPair := { p := safePrime, g := 2, publicKey := 2, privateKey := 1 }

theorem safeKey_valid : safeKey.Valid safePrime where
  modulus := rfl
  generator := by
    intro h
    have hdvd := (ZMod.intCast_zmod_eq_zero_iff_dvd 2 safePrime).mp h
    revert hdvd
    decide +kernel
  pair := (zpow_one _).symm

end Sample

namespace ElGamalSignature

theorem sign_accepted_iff_one :
    ((∃ sign, ElGamalSigner.signWithKey
        (fun _ : String => -5) (some Sample.safeKey.signerKey) 1 "" = .ok sign ∧
        ElGamalSigner.verifyWithKey
        (fun _ : String => -5) (some Sample.safeKey.signerKey) "" sign = .ok true) ↔
      Int.gcd 1 (Sample.safeKey.p - 1) = 1) ∧
    ((∃ sign, ElGamal.getMessageSignature
        (fun _ : String => -5) Sample.safeKey.signerKey 1 "" = .ok sign ∧
        ElGamal.verifySignature (fun _ : String => -5) Sample.safeKey.signerKey ""
        (some sign) = .ok true) ↔
      Int.gcd 1 (Sample.safeKey.p - 1) = 1) :=
  sign_accepted_iff (fun _ : String => -5) Sample.safeKey_valid 1 ""

/-- Half of the modulus less one is drawn, let through, and has no inverse. -/
theorem drawn_not_accepted :
    ¬ ∀ k : ℕ, k.Prime → BigInteger.bitLength k = 1023 → letsThrough Sample.safeKey.p k = true →
      ∃ sign, ElGamalSigner.signWithKey
        (fun _ : String => 5) (some Sample.safeKey.signerKey) k "" = .ok sign ∧
        ElGamalSigner.verifyWithKey (fun _ : String => 5) (some Sample.safeKey.signerKey) "" sign =
        .ok true := by
  intro h
  obtain ⟨sign, hsign, -⟩ :=
    h Sample.drawn Sample.drawn_prime (by decide +kernel) (by decide +kernel)
  have hgcd := gcd_of_make Sample.safeKey_valid hsign
  revert hgcd
  decide +kernel

end ElGamalSignature

end Sxp
