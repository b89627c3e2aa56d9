-- SUMMARY: The block engine of ElGamal encryption over the default parameters: whoever holds the private key decrypts what was encrypted.
import Sxp.Entity.ElGamalSigner

/-!
# ElGamalEngine

The library's engine reads a block as a number, and writes two numbers of 128 bytes. Its
exponent is drawn at random.
-/

namespace Sxp

namespace ElGamalEngine

open ElGamalAsymKeyFactory (P G)

/-- The last `len` bytes of `n`. -/
def toBytes : Nat → Int → List UInt8
  | 0, _ => []
  | len + 1, n => toBytes len (n / 256) ++ [UInt8.ofNat (n % 256).toNat]

/-- `processBlock` of an engine that encrypts, for a modulus of 1024 bits. -/
def encrypt (random : Nat) (p g publicKey : Int) (block : List UInt8) :
    Except JavaException (List UInt8) := do
  let m := BigInteger.magnitude block
  if p ≤ m then .error (.runtime "input too large for ElGamal cipher.\n")
  else
    let gamma ← BigInteger.modPow g random p
    let yk ← BigInteger.modPow publicKey random p
    let phi ← BigInteger.mod (m * yk) p
    return toBytes 128 gamma ++ toBytes 128 phi

/-- `processBlock` of an engine that decrypts. -/
def decrypt (p _g privateKey : Int) (cipher : List UInt8) : Except JavaException (List UInt8) := do
  let gamma := BigInteger.magnitude (cipher.take 128)
  let phi := BigInteger.magnitude (cipher.drop 128)
  let shared ← BigInteger.modPow gamma (p - 1 - privateKey) p
  let m ← BigInteger.mod (shared * phi) p
  return (toBytes 128 m).dropWhile (· == 0)

theorem length_toBytes (len : Nat) (n : Int) : (toBytes len n).length = len := by
  induction len generalizing n with
  | zero => rfl
  | succ len ih => rw [toBytes, List.length_append, ih]; rfl

theorem magnitude_toBytes {len : Nat} {n : Int} (hn : 0 ≤ n) (hlt : n < 256 ^ len) :
    BigInteger.magnitude (toBytes len n) = n := by
  induction len generalizing n with
  | zero =>
      rw [pow_zero] at hlt
      rw [show n = 0 by omega]
      rfl
  | succ len ih =>
      have hdiv : n / 256 < 256 ^ len := by
        rw [pow_succ] at hlt
        exact Int.ediv_lt_of_lt_mul (by decide) hlt
      have hsmall : (n % 256).toNat < UInt8.size := show (n % 256).toNat < 256 by omega
      have hbyte : ((UInt8.ofNat (n % 256).toNat).toNat : Int) = n % 256 := by
        rw [UInt8.toNat_ofNat_of_lt' hsmall]
        omega
      rw [toBytes, BigInteger.magnitude_append, ih (by omega) hdiv, hbyte]
      omega

/-- Bytes are read back behind as many zeros as there is room for. -/
theorem toBytes_magnitude (k : Nat) (bs : List UInt8) :
    toBytes (bs.length + k) (BigInteger.magnitude bs) = List.replicate k 0 ++ bs := by
  induction bs using List.reverseRecOn with
  | nil =>
      rw [List.length_nil, Nat.zero_add, List.append_nil, show BigInteger.magnitude [] = 0 from rfl]
      induction k with
      | zero => rfl
      | succ k ih => rw [toBytes, Int.zero_ediv, ih, List.replicate_succ']; rfl
  | append_singleton bs b ih =>
      have hbyte : (b.toNat : Int) < 256 := by exact_mod_cast b.toNat_lt
      have hdiv : (256 * BigInteger.magnitude bs + b.toNat) / 256 =
          BigInteger.magnitude bs := by omega
      have hmod : ((256 * BigInteger.magnitude bs + b.toNat) % 256).toNat = b.toNat := by omega
      rw [List.length_append, List.length_singleton,
        show bs.length + 1 + k = bs.length + k + 1 by omega,
        toBytes, BigInteger.magnitude_append, hdiv, hmod, ih, UInt8.ofNat_toNat, List.append_assoc]

/-- The owner of a key decrypts the blocks that are encrypted for it, if they are short enough
and do not start with a zero. -/
theorem decrypt_encrypt (key : OwnerKey) (random : Nat) {b : UInt8} {bs : List UInt8} (hb : b ≠ 0)
    (hlength : bs.length < 127) :
    ∃ cipher, encrypt random P G key.publicKey (b :: bs) = .ok cipher ∧
      decrypt P G key.privateKey cipher = .ok (b :: bs) := by
  set m := BigInteger.magnitude (b :: bs) with hm
  have hpos : 0 < P := lt_trans one_pos ElGamalSigner.one_lt_P
  have hsize : P ≤ 256 ^ 128 := by decide +kernel
  have hlt : m < P := by
    refine (BigInteger.magnitude_lt (b :: bs)).trans_le ?_
    refine (pow_le_pow_right₀ (by decide) (show (b :: bs).length ≤ 127 by
      simpa using hlength)).trans ?_
    decide +kernel
  have hread : ∀ n : Int, 0 ≤ n → n < P → BigInteger.magnitude (toBytes 128 n) = n :=
    fun n hn hp => magnitude_toBytes hn (lt_of_lt_of_le hp hsize)
  have hencrypt : encrypt random P G key.publicKey (b :: bs) =
      .ok (toBytes 128 (ElGamalSigner.power random) ++
        toBytes 128 (m * ElGamalSigner.power (key.privateKey * random) % P)) := by
    simp only [encrypt, ← hm, if_neg (not_le.mpr hlt), ElGamalSigner.G_modPow,
      ElGamalSigner.publicKey_eq,
      ElGamalSigner.modPow_power, BigInteger.mod_of_pos hpos, Except.ok_bind]
    rfl
  refine ⟨_, hencrypt, ?_⟩
  -- the shared power cancels
  have hcancel : ElGamalSigner.power (random * (P - 1 - key.privateKey)) *
      (m * ElGamalSigner.power (key.privateKey * random) % P) % P = m := by
    have hone : ElGamalSigner.power (random * (P - 1 - key.privateKey)) *
        ElGamalSigner.power (key.privateKey * random) % P = 1 := by
      rw [ElGamalSigner.power_mul_power]
      have hzero : (random * (P - 1 - key.privateKey) + key.privateKey * random) % (P - 1) = 0 %
          (P - 1) := by
        rw [show random * (P - 1 - key.privateKey) + key.privateKey * random = random *
          (P - 1) by ring, Int.mul_emod_left, Int.zero_emod]
      rw [ElGamalSigner.power_congr hzero, ← ElGamalSigner.eq_power (a := 1) (by simp)]
      exact Int.emod_eq_of_lt (by decide) ElGamalSigner.one_lt_P
    rw [mul_comm, BigInteger.emod_mul_emod, mul_right_comm, mul_assoc, mul_comm m,
      ← BigInteger.emod_mul_emod, hone, one_mul]
    exact Int.emod_eq_of_lt (BigInteger.magnitude_nonneg _) hlt
  have hbytes : (toBytes 128 m).dropWhile (· == 0) = b :: bs := by
    have h := toBytes_magnitude (127 - bs.length) (b :: bs)
    rw [List.length_cons, show bs.length + 1 + (127 - bs.length) = 128 by omega] at h
    rw [hm, h, List.dropWhile_append_of_pos (by simp),
      List.dropWhile_cons_of_neg (by simpa using hb)]
  have hphi : 0 ≤ m * ElGamalSigner.power (key.privateKey * random) % P :=
    Int.emod_nonneg _ hpos.ne'
  simp only [decrypt, List.take_left' (length_toBytes ..), List.drop_left' (length_toBytes ..),
    hread _ (ElGamalSigner.power_nonneg _) (ElGamalSigner.power_lt _),
    hread _ hphi (Int.emod_lt_of_pos _ hpos),
    ElGamalSigner.modPow_power, BigInteger.mod_of_pos hpos, hcancel, Except.ok_bind]
  exact congrArg Except.ok hbytes

end ElGamalEngine

end Sxp
