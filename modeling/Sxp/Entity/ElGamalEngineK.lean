-- SUMMARY: The project's own ElGamal block engine, for primes of any length: what it encrypts it decrypts, less the zeros at the front.
import Sxp.Entity.ElGamalEngine
import Sxp.Entity.SignatureForgery
import Sxp.Java.Arrays

/-!
# ElGamalEngineK

A block is encrypted as two numbers below `p`. Each of them fills one half of the output from
the right, and decryption cuts the cipher in the middle.
-/

namespace Sxp

/-! ## Numbers as bytes -/

namespace BigInteger

open ElGamalEngine (toBytes length_toBytes magnitude_toBytes toBytes_magnitude)

/-- `n.toByteArray()`: the shortest two's-complement bytes, which hold one sign bit at least. -/
def toByteArray (n : Int) : List UInt8 := toBytes (bitLength n / 8 + 1) n

/-- What the library documents of `BigIntegers.asUnsignedByteArray`: a positive number becomes its
bytes, none of them for a sign. -/
def Unsigned (asUnsignedByteArray : Int → List UInt8) : Prop :=
  ∀ n, 0 < n → magnitude (asUnsignedByteArray n) = n ∧ (asUnsignedByteArray n).head? ≠ some 0

variable {n : Int}

theorem bitLength_le_iff (hn : 0 ≤ n) {l : Nat} : bitLength n ≤ l ↔ n < 2 ^ l := by
  obtain ⟨n, rfl⟩ := Int.eq_ofNat_of_zero_le hn
  have hcast : (n : Int) < 2 ^ l ↔ n < 2 ^ l := by exact_mod_cast Iff.rfl
  rw [hcast]
  change (if n = 0 then 0 else n.log2 + 1) ≤ l ↔ _
  split
  · rename_i hzero
    rw [hzero]
    exact iff_of_true (Nat.zero_le l) (Nat.two_pow_pos l)
  · rename_i hne
    rw [Nat.succ_le_iff, Nat.log2_lt hne]

theorem lt_pow_iff (hn : 0 ≤ n) {l : Nat} : n < 256 ^ l ↔ bitLength n ≤ 8 * l := by
  rw [bitLength_le_iff hn, pow_mul]
  norm_num

/-- More bytes than needed start with zeros. -/
theorem toBytes_add (hn : 0 ≤ n) {l : Nat} (hlt : n < 256 ^ l) (k : Nat) :
    toBytes (l + k) n = List.replicate k 0 ++ toBytes l n := by
  have h := toBytes_magnitude k (toBytes l n)
  rwa [length_toBytes, magnitude_toBytes hn hlt] at h

/-- The first byte counts, so that the number needs all of them. -/
theorem pow_le_magnitude {b : UInt8} (hb : b ≠ 0) (bytes : List UInt8) :
    256 ^ bytes.length ≤ magnitude (b :: bytes) := by
  by_contra hlt
  have hzeros := toBytes_add (magnitude_nonneg (b :: bytes)) (not_le.mp hlt) 1
  have hself := toBytes_magnitude 0 (b :: bytes)
  rw [List.length_cons, Nat.add_zero, hzeros] at hself
  exact hb (List.cons.inj hself).1.symm

theorem length_le_of_magnitude {bytes bytes' : List UInt8} (h : bytes.head? ≠ some 0)
    (heq : magnitude bytes = magnitude bytes') : bytes.length ≤ bytes'.length := by
  cases bytes with
  | nil => exact Nat.zero_le _
  | cons b bytes =>
      have hlow := pow_le_magnitude (fun hb => h (congrArg some hb)) bytes
      have hhigh := magnitude_lt bytes'
      rw [heq] at hlow
      have hpow : (256 : Int) ^ bytes.length < 256 ^ bytes'.length := hlow.trans_lt hhigh
      exact (pow_lt_pow_iff_right₀ (by norm_num)).mp hpow

/-- Without zeros in front, there is one way to write a number. -/
theorem eq_of_magnitude {bytes bytes' : List UInt8} (h : bytes.head? ≠ some 0)
    (h' : bytes'.head? ≠ some 0) (heq : magnitude bytes = magnitude bytes') : bytes = bytes' := by
  have hlength : bytes.length = bytes'.length :=
    Nat.le_antisymm (length_le_of_magnitude h heq) (length_le_of_magnitude h' heq.symm)
  calc bytes = toBytes (bytes.length + 0) (magnitude bytes) := (toBytes_magnitude 0 bytes).symm
    _ = toBytes (bytes'.length + 0) (magnitude bytes') := by rw [hlength, heq]
    _ = bytes' := toBytes_magnitude 0 bytes'

theorem head?_dropWhile_zeros (bytes : List UInt8) : (bytes.dropWhile (· == 0)).head? ≠ some 0 := by
  intro hhead
  have hnot := List.head?_dropWhile_not (· == (0 : UInt8)) bytes
  rw [hhead] at hnot
  exact absurd hnot (by decide)

theorem magnitude_dropWhile_zeros (bytes : List UInt8) :
    magnitude (bytes.dropWhile (· == 0)) = magnitude bytes := by
  induction bytes with
  | nil => rfl
  | cons b bytes ih =>
      by_cases hb : b = 0
      · have hskip : magnitude (b :: bytes) = magnitude bytes := by rw [hb]; rfl
        rw [List.dropWhile_cons_of_pos (by simpa using hb), ih, hskip]
      · rw [List.dropWhile_cons_of_neg (by simpa using hb)]

/-- The bytes of the number that a block stands for, without the zeros that it starts with. -/
theorem Unsigned.magnitude {asUnsignedByteArray : Int → List UInt8}
    (h : Unsigned asUnsignedByteArray) {bytes : List UInt8} (hne : magnitude bytes ≠ 0) :
    asUnsignedByteArray (BigInteger.magnitude bytes) = bytes.dropWhile (· == 0) := by
  have hpos : 0 < BigInteger.magnitude bytes := lt_of_le_of_ne (magnitude_nonneg bytes) hne.symm
  obtain ⟨hvalue, hhead⟩ := h _ hpos
  exact eq_of_magnitude hhead (head?_dropWhile_zeros bytes)
    (hvalue.trans (magnitude_dropWhile_zeros bytes).symm)

end BigInteger

/-! ## The engine -/

inductive ElGamalKeyParameters where
  | publicKey (p g y : Int)
  | privateKey (p g x : Int)
deriving Repr, DecidableEq

def ElGamalKeyParameters.p : ElGamalKeyParameters → Int
  | .publicKey p _ _ | .privateKey p _ _ => p

/-- The two halves of a key pair, as parameters of the engine. -/
def ElGamalKeyPair.pub (key : ElGamalKeyPair) : ElGamalKeyParameters :=
  .publicKey key.p key.g key.publicKey

def ElGamalKeyPair.priv (key : ElGamalKeyPair) : ElGamalKeyParameters :=
  .privateKey key.p key.g key.privateKey

structure ElGamalEngineK where
  key : Option ElGamalKeyParameters := none
  forEncryption : Bool := false
  bitSize : Nat := 0
  k : Option Int := none
deriving Repr, DecidableEq

namespace ElGamalEngineK

open Arrays (newBytes arraycopy newBytes_natCast arraycopy_eq)

def init (engine : ElGamalEngineK) (forEncryption : Bool) (param : ElGamalKeyParameters) :
    Except JavaException ElGamalEngineK :=
  let engine := { engine with key := some param, forEncryption,
                              bitSize := BigInteger.bitLength param.p }
  match forEncryption, param with
  | true, .privateKey .. =>
      .error (.illegalArgument "ElGamalPublicKeyParameters are required for encryption.")
  | false, .publicKey .. =>
      .error (.illegalArgument "ElGamalPrivateKeyParameters are required for decryption.")
  | _, _ => .ok engine

def getInputBlockSize (engine : ElGamalEngineK) : Nat :=
  if engine.forEncryption then (engine.bitSize - 1) / 8 else 2 * ((engine.bitSize + 7) / 8)

def getOutputBlockSize (engine : ElGamalEngineK) : Nat :=
  if engine.forEncryption then 2 * ((engine.bitSize + 7) / 8) else (engine.bitSize - 1) / 8

/-- The copy of a number into the half of the output that ends at `stop`; a byte that is too
much for a half is the sign's. -/
def copyNumber (out output : List UInt8) (stop : Nat) : Except JavaException (List UInt8) :=
  if out.length > output.length / 2 then
    arraycopy out 1 output ((stop : Int) - (out.length - 1)) (out.length - 1)
  else arraycopy out 0 output ((stop : Int) - out.length) out.length

section

variable (asUnsignedByteArray : Int → List UInt8)

/-- `processBlock` with a private key. -/
def decryptBlock (p x : Int) (input : List UInt8) (inOff inLen : Int) :
    Except JavaException (List UInt8) := do
  let in1 ← newBytes (inLen.tdiv 2)
  let in2 ← newBytes (inLen.tdiv 2)
  let in1 ← arraycopy input inOff in1 0 in1.length
  let in2 ← arraycopy input (inOff + in1.length) in2 0 in2.length
  let gamma := BigInteger.magnitude in1
  let phi := BigInteger.magnitude in2
  let m ← BigInteger.mod ((← BigInteger.modPow gamma (p - 1 - x) p) * phi) p
  return asUnsignedByteArray m

/-- The part of the input that is encrypted. -/
def getBlock (input : List UInt8) (inOff inLen : Int) : Except JavaException (List UInt8) := do
  if inOff ≠ 0 ∨ inLen ≠ input.length then
    let block ← newBytes inLen
    arraycopy input inOff block 0 inLen
  else return input

/-- `processBlock` with a public key, where the loop ends with the nonce `k`. -/
def encryptBlock (engine : ElGamalEngineK) (p g y k : Int) (input : List UInt8)
    (inOff inLen : Int) : Except JavaException (List UInt8) := do
  let block ← getBlock input inOff inLen
  let input := BigInteger.magnitude block
  if input ≥ p then .error (.dataLength "input too large for ElGamal cipher.\n")
  else
    let gamma ← BigInteger.modPow g k p
    let phi ← BigInteger.mod (input * (← BigInteger.modPow y k p)) p
    let out1 := BigInteger.toByteArray gamma
    let out2 := BigInteger.toByteArray phi
    let output ← newBytes engine.getOutputBlockSize
    let output ← copyNumber out1 output (output.length / 2)
    copyNumber out2 output output.length

/-- The longest block that is let through. -/
def maxLength (engine : ElGamalEngineK) : Nat :=
  if engine.forEncryption then (engine.bitSize - 1 + 7) / 8 else engine.getInputBlockSize

/-- `processBlock`, with the engine as it leaves it. -/
def processBlock (engine : ElGamalEngineK) (k : Int) (input : List UInt8) (inOff inLen : Int) :
    Except JavaException (List UInt8 × ElGamalEngineK) :=
  match engine.key with
  | none => .error .illegalState
  | some key =>
      let engine := { engine with bitSize := BigInteger.bitLength key.p }
      if inLen > engine.maxLength then
        .error (.dataLength ("input too large for ElGamal cipher with " ++ BigInteger.text inLen ++
          " characters instead of  " ++ BigInteger.text engine.maxLength ++ " total.\n"))
      else
        match key with
        | .privateKey p _ x => do
            let m ← decryptBlock asUnsignedByteArray p x input inOff inLen
            return (m, engine)
        | .publicKey p g y => do
            let output ← encryptBlock engine p g y k input inOff inLen
            return (output, { engine with k := some k })

end

/-! ## Copies -/

open ElGamalEngine (toBytes length_toBytes magnitude_toBytes)

theorem length_toByteArray (n : Int) :
    (BigInteger.toByteArray n).length = BigInteger.bitLength n / 8 + 1 :=
  length_toBytes _ _

/-- A number that needs one byte more than a half has a sign byte. -/
theorem toByteArray_of_long {half : Nat} {n : Int} (hn : 0 ≤ n) (hlt : n < 256 ^ half)
    (hlong : half < (BigInteger.toByteArray n).length) :
    BigInteger.toByteArray n = 0 :: toBytes half n := by
  have hbits := (BigInteger.lt_pow_iff hn).mp hlt
  rw [length_toByteArray] at hlong
  have hone : BigInteger.bitLength n / 8 + 1 = half + 1 := by omega
  rw [BigInteger.toByteArray, hone, BigInteger.toBytes_add hn hlt]
  rfl

/-- A number that needs fewer bytes is preceded by zeros. -/
theorem toBytes_of_short {n : Int} (hn : 0 ≤ n) (spare : Nat) :
    toBytes ((BigInteger.toByteArray n).length + spare) n = List.replicate spare 0 ++
    BigInteger.toByteArray n := by
  have hfit : n < 256 ^ (BigInteger.bitLength n / 8 + 1) :=
    (BigInteger.lt_pow_iff hn).mpr (by omega)
  rw [length_toByteArray, BigInteger.toBytes_add hn hfit, BigInteger.toByteArray]

/-- A number below `256 ^ half` is written over the zeros that end at `stop`, whether its bytes
are fewer than a half or one more. -/
theorem copyNumber_eq (before after : List UInt8) {half : Nat} {n : Int} (hn : 0 ≤ n)
    (hlt : n < 256 ^ half) (hsize : before.length + after.length = half) :
    copyNumber (BigInteger.toByteArray n) (before ++ List.replicate half 0 ++ after)
      (before.length + half) = .ok (before ++ toBytes half n ++ after) := by
  have hhalf : (before ++ List.replicate half 0 ++ after).length / 2 = half := by
    simp only [List.length_append, List.length_replicate]
    omega
  rw [copyNumber, hhalf]
  split
  · rename_i hlong
    have hroom : (List.replicate half (0 : UInt8)).length = (toBytes half n).length := by
      rw [List.length_replicate, length_toBytes]
    have hcopy := arraycopy_eq [0] (toBytes half n) [] before after hroom
    rw [List.append_nil, List.singleton_append, ← toByteArray_of_long hn hlt hlong] at hcopy
    have hlength : (BigInteger.toByteArray n).length = half + 1 := by
      rw [toByteArray_of_long hn hlt hlong, List.length_cons, length_toBytes]
    have hstop : (((before.length + half : Nat) : Int) - ((BigInteger.toByteArray n).length - 1)) =
        before.length := by
      rw [hlength]
      push_cast
      ring
    have hcount : ((BigInteger.toByteArray n).length : Int) - 1 = (toBytes half n).length := by
      rw [hlength, length_toBytes]
      push_cast
      ring
    rw [hstop, hcount]
    exact hcopy
  · rename_i hshort
    obtain ⟨spare, hspare⟩ := Nat.exists_eq_add_of_le (Nat.not_lt.mp hshort)
    have hcopy := arraycopy_eq [] (BigInteger.toByteArray n) []
      (before ++ List.replicate spare 0) after (List.length_replicate (a := (0 : UInt8)))
    have hstop : (((before.length + half : Nat) : Int) - (BigInteger.toByteArray n).length) =
        (before ++ List.replicate spare (0 : UInt8)).length := by
      rw [List.length_append, List.length_replicate]
      omega
    have hzeros : List.replicate half (0 : UInt8) =
        List.replicate spare 0 ++ List.replicate (BigInteger.toByteArray n).length 0 := by
      rw [List.replicate_append_replicate, Nat.add_comm, ← hspare]
    have hbytes : toBytes half n = List.replicate spare 0 ++ BigInteger.toByteArray n := by
      rw [hspare, toBytes_of_short hn]
    rw [List.nil_append, List.append_nil, List.length_nil, Nat.cast_zero] at hcopy
    rw [hstop, hzeros, hbytes, ← List.append_assoc before, hcopy, List.append_assoc before]

/-- Two numbers fill the output. -/
theorem copyNumbers_eq {half : Nat} {n n' : Int} (hn : 0 ≤ n) (hlt : n < 256 ^ half) (hn' : 0 ≤ n')
    (hlt' : n' < 256 ^ half) :
    (do
      let output ← copyNumber (BigInteger.toByteArray n) (List.replicate (2 * half) 0)
        (2 * half / 2)
      copyNumber (BigInteger.toByteArray n') output output.length) =
        .ok (toBytes half n ++ toBytes half n') := by
  have hlength : (toBytes half n).length = half := length_toBytes _ _
  have hfirst := copyNumber_eq [] (List.replicate half 0) hn hlt (by simp)
  have hsecond := copyNumber_eq (toBytes half n) [] hn' hlt' (by simp [hlength])
  rw [List.nil_append, List.nil_append, List.length_nil, Nat.zero_add,
    List.replicate_append_replicate, ← Nat.two_mul] at hfirst
  rw [List.append_nil, List.append_nil, hlength] at hsecond
  have hfull : (toBytes half n ++ List.replicate half 0).length = half + half := by
    rw [List.length_append, hlength, List.length_replicate]
  rw [Nat.mul_div_cancel_left _ two_pos, hfirst, Except.ok_bind, hfull, hsecond]

/-- A block that lies within the input is copied out of it. -/
theorem getBlock_eq {input : List UInt8} {inOff inLen : Int} (hOff : 0 ≤ inOff) (hLen : 0 ≤ inLen)
    (hrange : inOff + inLen ≤ input.length) :
    getBlock input inOff inLen = .ok ((input.drop inOff.toNat).take inLen.toNat) := by
  obtain ⟨off, rfl⟩ := Int.eq_ofNat_of_zero_le hOff
  obtain ⟨len, rfl⟩ := Int.eq_ofNat_of_zero_le hLen
  rw [Int.toNat_natCast, Int.toNat_natCast]
  have hlen : ((input.drop off).take len).length = len := by
    rw [List.length_take, List.length_drop]
    omega
  unfold getBlock
  split
  · have hcopy := @arraycopy_eq (input.take off) ((input.drop off).take len)
      ((input.drop off).drop len) [] (List.replicate len 0) [] (by simp [hlen])
    have hskipped : (input.take off).length = off := by
      rw [List.length_take]
      omega
    rw [List.append_assoc, List.take_append_drop, List.take_append_drop, hskipped, hlen] at hcopy
    rw [newBytes_natCast, Except.ok_bind]
    simpa using hcopy
  · rename_i hwhole
    obtain ⟨hoff, hlength⟩ := not_or.mp hwhole
    obtain rfl : off = 0 := by omega
    obtain rfl : len = input.length := by omega
    rw [List.drop_zero, List.take_length]
    rfl

/-! ## Round trips -/

section RoundTrip

variable {asUnsignedByteArray : Int → List UInt8} {p : ℕ} [Fact p.Prime] {key : ElGamalKeyPair}
  {engine : ElGamalEngineK}

/-- The bytes of one half of the output, for the modulus `p`. -/
def halfSize (p : Int) : Nat := (BigInteger.bitLength p + 7) / 8

/-- A residue has room in a half. -/
theorem val_lt_half (x : ZMod p) : ((x.val : ℕ) : Int) < 256 ^ halfSize p := by
  have hlt : ((x.val : ℕ) : Int) < p := by exact_mod_cast x.val_lt
  have hp := (BigInteger.bitLength_le_iff (Int.natCast_nonneg p)).mp
    (le_refl (BigInteger.bitLength (p : Int)))
  have hsmall := (BigInteger.bitLength_le_iff (Int.natCast_nonneg x.val)).mpr (hlt.trans hp)
  rw [BigInteger.lt_pow_iff (Int.natCast_nonneg _), halfSize]
  omega

/-- A block below the modulus becomes a power of the generator and a multiple of that power's
share of the key, each in its half. -/
theorem encryptBlock_eq (hkey : key.Valid p)
    (hengine : engine.getOutputBlockSize = 2 * halfSize p) (k : Int)
    {input block : List UInt8} {inOff inLen : Int} (hblock : getBlock input inOff inLen = .ok block)
    (hvalue : BigInteger.magnitude block < p) :
    encryptBlock engine key.p key.g key.publicKey k input inOff inLen =
      .ok (toBytes (halfSize p) (((key.g : ZMod p) ^ k).val : ℕ) ++
        toBytes (halfSize p) ((BigInteger.magnitude block * (key.publicKey : ZMod p) ^
          k : ZMod p).val : ℕ)) := by
  rw [encryptBlock, hblock, Except.ok_bind, if_neg (by rw [hkey.modulus]; omega)]
  simp only [hkey.modulus, BigInteger.modPow_eq_val hkey.generator,
    BigInteger.modPow_eq_val hkey.inGroup.publicKey,
    BigInteger.mod_eq_val, Int.cast_mul, BigInteger.cast_val, Except.ok_bind, hengine,
    newBytes_natCast, List.length_replicate]
  exact copyNumbers_eq (Int.natCast_nonneg _) (val_lt_half _) (Int.natCast_nonneg _) (val_lt_half _)

/-- Two halves are read as their numbers, and the power of the first one is divided out. -/
theorem decryptBlock_eq (x : Int) {a b : ZMod p} (ha : a ≠ 0) :
    decryptBlock asUnsignedByteArray p x (toBytes (halfSize p) (a.val : ℕ) ++
        toBytes (halfSize p) (b.val : ℕ)) 0 (2 * halfSize p : ℕ) =
      .ok (asUnsignedByteArray ((a ^ ((p : Int) - 1 - x) * b).val : ℕ)) := by
  set in1 := toBytes (halfSize p) ((a.val : ℕ) : Int) with hin1
  set in2 := toBytes (halfSize p) ((b.val : ℕ) : Int) with hin2
  have hlen1 : in1.length = halfSize p := length_toBytes _ _
  have hlen2 : in2.length = halfSize p := length_toBytes _ _
  have hsize : ((2 * halfSize p : ℕ) : Int).tdiv 2 = halfSize p := by
    rw [Nat.cast_mul, Nat.cast_ofNat, Int.mul_tdiv_cancel_left _ two_ne_zero]
  have hzeros : (List.replicate (halfSize p) (0 : UInt8)).length = halfSize p :=
    List.length_replicate
  have hfirst := arraycopy_eq [] in1 in2 [] [] (hzeros.trans hlen1.symm)
  have hsecond := arraycopy_eq in1 in2 [] [] [] (hzeros.trans hlen2.symm)
  simp only [List.nil_append, List.append_nil, List.length_nil, Nat.cast_zero, hlen1,
    hlen2] at hfirst hsecond
  have ha' : (((a.val : ℕ) : Int) : ZMod p) ≠ 0 := by rwa [BigInteger.cast_val]
  have hread1 : BigInteger.magnitude in1 = (a.val : ℕ) :=
    magnitude_toBytes (Int.natCast_nonneg _) (val_lt_half a)
  have hread2 : BigInteger.magnitude in2 = (b.val : ℕ) :=
    magnitude_toBytes (Int.natCast_nonneg _) (val_lt_half b)
  simp only [decryptBlock, hsize, newBytes_natCast, Except.ok_bind, hzeros, hfirst, hlen1, zero_add,
    hsecond, hread1,
    hread2, BigInteger.modPow_eq_val ha', BigInteger.mod_eq_val, Int.cast_mul, BigInteger.cast_val]
  rfl

/-- The two ends share the power `g ^ (k * x)`, which Fermat's theorem divides out. -/
theorem shared_power (hkey : key.Valid p) (k : Int) (m : ZMod p) :
    ((key.g : ZMod p) ^ k) ^ ((p : Int) - 1 - key.privateKey) *
    (m * (key.publicKey : ZMod p) ^ k) = m := by
  have hne : (key.g : ZMod p) ^ k ≠ 0 := zpow_ne_zero _ hkey.generator
  have hshare : (key.publicKey : ZMod p) ^ k = ((key.g : ZMod p) ^ k) ^ key.privateKey := by
    rw [hkey.pair, ← zpow_mul, ← zpow_mul, mul_comm]
  rw [hshare, mul_left_comm, ← zpow_add₀ hne, sub_add_cancel,
    BigInteger.zpow_pred_eq_one hne, mul_one]

/-- The engine as `init` leaves it. -/
def initialised (engine : ElGamalEngineK) (forEncryption : Bool) (param : ElGamalKeyParameters) :
    ElGamalEngineK :=
  { engine with key := some param, forEncryption, bitSize := BigInteger.bitLength param.p }

theorem processBlock_pub {k inOff inLen : Int} {input : List UInt8}
    (hlength : ¬ inLen > (engine.initialised true key.pub).maxLength) :
    (engine.initialised true key.pub).processBlock asUnsignedByteArray k input inOff inLen = do
      let output ← encryptBlock
        (engine.initialised true key.pub) key.p key.g key.publicKey k input inOff inLen
      return (output, { engine.initialised true key.pub with k := some k }) := if_neg hlength

theorem processBlock_priv {k inOff inLen : Int} {input : List UInt8}
    (hlength : ¬ inLen > (engine.initialised false key.priv).maxLength) :
    (engine.initialised false key.priv).processBlock asUnsignedByteArray k input inOff inLen = do
      let m ← decryptBlock asUnsignedByteArray key.p key.privateKey input inOff inLen
      return (m, engine.initialised false key.priv) := if_neg hlength

/-- Every block within the input that is not turned down is encrypted to an output of the full
size, and the block that is decrypted from it lacks only the zeros at the front. -/
theorem processBlock_round_trip (hunsigned : BigInteger.Unsigned asUnsignedByteArray)
    (hkey : key.Valid p)
    (e : ElGamalEngineK) (k k' : Int) {input : List UInt8} {inOff inLen : Int} (hOff : 0 ≤ inOff)
    (hLen : 0 ≤ inLen) (hrange : inOff + inLen ≤ input.length) :
    ∃ enc, e.init true key.pub = .ok enc ∧
      ((∀ message, enc.processBlock asUnsignedByteArray k input inOff inLen ≠
        .error (.dataLength message)) →
        BigInteger.magnitude ((input.drop inOff.toNat).take inLen.toNat) ≠ 0 →
        ∃ output enc', enc.processBlock asUnsignedByteArray k input inOff inLen =
          .ok (output, enc') ∧ output.length = enc.getOutputBlockSize ∧
          ∃ dec dec', enc'.init false key.priv = .ok dec ∧
            dec.processBlock asUnsignedByteArray k' output 0 output.length =
              .ok (((input.drop inOff.toNat).take inLen.toNat).dropWhile (· == 0), dec')) := by
  refine ⟨e.initialised true key.pub, rfl, fun haccepted hne => ?_⟩
  have hblock := getBlock_eq hOff hLen hrange
  set block := (input.drop inOff.toNat).take inLen.toNat
  have hlength : ¬ inLen > (e.initialised true key.pub).maxLength :=
    fun hlong => haccepted _ (if_pos hlong)
  rw [processBlock_pub hlength] at haccepted ⊢
  have hvalue : BigInteger.magnitude block < p := by
    by_contra hlarge
    refine haccepted "input too large for ElGamal cipher.\n" ?_
    rw [encryptBlock, hblock, Except.ok_bind, if_pos (by rw [hkey.modulus]; omega)]
    rfl
  have hsize : (e.initialised true key.pub).getOutputBlockSize = 2 * halfSize p := by
    rw [← hkey.modulus]
    rfl
  rw [encryptBlock_eq hkey hsize k hblock hvalue, Except.ok_bind]
  have houtput : ∀ m n : Int, (toBytes (halfSize p) m ++ toBytes (halfSize p) n).length = 2 *
      halfSize p := by
    intro m n
    rw [List.length_append, length_toBytes, length_toBytes, Nat.two_mul]
  obtain ⟨enc', henc'⟩ : ∃ enc' :
      ElGamalEngineK, enc' = { e.initialised true key.pub with k := some k } := ⟨_, rfl⟩
  refine ⟨_, enc', by rw [henc']; rfl, (houtput _ _).trans hsize.symm,
    enc'.initialised false key.priv, enc'.initialised false key.priv, rfl, ?_⟩
  have hread : ((BigInteger.magnitude block : ZMod p).val : Int) = BigInteger.magnitude block := by
    rw [ZMod.val_intCast]
    exact Int.emod_eq_of_lt (BigInteger.magnitude_nonneg block) hvalue
  have hdecrypt := @decryptBlock_eq asUnsignedByteArray p _ key.privateKey _
    (b := (BigInteger.magnitude block : ZMod p) * (key.publicKey : ZMod p) ^ k)
    (zpow_ne_zero k hkey.generator)
  rw [shared_power hkey, hread, hunsigned.magnitude hne, ← hkey.modulus] at hdecrypt
  rw [houtput]
  refine (processBlock_priv ?_).trans ?_
  · rw [← hkey.modulus]
    exact lt_irrefl _
  · rw [← hkey.modulus, hdecrypt]
    rfl

end RoundTrip

end ElGamalEngineK

namespace Sample

/-- The bytes of a number without zeros in front. -/
def unsignedBytes (n : Int) : List UInt8 := (BigInteger.toByteArray n).dropWhile (· == 0)

theorem unsignedBytes_unsigned : BigInteger.Unsigned unsignedBytes := by
  intro n hn
  have hfit : n < 256 ^ (BigInteger.bitLength n / 8 + 1) :=
    (BigInteger.lt_pow_iff hn.le).mpr (by omega)
  refine ⟨?_, BigInteger.head?_dropWhile_zeros _⟩
  rw [unsignedBytes, BigInteger.magnitude_dropWhile_zeros, BigInteger.toByteArray]
  exact ElGamalEngine.magnitude_toBytes hn.le hfit

end Sample

namespace ElGamalEngineK

theorem processBlock_round_trip_small :
    ∃ enc, init {} true Sample.smallKey.pub = .ok enc ∧
      ∃ output enc', enc.processBlock Sample.unsignedBytes 3 [9, 7] 1 1 = .ok (output, enc') ∧
        output.length = enc.getOutputBlockSize ∧
        ∃ dec dec', enc'.init false Sample.smallKey.priv = .ok dec ∧
          dec.processBlock Sample.unsignedBytes 0 output 0 output.length = .ok ([7], dec') := by
  obtain ⟨enc, hinit, h⟩ := processBlock_round_trip Sample.unsignedBytes_unsigned
    Sample.smallKey_valid {} 3 0 (show (0 : Int) ≤ 1 by decide)
    (show (0 : Int) ≤ 1 by decide) (show (1 : Int) + 1 ≤ ([9, 7] : List UInt8).length by decide)
  refine ⟨enc, hinit, h ?_ (by decide)⟩
  obtain rfl : initialised {} true Sample.smallKey.pub = enc := Except.ok.inj hinit
  have haccepted : (initialised {} true Sample.smallKey.pub).processBlock Sample.unsignedBytes 3
      [9, 7] 1 1 =
      .ok ([10, 10], { initialised {} true Sample.smallKey.pub with k := some 3 }) := by
    decide +kernel
  intro message hthrows
  cases haccepted.symm.trans hthrows

end ElGamalEngineK

end Sxp
