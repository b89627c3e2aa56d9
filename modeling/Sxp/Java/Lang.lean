-- SUMMARY: The parts of java.lang and java.math the protocol code computes with: exceptions, string objects, BigInteger.
import Mathlib.Data.Int.GCD
import Mathlib.Data.Int.Bitwise
import Mathlib.Data.List.Basic
import Mathlib.Algebra.Order.Ring.Int
import Mathlib.Tactic.Positivity
import Mathlib.Tactic.Ring

/-!
# Java values

`BigInteger` is `Int`; the operations that can throw return `Except JavaException`.
A `byte[]` that only ever holds encoded text is modelled by that text.
-/

namespace Sxp

/-- The exceptions thrown by the modelled code, with the text where it has one. -/
inductive JavaException where
  | nullPointer
  | indexOutOfBounds
  | negativeArraySize
  | arithmetic (message : String)
  | numberFormat (message : String)
  | noSuchElement
  | illegalState
  | illegalArgument (message : String)
  | dataLength (message : String)
  | runtime (message : String)
deriving Repr, DecidableEq

/-- The instances of `IllegalArgumentException`. -/
def JavaException.isIllegalArgument : JavaException → Bool
  | .illegalArgument _ | .numberFormat _ => true
  | _ => false

/-- A reference that is about to be used: null throws. -/
def notNull {α : Type} : Option α → Except JavaException α
  | none => .error .nullPointer
  | some a => .ok a

@[simp] theorem notNull_eq_ok {α : Type} {x : Option α} {a : α} : notNull x = .ok a ↔
    x = some a := by
  cases x <;> simp [notNull]

/-! ## String objects -/

/-- A `String` object: its characters, and a tag that tells two objects with the
same characters apart. -/
structure JString where
  chars : String
  ref : Nat
deriving Repr, DecidableEq

namespace JString

/-- `a.equals(b)`, which is also how a hash map compares its keys. -/
instance : BEq JString where
  beq a b := a.chars == b.chars

theorem beq_iff {a b : JString} : (a == b) = true ↔ a.chars = b.chars := by
  change (a.chars == b.chars) = true ↔ _
  exact beq_iff_eq

instance : EquivBEq JString where
  rfl := beq_iff.mpr rfl
  symm h := beq_iff.mpr (beq_iff.mp h).symm
  trans h h' := beq_iff.mpr ((beq_iff.mp h).trans (beq_iff.mp h'))

/-- The Java operator `a == b` on references. -/
def same (a b : JString) : Bool := decide (a = b)

@[simp] theorem same_iff {a b : JString} : a.same b = true ↔ a = b := by
  simp [same]

end JString

/-- `s.getBytes()`, where the default charset is UTF-8. -/
def getBytes (s : String) : List UInt8 := s.toUTF8.data.toList

theorem getBytes_injective : Function.Injective getBytes := by
  intro s t h
  exact String.toByteArray_inj.mp (ByteArray.ext (Array.toList_inj.mp h))

/-! ## BigInteger -/

namespace BigInteger

/-- The decimal digits of `n`, after a minus sign when `n` is negative. -/
def digits : Int → List Char
  | .ofNat n => Nat.toDigits 10 n
  | .negSucc n => '-' :: Nat.toDigits 10 (n + 1)

/-- `n.toString()`. -/
def text (n : Int) : String := String.ofList (digits n)

/-- The value of a sequence of one or more digits. -/
def readDigits (ds : List Char) : Option Nat :=
  if !ds.isEmpty && ds.all Char.isDigit then some (Nat.ofDigitChars 10 ds 0) else none

/-- The value of digits after an optional sign. -/
def readNumber : List Char → Option Int
  | '-' :: ds => (readDigits ds).map fun n : Nat => -(n : Int)
  | '+' :: ds => (readDigits ds).map Int.ofNat
  | ds => (readDigits ds).map Int.ofNat

/-- `new BigInteger(String)`. -/
def ofText (s : String) : Except JavaException Int :=
  match readNumber s.toList with
  | some n => .ok n
  | none => .error (.numberFormat s)

/-- The value of the bytes read as an unsigned big-endian number. -/
def magnitude (bs : List UInt8) : Int := bs.foldl (fun n b => 256 * n + (b.toNat : Int)) 0

/-- `new BigInteger(byte[])`: the big-endian two's-complement value. -/
def ofBytes : List UInt8 → Except JavaException Int
  | [] => .error (.numberFormat "Zero length BigInteger")
  | b :: bs =>
      if b < 128 then .ok (magnitude (b :: bs))
      else .ok (magnitude (b :: bs) - 256 ^ (b :: bs).length)

/-- The bits of the two's-complement value, without the sign bit. -/
def bitLength (n : Int) : Nat :=
  let magnitude := match n with
    | .ofNat n => n
    | .negSucc n => n
  if magnitude = 0 then 0 else magnitude.log2 + 1

def mod (a m : Int) : Except JavaException Int :=
  if m ≤ 0 then .error (.arithmetic "BigInteger: modulus not positive") else .ok (a % m)

/-- `a.divide(b)`, which rounds towards zero. -/
def divide (a b : Int) : Except JavaException Int :=
  if b = 0 then .error (.arithmetic "BigInteger divide by zero") else .ok (a.tdiv b)

def modInverse (a m : Int) : Except JavaException Int :=
  if m ≤ 0 then .error (.arithmetic "BigInteger: modulus not positive")
  else if m = 1 then .ok 0
  else if Int.gcd a m = 1 then .ok (Int.gcdA a m % m)
  else .error (.arithmetic "BigInteger not invertible.")

/-- `a.modPow(e, m)`; a negative exponent stands for a power of the inverse. -/
def modPow (a e m : Int) : Except JavaException Int :=
  if m ≤ 0 then .error (.arithmetic "BigInteger: modulus not positive")
  else if 0 ≤ e then .ok (a ^ e.toNat % m)
  else do
    let inv ← modInverse a m
    .ok (inv ^ (-e).toNat % m)

theorem readDigits_toDigits (n : Nat) : readDigits (Nat.toDigits 10 n) = some n := by
  have hdigits : (Nat.toDigits 10 n).all Char.isDigit = true := by
    rw [List.all_eq_true]
    exact fun c hc => Nat.isDigit_of_mem_toDigits (by decide) le_rfl hc
  simp [readDigits, hdigits, Nat.ofDigitChars_ten_toDigits]

/-- Every number is read back from its digits. -/
theorem readNumber_digits (n : Int) : readNumber (digits n) = some n := by
  have hdigit : ∀ (n : Nat) c l, Nat.toDigits 10 n = c :: l → c.isDigit = true := fun n c l h =>
    Nat.isDigit_of_mem_toDigits (by decide) le_rfl (by rw [h]; exact List.mem_cons_self)
  cases n with
  | ofNat n =>
      have hread := readDigits_toDigits n
      unfold readNumber
      simp only [digits]
      split
      · rename_i ds heq
        exact absurd (hdigit n _ _ heq) (by decide)
      · rename_i ds heq
        exact absurd (hdigit n _ _ heq) (by decide)
      · rw [hread]
        rfl
  | negSucc n =>
      simp only [digits, readNumber, readDigits_toDigits]
      rfl

/-- Numbers with the same digits are equal. -/
theorem digits_injective : Function.Injective digits := by
  intro a b h
  have hread := readNumber_digits a
  rw [h, readNumber_digits] at hread
  exact (Option.some.inj hread).symm

theorem ofText_text (n : Int) : ofText (text n) = .ok n := by
  rw [ofText, text, String.toList_ofList, readNumber_digits]

theorem text_injective : Function.Injective text :=
  fun _ _ h => digits_injective (String.ofList_injective h)

theorem magnitude_append (bs : List UInt8) (b : UInt8) :
    magnitude (bs ++ [b]) = 256 * magnitude bs + b.toNat := by
  simp [magnitude]

theorem magnitude_nonneg (bs : List UInt8) : 0 ≤ magnitude bs := by
  induction bs using List.reverseRecOn with
  | nil => exact le_rfl
  | append_singleton bs b ih =>
      rw [magnitude_append]
      positivity

theorem magnitude_lt (bs : List UInt8) : magnitude bs < 256 ^ bs.length := by
  induction bs using List.reverseRecOn with
  | nil => exact zero_lt_one
  | append_singleton bs b ih =>
      have hb : (b.toNat : Int) < 256 := by exact_mod_cast b.toNat_lt
      calc magnitude (bs ++ [b])
          = 256 * magnitude bs + b.toNat := magnitude_append bs b
        _ < 256 * (magnitude bs + 1) := by omega
        _ ≤ 256 * 256 ^ bs.length := by omega
        _ = 256 ^ (bs ++ [b]).length := by
            rw [List.length_append, List.length_singleton, pow_succ]
            ring

/-- Without a sign bit the bytes are a number of their length. -/
theorem ofBytes_of_lt {b : UInt8} (hb : b < 128) (bs : List UInt8) :
    ofBytes (b :: bs) = .ok (magnitude (b :: bs)) := by
  simp [ofBytes, hb]

theorem mod_of_pos {a m : Int} (hm : 0 < m) : mod a m = .ok (a % m) := by
  simp [mod, Int.not_le.mpr hm]

theorem modPow_natCast {a m : Int} (hm : 0 < m) (n : Nat) :
    modPow a n m = .ok (a ^ n % m) := by
  simp [modPow, Int.not_le.mpr hm]

/-- Modulo one every power is zero, whatever the exponent. -/
theorem modPow_one (a e : Int) : modPow a e 1 = .ok 0 := by
  unfold modPow
  split
  · omega
  · split
    · simp
    · simp [modInverse, bind, Except.bind]

/-- A power modulo `m` is only computed for a positive modulus. -/
theorem modPow_pos {a e m r : Int} (h : modPow a e m = .ok r) : 0 < m := by
  by_contra hm
  simp [modPow, Int.not_lt.mp hm] at h

theorem xor_zero_left (a : Int) : Int.xor 0 a = a := by
  cases a with
  | ofNat n => simp [Int.xor]
  | negSucc n => simp [Int.xor]

end BigInteger

/-! ## Plain texts -/

/-- The text holds none of the characters that end a field or a record. -/
def Plain (s : String) : Prop := ∀ c ∈ s.toList, c ≠ ',' ∧ c ≠ ']'

namespace Plain

instance decidable (s : String) : Decidable (Plain s) := List.decidableBAll _ s.toList

theorem append {s t : String} (hs : Plain s) (ht : Plain t) : Plain (s ++ t) := by
  intro c hc
  rw [String.toList_append, List.mem_append] at hc
  exact hc.elim (hs c) (ht c)

theorem join {ts : List String} (h : ∀ t ∈ ts, Plain t) : Plain (String.join ts) := by
  induction ts with
  | nil => exact fun c hc => absurd hc (by simp)
  | cons t ts ih =>
      rw [List.forall_mem_cons] at h
      rw [String.join_cons]
      exact h.1.append (ih h.2)

/-- Every entry of a table of plain texts is plain, also the one past its end. -/
theorem getD {ts : List String} (h : ∀ t ∈ ts, Plain t) (i : Nat) : Plain (ts.getD i "") := by
  rw [List.getD_eq_getElem?_getD]
  cases hi : ts[i]? with
  | none => decide
  | some t => exact h t (List.mem_of_getElem? hi)

theorem text (n : Int) : Plain (BigInteger.text n) := by
  have hdigits : ∀ n : Nat, ∀ c ∈ Nat.toDigits 10 n, c ≠ ',' ∧ c ≠ ']' := by
    intro n c hc
    have hdigit := Nat.isDigit_of_mem_toDigits (by decide) le_rfl hc
    constructor <;> rintro rfl <;> cases hdigit
  intro c hc
  rw [BigInteger.text, String.toList_ofList] at hc
  cases n with
  | ofNat n => exact hdigits n c hc
  | negSucc n =>
      rcases List.mem_cons.mp hc with rfl | hc
      · decide
      · exact hdigits _ c hc

end Plain

end Sxp
