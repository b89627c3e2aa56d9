-- SUMMARY: JSON as the mapper reads and writes it: trees, the lookup of properties and elements, and numbers as hexadecimal text.
import Mathlib.Tactic.DeriveEncodable
import Mathlib.Logic.Equiv.List
import Mathlib.Data.Nat.Digits.Lemmas
import Sxp.Java.Lang

/-!
# JSON

The mapper's own texts and its encoding of byte arrays are parameters, of which the code uses
that what was written is read back. `BigIntegerSerializer` is the code's own: it writes a
number as hexadecimal text.
-/

namespace Sxp

/-! ## Trees -/

/-- A JSON value. Arrays and objects are built from their elements and properties one by one. -/
inductive Json where
  | null
  | number (n : Int)
  | string (s : String)
  | emptyArray
  | item (x rest : Json)
  | emptyObject
  | property (name : String) (x rest : Json)
deriving Repr, DecidableEq

namespace Json

def array (xs : List Json) : Json := xs.foldr item emptyArray

def object (properties : List (String × Json)) : Json :=
  properties.foldr (fun p rest => property p.1 p.2 rest) emptyObject

/-- The elements of an array. -/
def elements : Json → Option (List Json)
  | emptyArray => some []
  | item x rest => (elements rest).map (x :: ·)
  | _ => none

/-- `get(name)` of an object: null for a property that it has not. -/
def get (name : String) : Json → Option Json
  | property name' x rest => if name' = name then some x else get name rest
  | _ => none

def asNumber : Json → Option Int
  | number n => some n
  | _ => none

def asString : Json → Option String
  | string s => some s
  | _ => none

@[simp] theorem elements_array (xs : List Json) : (array xs).elements = some xs := by
  induction xs with
  | nil => rfl
  | cons x xs ih =>
      rw [array] at ih
      rw [array, List.foldr_cons, elements, ih, Option.map_some]

@[simp] theorem get_object_cons (name name' : String) (x : Json)
    (properties : List (String × Json)) :
    get name (object ((name', x) :: properties)) = if name' = name then some x
    else get name (object properties) :=
  rfl

/-- The elements of an array, each read by `f`. -/
def readArray {α : Type} (f : Json → Option α) (j : Json) : Option (List α) := do
  let xs ← j.elements
  xs.mapM f

theorem readArray_array {α : Type} {f : Json → Option α} {g : α → Json} {h : α → α} (xs : List α)
    (hread : ∀ x, f (g x) = some (h x)) : readArray f (array (xs.map g)) = some (xs.map h) := by
  have hmap : (xs.map g).mapM f = some (xs.map h) := by
    induction xs with
    | nil => rfl
    | cons x xs ih =>
        rw [List.map_cons, List.mapM_cons, hread, ih]
        rfl
  rw [readArray, elements_array]
  exact hmap

end Json

/-- The texts of the mapper, and of the byte arrays in them. -/
structure Jackson where
  writeTree : Json → String
  readTree : String → Option Json
  base64 : List UInt8 → String
  ofBase64 : String → Option (List UInt8)
  readTree_writeTree : ∀ j, readTree (writeTree j) = some j
  ofBase64_base64 : ∀ bs, ofBase64 (base64 bs) = some bs

/-! ## Hexadecimal text -/

namespace BigInteger

/-- `n.toString(16)`. -/
def hexText : Int → String
  | .ofNat n => String.ofList (Nat.toDigits 16 n)
  | .negSucc n => String.ofList ('-' :: Nat.toDigits 16 (n + 1))

/-- `Character.digit(c, 16)`. -/
def hexValue (c : Char) : Option Nat :=
  if '0' ≤ c ∧ c ≤ '9' then some (c.toNat - '0'.toNat)
  else if 'a' ≤ c ∧ c ≤ 'f' then some (c.toNat - 'a'.toNat + 10)
  else if 'A' ≤ c ∧ c ≤ 'F' then some (c.toNat - 'A'.toNat + 10)
  else none

/-- The value of a sequence of one or more hexadecimal digits. -/
def readHex (ds : List Char) : Option Nat :=
  if ds.isEmpty then none else ds.foldlM (fun n c => (hexValue c).map (16 * n + ·)) 0

/-- `new BigInteger(s, 16)`, without the exception's text. -/
def ofHexText (s : String) : Option Int :=
  match s.toList with
  | '-' :: ds => (readHex ds).map fun n : Nat => -(n : Int)
  | '+' :: ds => (readHex ds).map Int.ofNat
  | ds => (readHex ds).map Int.ofNat

theorem hexValue_digitChar {n : Nat} (hn : n < 16) : hexValue n.digitChar = some n := by
  have hall : ∀ n < 16, hexValue n.digitChar = some n := by decide
  exact hall n hn

/-- The digits in a base up to sixteen, read as hexadecimal ones. -/
theorem readHex_toDigits_base {b : Nat} (hb : 1 < b) (hb' : b ≤ 16) (n : Nat) :
    readHex (Nat.toDigits b n) = some (Nat.ofDigits 16 (Nat.digits b n)) := by
  have hfold : (Nat.toDigits b n).foldlM (fun n c => (hexValue c).map (16 * n + ·)) 0 =
      some (Nat.ofDigits 16 (Nat.digits b n)) := by
    induction n using Nat.strongRecOn with
    | ind n ih =>
        rcases Nat.lt_or_ge n b with hlt | hge
        · have hdigit : Nat.ofDigits 16 (Nat.digits b n) = n := by
            rcases Nat.eq_zero_or_pos n with rfl | hpos
            · rw [Nat.digits_zero, Nat.ofDigits_nil]
            · rw [Nat.digits_of_lt b n hpos.ne' hlt, Nat.ofDigits_singleton]
          rw [Nat.toDigits_of_lt_base hlt, hdigit]
          simp [hexValue_digitChar (hlt.trans_le hb')]
        · have hrest : n / b < n := Nat.div_lt_self (by omega) hb
          have hlast : n % b < 16 := (Nat.mod_lt n (by omega)).trans_le hb'
          rw [Nat.toDigits_of_base_le hb hge, List.foldlM_append, ih (n / b) hrest,
            Nat.digits_def' hb (hb.trans_le hge).pos, Nat.ofDigits_cons]
          simp only [Option.bind_eq_bind, Option.bind_some, List.foldlM_cons, List.foldlM_nil,
            hexValue_digitChar hlast, Option.map_some, Option.pure_def, Option.some.injEq]
          exact Nat.add_comm _ _
  rw [readHex, if_neg (by simp), hfold]

theorem readHex_toDigits (n : Nat) : readHex (Nat.toDigits 16 n) = some n := by
  rw [readHex_toDigits_base (by decide) le_rfl, Nat.ofDigits_digits]

/-- The first digit is no sign. -/
theorem ne_sign_of_toDigits {b n : Nat} (hb : 1 < b) (hb' : b ≤ 16) {c : Char} {ds : List Char}
    (h : Nat.toDigits b n = c :: ds) : c ≠ '-' ∧ c ≠ '+' := by
  have hread := readHex_toDigits_base hb hb' n
  rw [h] at hread
  constructor <;> rintro rfl <;> cases hread

theorem ofHexText_toDigits {b : Nat} (hb : 1 < b) (hb' : b ≤ 16) (n : Nat) :
    ofHexText (String.ofList (Nat.toDigits b n)) =
    some (Nat.ofDigits 16 (Nat.digits b n) : Nat) := by
  have hread := readHex_toDigits_base hb hb' n
  unfold ofHexText
  simp only [String.toList_ofList]
  split
  · rename_i ds heq
    exact absurd rfl (ne_sign_of_toDigits hb hb' heq).1
  · rename_i ds heq
    exact absurd rfl (ne_sign_of_toDigits hb hb' heq).2
  · rw [hread]
    rfl

theorem ofHexText_neg_toDigits {b : Nat} (hb : 1 < b) (hb' : b ≤ 16) (n : Nat) :
    ofHexText (String.ofList ('-' :: Nat.toDigits b n)) =
    some (-((Nat.ofDigits 16 (Nat.digits b n) : Nat) : Int)) := by
  simp only [ofHexText, String.toList_ofList, readHex_toDigits_base hb hb']
  rfl

theorem ofHexText_hexText (n : Int) : ofHexText (hexText n) = some n := by
  cases n with
  | ofNat n =>
      rw [hexText, ofHexText_toDigits (by decide) le_rfl, Nat.ofDigits_digits]
      rfl
  | negSucc n =>
      rw [hexText, ofHexText_neg_toDigits (by decide) le_rfl, Nat.ofDigits_digits]
      rfl

/-! ## Decimal digits read as hexadecimal ones -/

/-- The number that has the decimal digits of `n` as its hexadecimal ones. -/
def decimalAsHex : Int → Int
  | .ofNat n => (Nat.ofDigits 16 (Nat.digits 10 n) : Nat)
  | .negSucc n => -((Nat.ofDigits 16 (Nat.digits 10 (n + 1)) : Nat) : Int)

theorem ofHexText_text (n : Int) : ofHexText (text n) = some (decimalAsHex n) := by
  cases n with
  | ofNat n => exact @ofHexText_toDigits 10 (by decide) (by decide) n
  | negSucc n => exact @ofHexText_neg_toDigits 10 (by decide) (by decide) (n + 1)

/-- A second digit counts more in base sixteen. -/
theorem ofDigits_digits_eq_iff (n : Nat) : Nat.ofDigits 16 (Nat.digits 10 n) = n ↔ n ≤ 9 := by
  constructor
  · intro heq
    by_contra hlt
    have hgrow : Nat.ofDigits 10 (Nat.digits 10 (n / 10)) ≤
        Nat.ofDigits 16 (Nat.digits 10 (n / 10)) :=
      Nat.ofDigits_monotone _ (by decide)
    rw [Nat.ofDigits_digits] at hgrow
    rw [Nat.digits_def' (by decide) (by omega), Nat.ofDigits_cons] at heq
    omega
  · intro hle
    have hall : ∀ n ≤ 9, Nat.ofDigits 16 (Nat.digits 10 n) = n := by decide
    exact hall n hle

theorem decimalAsHex_eq_iff (n : Int) : decimalAsHex n = n ↔ -9 ≤ n ∧ n ≤ 9 := by
  cases n with
  | ofNat n =>
      have hdigits := ofDigits_digits_eq_iff n
      rw [decimalAsHex, Int.ofNat_eq_natCast]
      omega
  | negSucc n =>
      have hdigits := ofDigits_digits_eq_iff (n + 1)
      rw [decimalAsHex]
      omega

end BigInteger

/-! ## A mapper -/

namespace Sample

instance encodableString : Encodable String :=
  Encodable.ofLeftInverse (fun s => s.toList.map Char.toNat) (fun ns =>
    String.ofList (ns.map Char.ofNat)) (fun s => by simp [List.map_map, Function.comp_def])

deriving instance Encodable for Json

/-- A mapper whose texts are numbers. -/
def jackson : Jackson where
  writeTree j := BigInteger.text (Encodable.encode j : ℕ)
  readTree s := do
    let n ← (BigInteger.ofText s).toOption
    Encodable.decode n.toNat
  base64 bs := BigInteger.text (Encodable.encode (bs.map UInt8.toNat) : ℕ)
  ofBase64 s := do
    let n ← (BigInteger.ofText s).toOption
    let ns ← Encodable.decode (α := List ℕ) n.toNat
    return ns.map UInt8.ofNat
  readTree_writeTree j := by
    simp [BigInteger.ofText_text, Except.toOption]
  ofBase64_base64 bs := by
    simp [BigInteger.ofText_text, Except.toOption, List.map_map, Function.comp_def]

end Sample

end Sxp
