-- SUMMARY: Java arrays of bytes: allocation, access and copies, which throw on sizes and positions out of range.
import Sxp.Base.Except
import Sxp.Java.Lang

/-!
# Arrays of bytes

Sizes and positions are the `int` values that the code computes, and can be negative.
-/

namespace Sxp

namespace Arrays

/-- `new byte[size]`. -/
def newBytes (size : Int) : Except JavaException (List UInt8) :=
  if size < 0 then .error .negativeArraySize else .ok (List.replicate size.toNat 0)

/-- `bytes[i]`. -/
def get (bytes : List UInt8) (i : Int) : Except JavaException UInt8 :=
  if i < 0 then .error .indexOutOfBounds
  else
    match bytes[i.toNat]? with
    | some b => .ok b
    | none => .error .indexOutOfBounds

/-- `System.arraycopy(src, srcPos, dest, destPos, length)`, with the array that `dest` becomes. -/
def arraycopy (src : List UInt8) (srcPos : Int) (dest : List UInt8) (destPos length : Int) :
    Except JavaException (List UInt8) :=
  if srcPos < 0 ∨ destPos < 0 ∨ length < 0 ∨ src.length < srcPos + length ∨
    dest.length < destPos + length then
    .error .indexOutOfBounds
  else
    .ok (dest.take destPos.toNat ++ (src.drop srcPos.toNat).take length.toNat ++
      dest.drop (destPos + length).toNat)

theorem newBytes_natCast (n : Nat) : newBytes n = .ok (List.replicate n 0) := by
  rw [newBytes, if_neg (Int.not_lt.mpr (Int.natCast_nonneg n)), Int.toNat_natCast]

theorem newBytes_total_iff {size : Int} : (∃ bytes, newBytes size = .ok bytes) ↔ 0 ≤ size := by
  unfold newBytes
  split
  · rename_i hsize
    simp [Int.not_le.mpr hsize]
  · rename_i hsize
    simp [Int.not_lt.mp hsize]

/-- The last element is read exactly if there is one. -/
theorem get_last {bytes : List UInt8} {b : UInt8} :
    get bytes ((bytes.length : Int) - 1) = .ok b ↔ bytes.getLast? = some b := by
  unfold get
  split
  · rename_i hneg
    obtain rfl : bytes = [] := List.eq_nil_of_length_eq_zero (by omega)
    simp
  · have hlast : ((bytes.length : Int) - 1).toNat = bytes.length - 1 := by omega
    rw [hlast, List.getLast?_eq_getElem?]
    cases bytes[bytes.length - 1]? with
    | none => simp
    | some c => simp

/-- A copy that is in range puts the bytes in the place of as many others. -/
theorem arraycopy_eq (skipped copied rest before : List UInt8) {gone : List UInt8}
    (after : List UInt8) (hgone : gone.length = copied.length) :
    arraycopy (skipped ++ copied ++ rest) skipped.length
      (before ++ gone ++ after) before.length copied.length = .ok (before ++ copied ++ after) := by
  have hrange : ¬ ((skipped.length : Int) < 0 ∨ (before.length : Int) < 0 ∨
      (copied.length : Int) < 0 ∨
      ((skipped ++ copied ++ rest).length : Int) < skipped.length + copied.length ∨
      ((before ++ gone ++ after).length : Int) < before.length + copied.length) := by
    simp only [List.length_append]
    omega
  have hstop : ((before.length : Int) + copied.length).toNat = (before ++ gone).length := by
    rw [List.length_append, hgone]
    omega
  rw [arraycopy, if_neg hrange, hstop, Int.toNat_natCast, Int.toNat_natCast, Int.toNat_natCast,
    List.drop_left,
    List.append_assoc before, List.take_left, List.append_assoc skipped, List.drop_left,
    List.take_left]

end Arrays

end Sxp
