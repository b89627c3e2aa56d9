-- SUMMARY: Cutting a sequence into blocks of one size, and chaining blocks through an invertible step.
import Mathlib.Data.List.GetD
import Mathlib.Data.List.Induction
import Mathlib.Tactic.Common
import Mathlib.Tactic.Ring

/-!
# Blocks and chains

A sequence is cut into blocks, the last one filled up with a symbol. A chain starts with a block
of its own, and each further element is made of a block and of the element before it, so that
neighbours suffice to undo it.
-/

namespace Chaining

/-! ## Blocks -/

section Blocks

variable {α : Type} {n : Nat}

/-- The block number `i` of a sequence that is followed by fillers. -/
def block (n : Nat) (filler : α) (i : Nat) (xs : List α) : Vector α n :=
  Vector.ofFn fun k => xs.getD (i * n + k) filler

/-- How many blocks hold `len` elements. -/
def count (n len : Nat) : Nat := (len + n - 1) / n

theorem lt_count (hn : 0 < n) {i len : Nat} : i < count n len ↔ i * n < len := by
  rw [count, Nat.lt_iff_add_one_le, Nat.le_div_iff_mul_le hn, Nat.succ_mul]
  omega

theorem le_count_mul (hn : 0 < n) (len : Nat) : len ≤ count n len * n :=
  Nat.not_lt.mp fun h => lt_irrefl _ ((lt_count hn).mpr h)

theorem count_mul_lt (hn : 0 < n) (len : Nat) : count n len * n < len + n := by
  rcases Nat.eq_zero_or_pos (count n len) with hzero | hpos
  · rw [hzero]
    omega
  · have h : (count n len - 1) * n < len := (lt_count hn).mp (Nat.sub_lt hpos one_pos)
    rw [Nat.sub_mul, one_mul] at h
    omega

theorem count_mul (hn : 0 < n) (m : Nat) : count n (m * n) = m := by
  rw [count, Nat.add_sub_assoc hn, Nat.mul_comm, Nat.mul_add_div hn, Nat.div_eq_of_lt (by omega),
    Nat.add_zero]

@[simp] theorem toList_block (filler : α) (i : Nat) (xs : List α) :
    (block n filler i xs).toList = (List.range n).map fun k => xs.getD (i * n + k) filler := by
  refine List.ext_getElem (by simp) fun k h h' => ?_
  simp [block]

theorem length_flatMap (bs : List (Vector α n)) :
    (bs.flatMap Vector.toList).length = bs.length * n := by
  induction bs with
  | nil => simp
  | cons b bs ih =>
      rw [List.flatMap_cons, List.length_append, ih, Vector.length_toList, List.length_cons,
        Nat.succ_mul, Nat.add_comm]

/-- The blocks hold the sequence, and then the fillers. -/
theorem flatMap_block (filler : α) (xs : List α) (m : Nat) (hm : xs.length ≤ m * n) :
    ((List.range m).flatMap fun i => (block n filler i xs).toList) =
      xs ++ List.replicate (m * n - xs.length) filler := by
  have hlist : ∀ m, ((List.range m).flatMap fun i => (block n filler i xs).toList) =
      (List.range (m * n)).map fun j => xs.getD j filler := by
    intro m
    induction m with
    | zero => simp
    | succ m ih =>
        rw [List.range_succ, List.flatMap_append, ih, List.flatMap_singleton, toList_block,
          Nat.succ_mul, List.range_add, List.map_append, List.map_map]
        rfl
  rw [hlist]
  refine List.ext_getElem (by simp [hm]) fun j h h' => ?_
  simp only [List.getElem_map, List.getElem_range]
  by_cases hj : j < xs.length
  · rw [List.getElem_append_left hj, List.getD_eq_getElem _ _ hj]
  · rw [List.getElem_append_right (by omega), List.getElem_replicate,
      List.getD_eq_default _ _ (by omega)]

/-- Blocks that were put behind one another are cut out again. -/
theorem block_flatMap (filler : α) (bs : List (Vector α n)) (rest : List α) {i : Nat}
    {b : Vector α n}
    (hb : bs[i]? = some b) : block n filler i (bs.flatMap Vector.toList ++ rest) = b := by
  induction bs generalizing i with
  | nil => cases hb
  | cons c bs ih =>
      cases i with
      | zero =>
          obtain rfl : c = b := Option.some.inj hb
          ext k hk
          simp only [block, Vector.getElem_ofFn, List.flatMap_cons, List.append_assoc,
            zero_mul, zero_add]
          rw [List.getD_append _ _ _ _ (by simpa using hk),
            List.getD_eq_getElem _ _ (by simpa using hk)]
          simp
      | succ i =>
          rw [← ih hb]
          ext k hk
          simp only [block, Vector.getElem_ofFn, List.flatMap_cons, List.append_assoc]
          rw [List.getD_append_right _ _ _ _ (by rw [Vector.length_toList, Nat.succ_mul]; omega),
            Vector.length_toList]
          congr 1
          rw [Nat.succ_mul]
          omega

end Blocks

/-! ## Chains -/

section Chains

variable {A B : Type}

/-- A loop that makes each element of the last one it has made. -/
theorem foldl_getLastD (f : B → A → B) (iv : B) (xs : List A) :
    xs.foldl (fun made x => made ++ [f (made.getLastD iv) x]) [iv] = xs.scanl f iv := by
  induction xs using List.reverseRecOn with
  | nil => rw [List.foldl_nil, List.scanl_nil]
  | append_singleton xs x ih =>
      rw [List.foldl_append, List.foldl_cons, List.foldl_nil, ih, List.scanl_append,
        List.getLastD_eq_getLast?, List.getLast?_scanl, List.scanl_singleton]
      rfl

variable (enc dec : B → B) (combine : B → B → B)

/-- Every element is made of the one before it and of a block. -/
def chain (iv : B) (blocks : List B) : List B :=
  blocks.scanl (fun prev b => enc (combine prev b)) iv

variable {enc dec combine}

@[simp] theorem length_chain (iv : B) (blocks : List B) :
    (chain enc combine iv blocks).length = blocks.length + 1 :=
  List.length_scanl

/-- A block is got back from two neighbours. -/
theorem unchain_chain (hdec : ∀ b, dec (enc b) = b)
    (hcombine : ∀ a b, combine (combine a b) a = b) (iv : B)
    {blocks : List B} {i : Nat} {b : B} (hb : blocks[i]? = some b) :
    ∃ prev cur, (chain enc combine iv blocks)[i]? = some prev ∧
      (chain enc combine iv blocks)[i + 1]? = some cur ∧ combine (dec cur) prev = b := by
  have hi : i < (chain enc combine iv blocks).length := by
    rw [length_chain]
    exact Nat.lt_succ_of_lt (List.getElem?_eq_some_iff.mp hb).1
  refine ⟨_, enc (combine (chain enc combine iv blocks)[i] b), List.getElem?_eq_getElem hi, ?_, ?_⟩
  · have hnext : (chain enc combine iv blocks)[i + 1]? =
        (chain enc combine iv blocks)[i]?.bind fun prev => blocks[i]?.map fun b =>
        enc (combine prev b) :=
      List.getElem?_succ_scanl
    rw [hnext, List.getElem?_eq_getElem hi, hb]
    rfl
  · rw [hdec, hcombine]

end Chains

end Chaining
