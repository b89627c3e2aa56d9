-- SUMMARY: Sequences joined by a delimiter: how often the delimiter occurs in the joined sequence.
import Sxp.Base.Marks

/-!
# Joined sequences

A delimiter that does not overlap itself occurs in a joined sequence once between any two
parts, and otherwise only inside the parts.
-/

namespace Marks

variable {α : Type} [DecidableEq α] {o c : α} {b f g w s t : List α} {ts : List (List α)}

/-- At how many positions of the sequence `b` stands. -/
def occurrences (b : List α) : List α → Nat
  | [] => 0
  | a :: s => (if b <+: a :: s then 1 else 0) + occurrences b s

theorem IsMark.occurrences_skip (h : IsMark o c b) (hw : o ∉ w) :
    occurrences b (w ++ s) = occurrences b s := by
  induction w with
  | nil => rfl
  | cons a w ih =>
      rw [List.mem_cons, not_or] at hw
      have hnone : ¬ b <+: a :: (w ++ s) := by
        rw [h.eq_cons, List.cons_prefix_cons]
        exact fun hfront => hw.1 hfront.1
      rw [List.cons_append, occurrences, if_neg hnone, ih hw.2, Nat.zero_add]

theorem IsMark.occurrences_mark (h : IsMark o c b) (s : List α) :
    occurrences b (b ++ s) = 1 + occurrences b s := by
  have hcons : b ++ s = o :: (b.tail ++ s) := by
    rw [← List.cons_append, ← h.eq_cons]
  have hfront : b <+: o :: (b.tail ++ s) := by
    rw [← hcons]
    exact List.prefix_append b s
  rw [hcons, occurrences, if_pos hfront, h.occurrences_skip h.opens_once]

/-- The places on both sides of a delimiter add up. -/
theorem IsMark.occurrences_append (h : IsMark o c b) (f g : List α) :
    occurrences b (f ++ b ++ g) = occurrences b f + 1 + occurrences b g := by
  induction f with
  | nil =>
      rw [List.nil_append, h.occurrences_mark]
      rfl
  | cons a f ih =>
      have hfront : b <+: a :: (f ++ b ++ g) ↔ b <+: a :: f := by
        constructor
        · rintro ⟨r, hr⟩
          have hcut : a :: f ++ o :: (b.tail ++ g) = [] ++ b ++ r := by
            rw [← List.cons_append, ← h.eq_cons, List.nil_append, hr]
            simp only [List.cons_append, List.append_assoc]
          rcases append_cons_eq h.opens_once hcut with ⟨r', hr'⟩ | ⟨p', hp'⟩
          · exact ⟨r', hr'.symm⟩
          · cases hp'
        · rintro ⟨r, hr⟩
          refine ⟨r ++ b ++ g, ?_⟩
          rw [← List.append_assoc, ← List.append_assoc, hr, List.cons_append, List.cons_append]
      simp only [List.cons_append, occurrences, hfront, ih]
      omega

theorem occurrences_eq_zero (h : ¬ b <:+: s) : occurrences b s = 0 := by
  induction s with
  | nil => rfl
  | cons a s ih =>
      have hfront : ¬ b <+: a :: s := fun hfront => h hfront.isInfix
      have hrest : ¬ b <:+: s := fun hfound => h (hfound.trans (List.suffix_cons a s).isInfix)
      rw [occurrences, if_neg hfront, ih hrest]

/-- Parts without the delimiter are joined with one delimiter less than there are parts. -/
theorem IsMark.occurrences_intercalate (h : IsMark o c b) (hts : ∀ t ∈ ts, ¬ b <:+: t)
    (hne : ts ≠ []) : occurrences b (b.intercalate ts) + 1 = ts.length := by
  induction ts with
  | nil => exact absurd rfl hne
  | cons t ts ih =>
      rw [List.forall_mem_cons] at hts
      cases ts with
      | nil => rw [List.intercalate_singleton, occurrences_eq_zero hts.1, List.length_singleton]
      | cons t' ts =>
          have hrest := ih hts.2 (List.cons_ne_nil t' ts)
          rw [List.intercalate_cons_cons, h.occurrences_append, occurrences_eq_zero hts.1,
            List.length_cons, ← hrest]
          omega

end Marks
