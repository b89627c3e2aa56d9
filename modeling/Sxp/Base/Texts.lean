-- SUMMARY: Texts put one after the other without a separator: when two lists of texts give the same text.
import Mathlib.Tactic.Common

/-!
# Concatenated texts

Texts that are joined without a separator can be cut again in other places. Two lists of as
many texts have the same concatenation exactly if they are equal, or the first text in which
they differ is longer in one of them by a piece that the other list has after it.
-/

namespace Texts

variable {ts us : List String}

/-- The first text in which the lists differ has in `us` an end that in `ts` only follows. -/
def Shifted (ts us : List String) : Prop :=
  ∃ before t x after after', x ≠ "" ∧ ts = before ++ t :: after ∧
    us = before ++ (t ++ x) :: after' ∧ String.join after = x ++ String.join after'

theorem append_eq_append_iff {s t s' t' : String} :
    s ++ t = s' ++ t' ↔ (∃ x, s' = s ++ x ∧ t = x ++ t') ∨ ∃ x, s = s' ++ x ∧ t' = x ++ t := by
  simp only [← String.toList_inj, String.toList_append]
  rw [List.append_eq_append_iff]
  constructor
  · rintro (⟨x, hs, ht⟩ | ⟨x, hs, ht⟩)
    · exact Or.inl ⟨String.ofList x, by simpa using hs, by simpa using ht⟩
    · exact Or.inr ⟨String.ofList x, by simpa using hs, by simpa using ht⟩
  · rintro (⟨x, hs, ht⟩ | ⟨x, hs, ht⟩)
    · exact Or.inl ⟨x.toList, hs, ht⟩
    · exact Or.inr ⟨x.toList, hs, ht⟩

theorem Shifted.join_eq (h : Shifted ts us) : String.join ts = String.join us := by
  obtain ⟨before, t, x, after, after', -, rfl, rfl, hafter⟩ := h
  simp only [String.join_append, String.join_cons, hafter, String.append_assoc]

/-- Lists that go on as shifted lists do are shifted. -/
theorem Shifted.cons (h : Shifted ts us) (t : String) : Shifted (t :: ts) (t :: us) := by
  obtain ⟨before, s, x, after, after', hx, rfl, rfl, hafter⟩ := h
  exact ⟨t :: before, s, x, after, after', hx, rfl, rfl, hafter⟩

theorem join_eq_iff (h : ts.length = us.length) :
    String.join ts = String.join us ↔ ts = us ∨ Shifted ts us ∨ Shifted us ts := by
  constructor
  · intro hjoin
    induction ts generalizing us with
    | nil =>
        rw [List.length_nil] at h
        exact Or.inl (List.length_eq_zero_iff.mp h.symm).symm
    | cons t ts ih =>
        cases us with
        | nil => cases h
        | cons u us =>
            rw [String.join_cons, String.join_cons, append_eq_append_iff] at hjoin
            have hlength : ts.length = us.length := Nat.succ.inj h
            have hsame : t = u → String.join ts = String.join us →
                t :: ts = u :: us ∨ Shifted (t :: ts) (u :: us) ∨ Shifted (u :: us) (t :: ts) := by
              rintro rfl hrest
              rcases ih hlength hrest with rfl | hshift | hshift
              · exact Or.inl rfl
              · exact Or.inr (Or.inl (hshift.cons t))
              · exact Or.inr (Or.inr (hshift.cons t))
            rcases hjoin with ⟨x, hu, hrest⟩ | ⟨x, ht, hrest⟩
            · by_cases hx : x = ""
              · subst hx
                exact hsame (by simpa using hu.symm) (by simpa using hrest)
              · exact Or.inr (Or.inl ⟨[], t, x, ts, us, hx, rfl, by simp [hu], hrest⟩)
            · by_cases hx : x = ""
              · subst hx
                exact hsame (by simpa using ht) (by simpa using hrest.symm)
              · exact Or.inr (Or.inr ⟨[], u, x, us, ts, hx, rfl, by simp [ht], hrest⟩)
  · rintro (rfl | hshift | hshift)
    · rfl
    · exact hshift.join_eq
    · exact hshift.join_eq.symm

end Texts
