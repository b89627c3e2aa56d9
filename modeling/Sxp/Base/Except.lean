-- SUMMARY: Reading off how a computation that can throw came to its result.
import Mathlib.Tactic.Common

/-!
# Computations that can throw

Inversion rules for `Except`: a result `.ok b` of a sequence of steps gives the
result of every step.
-/

namespace Except

variable {ε : Type} {α β : Type}

theorem bind_eq_ok {x : Except ε α} {f : α → Except ε β} {b : β} :
    x >>= f = .ok b ↔ ∃ a, x = .ok a ∧ f a = .ok b := by
  cases x with
  | error e => simp [bind, Except.bind]
  | ok a => simp [bind, Except.bind]

@[simp] theorem ok_bind (a : α) (f : α → Except ε β) : (.ok a : Except ε α) >>= f = f a := rfl

@[simp] theorem pure_eq_ok {a b : α} : (pure a : Except ε α) = .ok b ↔ a = b := by
  simp [pure, Except.pure]

/-- A conditional step that answers `false` when the test fails. -/
theorem ite_ok_true {b : Bool} {x : Except ε Bool} :
    (if b = true then x else pure false) = .ok true ↔ b = true ∧ x = .ok true := by
  cases b <;> simp [pure, Except.pure]

end Except

namespace List

variable {ε α : Type} {f : α → Except ε Bool}

theorem allM_eq_ok_true {xs : List α} :
    xs.allM f = .ok true ↔ ∀ x ∈ xs, f x = .ok true := by
  induction xs with
  | nil => simp [pure, Except.pure]
  | cons x xs ih =>
      rw [List.allM, Except.bind_eq_ok]
      constructor
      · rintro ⟨b, hb, hrest⟩
        cases b with
        | false => simp [pure, Except.pure] at hrest
        | true => simpa [hb] using ih.mp hrest
      · intro h
        exact ⟨true, h x (by simp), ih.mpr fun y hy => h y (by simp [hy])⟩

/-- A disjunction computed by a loop that looks at every element. -/
theorem exists_of_foldlM_or {xs : List α} {b : Bool}
    (h : xs.foldlM (fun acc x => do return acc || (← f x)) b = .ok true) :
    b = true ∨ ∃ x ∈ xs, f x = .ok true := by
  induction xs generalizing b with
  | nil => exact Or.inl (Except.pure_eq_ok.mp h)
  | cons x xs ih =>
      simp only [List.foldlM_cons, Except.bind_eq_ok, Except.pure_eq_ok] at h
      obtain ⟨acc, ⟨c, hc, rfl⟩, hrest⟩ := h
      rcases ih hrest with hor | ⟨y, hy, hfy⟩
      · rcases Bool.or_eq_true_iff.mp hor with hb | rfl
        · exact Or.inl hb
        · exact Or.inr ⟨x, by simp, hc⟩
      · exact Or.inr ⟨y, by simp [hy], hfy⟩

/-- A loop whose steps all succeed succeeds. -/
theorem exists_mapM_eq_ok {β : Type} {g : α → Except ε β} {xs : List α}
    (h : ∀ x ∈ xs, ∃ y, g x = .ok y) : ∃ ys, xs.mapM g = .ok ys := by
  induction xs with
  | nil => exact ⟨[], rfl⟩
  | cons x xs ih =>
      obtain ⟨y, hy⟩ := h x (by simp)
      obtain ⟨ys, hys⟩ := ih fun z hz => h z (by simp [hz])
      exact ⟨y :: ys, by simp [List.mapM_cons, hy, hys, pure, Except.pure]⟩

/-- A loop whose steps all have results that fit. -/
theorem exists_mapM_forall₂ {β : Type} {g : α → Except ε β} {R : β → α → Prop} {xs : List α}
    (h : ∀ x ∈ xs, ∃ y, g x = .ok y ∧ R y x) : ∃ ys, xs.mapM g = .ok ys ∧ List.Forall₂ R ys xs := by
  induction xs with
  | nil => exact ⟨[], rfl, List.Forall₂.nil⟩
  | cons x xs ih =>
      obtain ⟨y, hy, hR⟩ := h x (by simp)
      obtain ⟨ys, hys, hall⟩ := ih fun z hz => h z (by simp [hz])
      exact ⟨y :: ys, by simp [List.mapM_cons, hy, hys, pure, Except.pure],
        List.Forall₂.cons hR hall⟩

/-- A loop whose steps all give their result. -/
theorem mapM_eq_ok_map {β : Type} {g : α → Except ε β} {val : α → β} {xs : List α}
    (h : ∀ x ∈ xs, g x = .ok (val x)) : xs.mapM g = .ok (xs.map val) := by
  induction xs with
  | nil => rfl
  | cons x xs ih =>
      rw [List.mapM_cons, h x (by simp), ih fun y hy => h y (by simp [hy])]
      rfl

/-- What a loop whose steps all succeed returns, element by element. -/
theorem mapM_eq_ok_iff {β : Type} {g : α → Except ε β} {xs : List α} {ys : List β} :
    xs.mapM g = .ok ys ↔ List.Forall₂ (fun x y => g x = .ok y) xs ys := by
  induction xs generalizing ys with
  | nil =>
      rw [List.mapM_nil, Except.pure_eq_ok]
      exact ⟨fun h => h ▸ List.Forall₂.nil, fun h => by cases h; rfl⟩
  | cons x xs ih =>
      simp only [List.mapM_cons, Except.bind_eq_ok, Except.pure_eq_ok, ih]
      constructor
      · rintro ⟨y, hy, zs, hzs, rfl⟩
        exact List.Forall₂.cons hy hzs
      · intro h
        cases h with
        | cons hy hzs => exact ⟨_, hy, _, hzs, rfl⟩

/-- A loop has results that fit exactly if each of its steps has one. -/
theorem exists_mapM_forall₂_iff {β : Type} {g : α → Except ε β} {R : β → α → Prop} {xs : List α} :
    (∃ ys, xs.mapM g = .ok ys ∧ List.Forall₂ R ys xs) ↔ ∀ x ∈ xs, ∃ y, g x = .ok y ∧ R y x := by
  refine ⟨?_, exists_mapM_forall₂⟩
  rintro ⟨ys, hys, hR⟩
  rw [mapM_eq_ok_iff] at hys
  induction hys with
  | nil => exact List.forall_mem_nil _
  | cons hy _ ih =>
      cases hR with
      | cons hyR hysR => exact List.forall_mem_cons.mpr ⟨⟨_, hy, hyR⟩, ih hysR⟩

section FilterMap

variable {β : Type} {g : α → Except ε (Option β)} {r : α → Option β} {xs : List α}

theorem length_le_of_filterMapM {ys : List β} (hr : ∀ x y, r x = some y → g x = .ok (some y))
    (h : xs.filterMapM g = .ok ys) : (xs.filterMap r).length ≤ ys.length := by
  induction xs generalizing ys with
  | nil => exact Nat.zero_le _
  | cons x rest ih =>
      rw [filterMapM_cons, Except.bind_eq_ok] at h
      obtain ⟨found, hfound, h⟩ := h
      cases found with
      | none =>
          have hnone : r x = none := by
            rw [Option.eq_none_iff_forall_ne_some]
            intro y hy
            rw [hr x y hy] at hfound
            cases hfound
          rw [filterMap_cons_none hnone]
          exact ih h
      | some y =>
          obtain ⟨zs, hzs, hys⟩ := Except.bind_eq_ok.mp h
          obtain rfl := Except.ok.inj hys
          have hrest := ih hzs
          rw [filterMap_cons, length_cons]
          cases r x with
          | none => exact Nat.le_succ_of_le hrest
          | some _ => exact Nat.succ_le_succ hrest

/-- If `g` finds all that `r` does, the list is the one of `r` exactly if they agree on each
element. -/
theorem filterMapM_eq_ok_iff (hr : ∀ x y, r x = some y → g x = .ok (some y)) :
    xs.filterMapM g = .ok (xs.filterMap r) ↔ ∀ x ∈ xs, g x = .ok (r x) := by
  induction xs with
  | nil => simp [pure, Except.pure]
  | cons x rest ih =>
      rw [forall_mem_cons, ← ih, filterMapM_cons]
      cases hfound : g x with
      | error e => simp [bind, Except.bind]
      | ok found =>
          rw [Except.ok_bind]
          cases hread : r x with
          | some y =>
              obtain rfl := Except.ok.inj (hfound.symm.trans (hr x y hread))
              rw [filterMap_cons_some hread]
              cases hrest : rest.filterMapM g with
              | error e => simp [bind, Except.bind]
              | ok ys => simp [pure, Except.pure]
          | none =>
              rw [filterMap_cons_none hread]
              cases found with
              | none => simp
              | some z =>
                  -- one element more than `r` finds
                  refine iff_of_false (fun h => ?_) (by simp)
                  obtain ⟨zs, hzs, hys⟩ := Except.bind_eq_ok.mp h
                  have hle := length_le_of_filterMapM hr hzs
                  rw [← Except.ok.inj hys, length_cons] at hle
                  omega

end FilterMap

end List
