-- SUMMARY: What holds after a run because of one of its inputs, and because of no input after that.
import Sxp.Base.Machine

/-!
# Since

The past-time operator for runs of a machine: some input made it so, and no later one undid it. Both
may depend on the inputs before, so that a fact can be said to hold since another one did.
-/

namespace Machine

variable {ι : Type*} {A A' B B' : List ι → ι → Prop} {h : List ι} {i : ι}

/-- Some input of `h` is one of `A`, and all later ones are of `B`. -/
def Since (A B : List ι → ι → Prop) (h : List ι) : Prop :=
  ∃ before i after, h = before ++ i :: after ∧ A before i ∧ ∀ a j b, after = a ++ j :: b →
    B (before ++ i :: a) j

theorem not_since_nil : ¬ Since A B [] := by
  rintro ⟨before, i, after, h, -⟩
  cases before <;> cases h

theorem since_concat : Since A B (h ++ [i]) ↔ A h i ∨ Since A B h ∧ B h i := by
  constructor
  · rintro ⟨before, j, after, heq, hA, hB⟩
    induction after using List.reverseRecOn with
    | nil =>
        obtain ⟨rfl, hij⟩ := List.append_inj' heq rfl
        cases hij
        exact Or.inl hA
    | append_singleton after k ih =>
        rw [← List.cons_append, ← List.append_assoc] at heq
        obtain ⟨rfl, hik⟩ := List.append_inj' heq rfl
        cases hik
        refine Or.inr ⟨⟨before, j, after, rfl, hA, fun a l b hsplit => ?_⟩, hB after _ [] rfl⟩
        exact hB a l (b ++ [i]) (by rw [hsplit, List.append_assoc, List.cons_append])
  · rintro (hA | ⟨⟨before, j, after, rfl, hA, hB⟩, hlast⟩)
    · exact ⟨h, i, [], rfl, hA, fun a k b hsplit => absurd hsplit (by simp)⟩
    · refine ⟨before, j, after ++ [i], by simp, hA, fun a k b hsplit => ?_⟩
      induction b using List.reverseRecOn with
      | nil =>
          obtain ⟨rfl, hik⟩ := List.append_inj' hsplit rfl
          cases hik
          exact hlast
      | append_singleton b l _ =>
          rw [← List.cons_append, ← List.append_assoc] at hsplit
          exact hB a k b (List.append_inj' hsplit rfl).1

theorem Since.mono (hA : ∀ h i, A h i → A' h i) (hB : ∀ h i, B h i → B' h i)
    (hsince : Since A B h) : Since A' B' h := by
  obtain ⟨before, i, after, rfl, hi, hafter⟩ := hsince
  exact ⟨before, i, after, rfl, hA before i hi, fun a j b hsplit => hB _ j (hafter a j b hsplit)⟩

theorem since_congr (hA : ∀ h i, A h i ↔ A' h i) (hB : ∀ h i, B h i ↔ B' h i) : Since A B h ↔
    Since A' B' h :=
  ⟨Since.mono (fun h i => (hA h i).mp) fun h i => (hB h i).mp,
    Since.mono (fun h i => (hA h i).mpr) fun h i => (hB h i).mpr⟩

theorem since_exists {κ : Type*} {A : κ → List ι → ι → Prop} :
    Since (fun h i => ∃ k, A k h i) B h ↔ ∃ k, Since (A k) B h := by
  constructor
  · rintro ⟨before, i, after, rfl, ⟨k, hA⟩, hB⟩
    exact ⟨k, before, i, after, rfl, hA, hB⟩
  · rintro ⟨k, hsince⟩
    exact hsince.mono (fun _ _ hA => ⟨k, hA⟩) fun _ _ hB => hB

/-- Nothing undoes it: some input of `h` is one of `A`. -/
theorem since_true : Since A (fun _ _ => True) h ↔ ∃ before i after, h = before ++ i :: after ∧
    A before i := by
  constructor
  · rintro ⟨before, i, after, hsplit, hA, -⟩
    exact ⟨before, i, after, hsplit, hA⟩
  · rintro ⟨before, i, after, hsplit, hA⟩
    exact ⟨before, i, after, hsplit, hA, fun _ _ _ _ => trivial⟩

variable {σ ω : Type*} (m : Machine σ ι ω)

/-- What some inputs bring about and others undo holds after a run since one of the former. -/
theorem exec_iff_since {P : σ → Prop} {s : σ} (hinit : ¬ P s)
    (hstep : ∀ h i, P (m.next (m.exec s h) i) ↔ A h i ∨ P (m.exec s h) ∧ B h i) (h : List ι) :
    P (m.exec s h) ↔ Since A B h := by
  induction h using List.reverseRecOn with
  | nil => exact iff_of_false hinit not_since_nil
  | append_singleton h i ih =>
      rw [since_concat, m.exec_append, m.exec_cons, m.exec_nil, hstep, ih]

/-- The same in a run whose steps are all good. -/
theorem exec_iff_since_of_good {P : σ → Prop} {C : σ → ι → Prop} {s : σ} (hinit : ¬ P s)
    (hstep : ∀ h i, C (m.exec s h) i → (P (m.next (m.exec s h) i) ↔ A h i ∨ P (m.exec s h) ∧ B h i))
    (h : List ι) (hgood : ∀ t ∈ m.trace s h, C t.1 t.2) : P (m.exec s h) ↔ Since A B h := by
  induction h using List.reverseRecOn with
  | nil => exact iff_of_false hinit not_since_nil
  | append_singleton h i ih =>
      rw [m.trace_append] at hgood
      have hlast := hgood _ (List.mem_append_right _ List.mem_cons_self)
      rw [since_concat, m.exec_append, m.exec_cons, m.exec_nil, hstep h i hlast,
        ih fun t ht => hgood t (List.mem_append_left _ ht)]

end Machine
