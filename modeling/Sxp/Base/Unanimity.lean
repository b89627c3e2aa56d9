-- SUMMARY: Unanimous choice: every member announces at most one value, and who decides has seen all members announce its value.
import Mathlib.Logic.Function.Basic
import Mathlib.Logic.Relation

/-!
# Unanimous choice

The members of a group choose one value together. Each announces at most one value, of
those it allows, and decides for a value only after everybody announced it. Members need
not announce or decide at all.
-/

/-- What the members of a group announced, and what they decided. -/
@[ext]
structure Unanimity (ι α : Type*) where
  announced : ι → Option α
  decided : ι → Option α

namespace Unanimity

variable {ι α : Type*}

def init : Unanimity ι α := { announced := fun _ => none, decided := fun _ => none }

/-- Announced values are allowed, and decided values are announced by everybody. -/
structure Sound (allowed : ι → Set α) (s : Unanimity ι α) : Prop where
  allowed : ∀ i a, s.announced i = some a → a ∈ allowed i
  unanimous : ∀ i a, s.decided i = some a → ∀ j, s.announced j = some a

variable {allowed : ι → Set α} {s s' : Unanimity ι α}

theorem Sound.init : Sound allowed (init : Unanimity ι α) where
  allowed _ _ h := by cases h
  unanimous _ _ h := by cases h

/-- All decisions are for one value, and everybody allows it. -/
theorem Sound.agreement (h : s.Sound allowed) {i j : ι} {a b : α} (ha : s.decided i = some a)
    (hb : s.decided j = some b) : a = b ∧ ∀ k, a ∈ allowed k := by
  have hall := h.unanimous i a ha
  refine ⟨?_, fun k => h.allowed k a (hall k)⟩
  have hsame := h.unanimous j b hb i
  rw [hall i, Option.some.injEq] at hsame
  exact hsame

/-! ## Steps -/

variable [DecidableEq ι]

inductive Step (allowed : ι → Set α) (s : Unanimity ι α) : Unanimity ι α → Prop
  | announce (i : ι) (a : α) : s.announced i = none → a ∈ allowed i →
      Step allowed s { s with announced := Function.update s.announced i (some a) }
  | decide (i : ι) (a : α) : (∀ j, s.announced j = some a) →
      Step allowed s { s with decided := Function.update s.decided i (some a) }

theorem Sound.step (h : s.Sound allowed) (hstep : Step allowed s s') : s'.Sound allowed := by
  cases hstep with
  | announce i a hnone ha =>
      refine ⟨fun j b hb => ?_, fun j b hb k => ?_⟩
      · simp only [Function.update_apply] at hb
        split at hb
        · rename_i hji
          rw [hji, ← Option.some.inj hb]
          exact ha
        · exact h.allowed j b hb
      · -- nobody has decided while a member has not announced anything
        have hall := h.unanimous j b hb
        rw [hall i] at hnone
        cases hnone
  | decide i a hall =>
      refine ⟨h.allowed, fun j b hb => ?_⟩
      simp only [Function.update_apply] at hb
      split at hb
      · rw [← Option.some.inj hb]
        exact hall
      · exact h.unanimous j b hb

theorem Sound.steps (h : s.Sound allowed) (hsteps : Relation.ReflTransGen (Step allowed) s s') :
    s'.Sound allowed := by
  induction hsteps with
  | refl => exact h
  | tail _ hstep ih => exact ih.step hstep

/-- One member moves: what it had announced stays, and it decides at most for what everybody
has announced by then. -/
theorem steps_of_move {i : ι} {a d : Option α}
    (hannounced : s'.announced = Function.update s.announced i a)
    (hdecided : s'.decided = Function.update s.decided i d)
    (hkept : ∀ b, s.announced i = some b → a = some b) (hallowed : ∀ b, a = some b → b ∈ allowed i)
    (hunanimous : d = s.decided i ∨ ∃ b, d = some b ∧ ∀ j, s'.announced j = some b) :
    Relation.ReflTransGen (Step allowed) s s' := by
  have hfirst : Relation.ReflTransGen (Step allowed) s { s with announced := s'.announced } := by
    rw [hannounced]
    cases hold : s.announced i with
    | some b => rw [hkept b hold, ← hold, Function.update_eq_self]
    | none =>
        cases a with
        | none => rw [← hold, Function.update_eq_self]
        | some b => exact Relation.ReflTransGen.single (Step.announce i b hold (hallowed b rfl))
  refine hfirst.trans ?_
  have hs' : s' = { announced := s'.announced, decided := Function.update s.decided i d } := by
    rw [← hdecided]
  rw [hs']
  rcases hunanimous with hsame | ⟨b, hb, hall⟩
  · rw [hsame, Function.update_eq_self]
  · rw [hb]
    exact Relation.ReflTransGen.single
      (Step.decide (s := { s with announced := s'.announced }) i b hall)

end Unanimity
