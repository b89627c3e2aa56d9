-- SUMMARY: Deterministic machines driven by lists of inputs: runs, invariants, and properties of every step of a run.
import Mathlib.Data.List.Induction
import Mathlib.Logic.Relation
import Mathlib.Tactic.Common

/-!
# Machines

A machine reads one input at a time, answers it, and moves to its next state.
Nondeterminism (a scheduler, a network, random choices) is part of the input, so
a run is a list of inputs and "every run" is "every list".
-/

/-- A machine with states `σ`, inputs `ι` and outputs `ω`. -/
structure Machine (σ ι ω : Type*) where
  init : σ
  step : σ → ι → σ × ω

namespace Machine

variable {σ ι ω : Type*} (m : Machine σ ι ω)

/-- The state after a step. -/
def next (s : σ) (i : ι) : σ := (m.step s i).1

/-- The answer given by a step. -/
def output (s : σ) (i : ι) : ω := (m.step s i).2

/-- The state a list of inputs leads to. -/
def exec (s : σ) : List ι → σ
  | [] => s
  | i :: is => exec (m.next s i) is

/-- The steps of a run: the state each input meets, with that input. -/
def trace (s : σ) : List ι → List (σ × ι)
  | [] => []
  | i :: is => (s, i) :: trace (m.next s i) is

/-- The states some run leads to. -/
def Reachable (s : σ) : Prop := ∃ is, m.exec m.init is = s

@[simp] theorem exec_nil (s : σ) : m.exec s [] = s := rfl

@[simp] theorem exec_cons (s : σ) (i : ι) (is : List ι) :
    m.exec s (i :: is) = m.exec (m.next s i) is := rfl

@[simp] theorem trace_nil (s : σ) : m.trace s [] = [] := rfl

@[simp] theorem trace_cons (s : σ) (i : ι) (is : List ι) :
    m.trace s (i :: is) = (s, i) :: m.trace (m.next s i) is := rfl

theorem exec_append (s : σ) (is js : List ι) :
    m.exec s (is ++ js) = m.exec (m.exec s is) js := by
  induction is generalizing s with
  | nil => rfl
  | cons i is ih => exact ih (m.next s i)

theorem trace_append (s : σ) (is js : List ι) :
    m.trace s (is ++ js) = m.trace s is ++ m.trace (m.exec s is) js := by
  induction is generalizing s with
  | nil => rfl
  | cons i is ih => simp [ih (m.next s i)]

/-- The inputs of the steps of a run. -/
theorem map_trace (s : σ) (is : List ι) : (m.trace s is).map Prod.snd = is := by
  induction is generalizing s with
  | nil => rfl
  | cons i is ih => rw [trace_cons, List.map_cons, ih]

/-- A step of a run, and the state the inputs before it led to. -/
theorem mem_trace_of_getElem? {s : σ} {is : List ι} {k : Nat} {i : ι} (h : is[k]? = some i) :
    (m.exec s (is.take k), i) ∈ m.trace s is := by
  obtain ⟨hk, rfl⟩ := List.getElem?_eq_some_iff.mp h
  have hsplit : is = is.take k ++ is[k] :: is.drop (k + 1) := by
    rw [List.getElem_cons_drop, List.take_append_drop]
  have hmem : (m.exec s (is.take k), is[k]) ∈
      m.trace s (is.take k ++ is[k] :: is.drop (k + 1)) := by
    rw [trace_append]
    exact List.mem_append_right _ List.mem_cons_self
  rwa [← hsplit] at hmem

/-- The last step of a run. -/
theorem mem_trace_last (s : σ) (is : List ι) (i : ι) :
    (m.exec s is, i) ∈ m.trace s (is ++ [i]) := by
  simp [trace_append]

theorem reachable_init : m.Reachable m.init := ⟨[], rfl⟩

theorem Reachable.next {m : Machine σ ι ω} {s : σ} (h : m.Reachable s) (i : ι) :
    m.Reachable (m.next s i) := by
  obtain ⟨is, rfl⟩ := h
  exact ⟨is ++ [i], by simp [exec_append]⟩

/-! ## Invariants -/

/-- What one step keeps, a whole run keeps. -/
theorem exec_preserves {P : σ → Prop} (hstep : ∀ s i, P s → P (m.next s i)) {s : σ} (hs : P s)
    (is : List ι) : P (m.exec s is) := by
  induction is generalizing s with
  | nil => exact hs
  | cons i is ih => exact ih (hstep s i hs)

/-- What the steps on the inputs of a list keep, the run on the list keeps. -/
theorem exec_preserves_of_mem {P : σ → Prop} {is : List ι}
    (hstep : ∀ i ∈ is, ∀ s, P s → P (m.next s i)) {s : σ} (hs : P s) : P (m.exec s is) := by
  induction is generalizing s with
  | nil => exact hs
  | cons i is ih =>
      exact ih (fun j hj => hstep j (List.mem_cons_of_mem _ hj)) (hstep i List.mem_cons_self s hs)

/-- What the steps of a run keep that are good, a run of good steps keeps. -/
theorem exec_preserves_of_trace {P : σ → Prop} {Q : σ → ι → Prop} {is : List ι}
    (hstep : ∀ s i, P s → Q s i → P (m.next s i)) {s : σ} (hs : P s)
    (hQ : ∀ t ∈ m.trace s is, Q t.1 t.2) : P (m.exec s is) := by
  induction is generalizing s with
  | nil => exact hs
  | cons i is ih =>
      rw [trace_cons, List.forall_mem_cons] at hQ
      exact ih (hstep s i hs hQ.1) hQ.2

/-- What one input brings about and no step undoes holds after every run with that input. -/
theorem exec_established {P : σ → Prop} {i : ι} (hstart : ∀ s, P (m.next s i))
    (hkeep : ∀ s j, P s → P (m.next s j)) (s : σ) {is : List ι} (hi : i ∈ is) :
    P (m.exec s is) := by
  obtain ⟨before, after, rfl⟩ := List.append_of_mem hi
  rw [exec_append, exec_cons]
  exact m.exec_preserves hkeep (hstart _) after

/-- An invariant that also speaks of the run so far. -/
theorem exec_records {P : List (σ × ι) → σ → Prop}
    (hstep : ∀ h s i, P h s → P (h ++ [(s, i)]) (m.next s i))
    {s : σ} (hs : P [] s) (is : List ι) : P (m.trace s is) (m.exec s is) := by
  induction is using List.reverseRecOn with
  | nil => exact hs
  | append_singleton is i ih =>
      rw [trace_append, exec_append]
      exact hstep _ _ i ih

/-- The induction rule for reachable states. -/
theorem Reachable.invariant {m : Machine σ ι ω} {P : σ → Prop} (hinit : P m.init)
    (hstep : ∀ s i, P s → P (m.next s i)) {s : σ} (h : m.Reachable s) : P s := by
  obtain ⟨is, rfl⟩ := h
  exact m.exec_preserves hstep hinit is

/-! ## Properties of every step

`Q s i` says that the step on input `i` from state `s` is good. -/

theorem trace_forall_cons {Q : σ → ι → Prop} {s : σ} {i : ι} {is : List ι} :
    (∀ t ∈ m.trace s (i :: is), Q t.1 t.2) ↔
      Q s i ∧ ∀ t ∈ m.trace (m.next s i) is, Q t.1 t.2 := by
  simp

/-- A run is good at every step if every step from an invariant state is. -/
theorem trace_forall_of_step {P : σ → Prop} {Q : σ → ι → Prop}
    (hpres : ∀ s i, P s → P (m.next s i)) (hQ : ∀ s i, P s → Q s i) {s : σ} (hs : P s)
    (is : List ι) : ∀ t ∈ m.trace s is, Q t.1 t.2 := by
  induction is generalizing s with
  | nil => simp
  | cons i is ih =>
      rw [trace_forall_cons]
      exact ⟨hQ s i hs, ih (hpres s i hs)⟩

/-- A run of good steps, which keep the invariant, has the property at every step. -/
theorem trace_forall_of_good {P : σ → Prop} {C Q : σ → ι → Prop}
    (hpres : ∀ s i, P s → C s i → P (m.next s i))
    (hQ : ∀ s i, P s → C s i → Q s i) {s : σ} (hs : P s) (is : List ι)
    (hC : ∀ t ∈ m.trace s is, C t.1 t.2) : ∀ t ∈ m.trace s is, Q t.1 t.2 := by
  induction is generalizing s with
  | nil => simp
  | cons i is ih =>
      rw [trace_forall_cons] at hC ⊢
      exact ⟨hQ s i hs hC.1, ih (hpres s i hs hC.1) hC.2⟩

/-- An exact condition for one step is an exact condition for whole runs: when, from
every invariant state, a step is good exactly under `C`, and good steps keep the
invariant, then all steps of a run are good exactly if they all meet `C`. -/
theorem trace_forall_iff {P : σ → Prop} {Q C : σ → ι → Prop}
    (hiff : ∀ s i, P s → (Q s i ↔ C s i)) (hpres : ∀ s i, P s → Q s i → P (m.next s i))
    {s : σ} (hs : P s) (is : List ι) :
    (∀ t ∈ m.trace s is, Q t.1 t.2) ↔ ∀ t ∈ m.trace s is, C t.1 t.2 := by
  induction is generalizing s with
  | nil => simp
  | cons i is ih =>
      rw [trace_forall_cons, trace_forall_cons, hiff s i hs]
      refine and_congr_right fun hC => ?_
      exact ih (hpres s i hs ((hiff s i hs).mpr hC))

/-- A value is final in a run, once it is one of some kind, exactly if no single step changes it. -/
theorem trace_final_iff {α : Type*} (f : σ → α) (T : α → Prop) (s : σ) (is : List ι) :
    (∀ n k, n ≤ k → T (f (m.exec s (is.take n))) →
        f (m.exec s (is.take k)) = f (m.exec s (is.take n))) ↔
      ∀ t ∈ m.trace s is, T (f t.1) → f (m.next t.1 t.2) = f t.1 := by
  induction is generalizing s with
  | nil => simp
  | cons i is ih =>
      rw [trace_cons, List.forall_mem_cons]
      constructor
      · intro h
        refine ⟨h 0 1 (Nat.zero_le 1), (ih (m.next s i)).mp fun n k hnk => ?_⟩
        exact h (n + 1) (k + 1) (Nat.succ_le_succ hnk)
      · rintro ⟨hfirst, hrest⟩ n k hnk hT
        have hlater := (ih (m.next s i)).mpr hrest
        cases n with
        | zero =>
            cases k with
            | zero => rfl
            | succ k =>
                have hkept := hfirst hT
                have hT' : T (f (m.next s i)) := by
                  rw [hkept]
                  exact hT
                exact (hlater 0 k (Nat.zero_le k) hT').trans hkept
        | succ n =>
            cases k with
            | zero => exact absurd hnk (Nat.not_succ_le_zero n)
            | succ k => exact hlater n k (Nat.le_of_succ_le_succ hnk) hT

/-! ## Properties of two steps -/

/-- What a step establishes and all later steps keep relates it to every later step. -/
theorem trace_pairwise {P : σ → Prop} {K : σ × ι → σ → Prop} {R : σ × ι → σ × ι → Prop}
    (hpres : ∀ s i, P s → P (m.next s i)) (hstart : ∀ s i, P s → K (s, i) (m.next s i))
    (hkeep : ∀ e s i, K e s → K e (m.next s i)) (hrel : ∀ e s i, K e s → R e (s, i))
    {s : σ} (hs : P s) (is : List ι) : (m.trace s is).Pairwise R := by
  induction is generalizing s with
  | nil => exact List.Pairwise.nil
  | cons i is ih =>
      rw [trace_cons, List.pairwise_cons]
      refine ⟨?_, ih (hpres s i hs)⟩
      intro e he
      exact m.trace_forall_of_step (fun t j => hkeep (s, i) t j) (fun t j => hrel (s, i) t j)
        (hstart s i hs) is e he

/-! ## Simulations

Two machines that read the same inputs and keep a relation between their states. -/

variable {σ' ω' : Type*} {m : Machine σ ι ω} {m' : Machine σ' ι ω'} {R : σ → σ' → Prop}

theorem exec_simulates (hstep : ∀ s s' i, R s s' → R (m.next s i) (m'.next s' i)) {s : σ} {s' : σ'}
    (h : R s s') (is : List ι) : R (m.exec s is) (m'.exec s' is) := by
  induction is generalizing s s' with
  | nil => exact h
  | cons i is ih => exact ih (hstep s s' i h)

/-- A machine whose every step, seen through `f`, is a number of steps of a relation. -/
theorem exec_refines {τ : Type*} {r : τ → τ → Prop} (f : σ → τ) {P : σ → Prop}
    (hpres : ∀ s i, P s → P (m.next s i))
    (hstep : ∀ s i, P s → Relation.ReflTransGen r (f s) (f (m.next s i))) {s : σ} (hs : P s)
    (is : List ι) : Relation.ReflTransGen r (f s) (f (m.exec s is)) := by
  induction is generalizing s with
  | nil => exact Relation.ReflTransGen.refl
  | cons i is ih => exact (hstep s i hs).trans (ih (hpres s i hs))

/-- A machine that hands over to another: a run is before that, or it splits where that happened and
has since followed the other machine on the inputs that concern it. -/
theorem exec_hands_over {κ : Type*} {B : σ → Prop} {C : σ → ι → Prop} {m' : Machine σ' κ ω'}
    {f : ι → Option κ} (hbefore : ∀ s i, B s → C s i → B (m.next s i) ∨ ∃ s', R (m.next s i) s')
    (hafter : ∀ s s' i, R s s' → C s i → R (m.next s i) (m'.exec s' (f i).toList))
    {s : σ} (hs : B s) {is : List ι} (hC : ∀ t ∈ m.trace s is, C t.1 t.2) :
    B (m.exec s is) ∨ ∃ before i after s', is = before ++ i :: after ∧ B (m.exec s before) ∧
      R (m.exec s (before ++ [i])) s' ∧ R (m.exec s is) (m'.exec s' (after.filterMap f)) := by
  induction is using List.reverseRecOn with
  | nil => exact Or.inl hs
  | append_singleton is i ih =>
      have hlast := hC _ (m.mem_trace_last s is i)
      have hnext : m.exec s (is ++ [i]) = m.next (m.exec s is) i := m.exec_append s is [i]
      rw [trace_append] at hC
      rcases ih fun t ht => hC t (List.mem_append_left _ ht) with
        hB | ⟨before, j, after, s', rfl, hB, hR, hrest⟩
      · rcases hbefore _ i hB hlast with hstill | ⟨s', hR⟩
        · exact Or.inl (hnext ▸ hstill)
        · exact Or.inr ⟨is, i, [], s', rfl, hB, hnext ▸ hR, hnext ▸ hR⟩
      · refine Or.inr ⟨before, j, after ++ [i], s', by simp, hB, hR, ?_⟩
        have hlater := hafter _ _ i hrest hlast
        have hinput : [i].filterMap f = (f i).toList := by
          cases hi : f i <;> simp [hi]
        rw [hnext, List.filterMap_append, hinput, m'.exec_append]
        exact hlater

/-- A property of steps that the relation respects holds of all steps of both runs or of neither. -/
theorem trace_forall_simulates {Q : σ → ι → Prop} {Q' : σ' → ι → Prop}
    (hstep : ∀ s s' i, R s s' → R (m.next s i) (m'.next s' i))
    (hiff : ∀ s s' i, R s s' → (Q s i ↔ Q' s' i)) {s : σ} {s' : σ'} (h : R s s') (is : List ι) :
    (∀ t ∈ m.trace s is, Q t.1 t.2) ↔ ∀ t ∈ m'.trace s' is, Q' t.1 t.2 := by
  induction is generalizing s s' with
  | nil => simp
  | cons i is ih =>
      rw [trace_forall_cons, trace_forall_cons, hiff s s' i h, ih (hstep s s' i h)]

end Machine
