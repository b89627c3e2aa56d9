-- SUMMARY: Invariants of a solver: at most one claim in a slot, no claim left once a claim has won, slots never removed.
import Sxp.Trent.Ruling

/-!
# Runs of a solver

The claim list only grows, and what its slots hold only shrinks. A solver is
contested once a claim has been kept and closed once one has won; neither state is
ever left.
-/

namespace Sxp

namespace TrentSolver

/-! ## What the operations do to the slots -/

@[simp] theorem condemn_length (s : TrentSolver) (k : Nat) (party : JString)
    (proof : Option String × Option String) :
    (s.condemn k party proof).possiblyHonestClaims.length = s.possiblyHonestClaims.length := by
  simp [condemn]

theorem condemn_slot (s : TrentSolver) (k : Nat) (party : JString)
    (proof : Option String × Option String) (i : Nat) :
    (s.condemn k party proof).possiblyHonestClaims[i]? =
      s.possiblyHonestClaims[i]?.map fun claims =>
        if k = i then claims.remove party else claims := by
  rw [condemn, List.getElem?_modify]
  cases s.possiblyHonestClaims[i]? with
  | none => rfl
  | some claims => rcases Decidable.em (k = i) with h | h <;> simp [h]

theorem mem_condemn {s : TrentSolver} {k : Nat} {party : JString}
    {proof : Option String × Option String} {claims : HashMap JString String}
    (h : claims ∈ (s.condemn k party proof).possiblyHonestClaims) :
    ∃ claims' ∈ s.possiblyHonestClaims, claims = claims' ∨ claims = claims'.remove party := by
  obtain ⟨i, hi⟩ := List.getElem?_of_mem h
  rw [condemn_slot, Option.map_eq_some_iff] at hi
  obtain ⟨claims', hget, rfl⟩ := hi
  refine ⟨claims', List.mem_of_getElem? hget, ?_⟩
  rcases Decidable.em (k = i) with hk | hk
  · exact Or.inr (by simp [hk])
  · exact Or.inl (by simp [hk])

/-! ## Well-formed solvers -/

/-- The states a solver can be in. -/
structure Sound (s : TrentSolver) : Prop where
  small : ∀ claims ∈ s.possiblyHonestClaims, claims.Small
  closed : s.optimistic = false → s.possiblyHonestClaims = []

theorem sound_init (c : ContractTerms) : Sound { contract := c } where
  small := by simp
  closed := by simp

theorem Sound.condemn {s : TrentSolver} (h : s.Sound) (k : Nat) (party : JString)
    (proof : Option String × Option String) : (s.condemn k party proof).Sound where
  small := by
    intro claims hmem
    obtain ⟨claims', hmem', rfl | rfl⟩ := mem_condemn hmem
    · exact h.small _ hmem'
    · exact (h.small _ hmem').remove party
  closed := by
    intro hopt
    have hnil := h.closed hopt
    simp [TrentSolver.condemn, hnil]

theorem Wins.nil {s : TrentSolver} (h : s.Sound) {req : Request} (hwins : s.Wins req) :
    s.possiblyHonestClaims = [] := by
  rcases hwins with ⟨hnil, -⟩ | hopt
  · exact hnil
  · exact h.closed hopt

theorem optimistic_of_not_wins {s : TrentSolver} {req : Request} (h : ¬ s.Wins req) :
    s.optimistic = true := by
  cases hopt : s.optimistic with
  | true => rfl
  | false => exact absurd (Or.inr hopt) h

theorem Sound.keepClaim {s : TrentSolver} (h : s.Sound) {req : Request} (hwins : ¬ s.Wins req)
    (k : Nat) : (s.keepClaim k req).Sound where
  small := by
    intro claims hmem
    rcases List.eq_or_mem_of_mem_insertIdx hmem with rfl | hmem
    · exact HashMap.small_singleton _ _
    · exact h.small _ hmem
  closed := by
    intro hopt
    have hopt' := optimistic_of_not_wins hwins
    rw [show (s.keepClaim k req).optimistic = s.optimistic from rfl, hopt'] at hopt
    cases hopt

theorem Sound.after {s : TrentSolver} (h : s.Sound) (req : Request) :
    (s.after req (s.ruling req)).Sound := by
  cases hruling : s.ruling req with
  | outOfRange => exact h
  | overturn k j => exact h.condemn k j _
  | ownClaim k m => exact h.condemn k req.senderId _
  | laterClaim k j => exact h.condemn k req.senderId _
  | resolve =>
      have hjust := justified_of_ruling hruling
      -- only an empty list is closed
      have hnil : s.possiblyHonestClaims = [] := Wins.nil h hjust.2
      exact ⟨h.small, fun _ => hnil⟩
  | keep =>
      have hjust := justified_of_ruling hruling
      exact h.keepClaim hjust.2.1 _
  | noSlot => exact h

@[simp] theorem after_contract (s : TrentSolver) (req : Request) (r : Ruling) :
    (s.after req r).contract = s.contract := by
  cases r <;> rfl

/-- What a solver of the contract `c` keeps along its runs. -/
structure SoundFor (c : ContractTerms) (s : TrentSolver) : Prop extends Sound s where
  contract_eq : s.contract = c

theorem soundFor_init (trent : Trent) (c : ContractTerms) : SoundFor c (machine trent c).init :=
  ⟨sound_init c, rfl⟩

theorem SoundFor.next {trent : Trent} {c : ContractTerms} {s : TrentSolver} (h : SoundFor c s)
    (req : Request) : SoundFor c ((machine trent c).next s req) := by
  rw [machine_next]
  exact ⟨h.toSound.after req, by rw [after_contract, h.contract_eq]⟩

/-- An exact condition on one step of a sound solver is exact for runs. -/
theorem run_forall_iff (trent : Trent) (c : ContractTerms) (Q C : TrentSolver → Request → Prop)
    (hiff : ∀ s req, SoundFor c s → (Q s req ↔ C s req)) (reqs : List Request) :
    (∀ e ∈ (machine trent c).trace (machine trent c).init reqs, Q e.1 e.2) ↔
      ∀ e ∈ (machine trent c).trace (machine trent c).init reqs, C e.1 e.2 :=
  (machine trent c).trace_forall_iff hiff (fun _ req h _ => h.next req) (soundFor_init trent c) reqs

theorem length_le_after (s : TrentSolver) (req : Request) (r : Ruling) :
    s.possiblyHonestClaims.length ≤ (s.after req r).possiblyHonestClaims.length := by
  cases r with
  | outOfRange => exact le_rfl
  | overturn k j => exact (condemn_length s k j _).ge
  | ownClaim k m => exact (condemn_length s k _ _).ge
  | laterClaim k j => exact (condemn_length s k _ _).ge
  | resolve => exact le_rfl
  | keep => exact List.length_le_length_insertIdx
  | noSlot => exact le_rfl

/-- Only keeping a claim makes the list longer. -/
theorem after_list (s : TrentSolver) (req : Request) (r : Ruling) :
    (s.after req r).possiblyHonestClaims.length = s.possiblyHonestClaims.length ∨ r = .keep := by
  cases r with
  | keep => exact Or.inr rfl
  | outOfRange => exact Or.inl rfl
  | overturn k j => exact Or.inl (condemn_length s k j _)
  | ownClaim k m => exact Or.inl (condemn_length s k _ _)
  | laterClaim k j => exact Or.inl (condemn_length s k _ _)
  | resolve => exact Or.inl rfl
  | noSlot => exact Or.inl rfl

/-! ## Contested and closed solvers -/

/-- A claim has been kept: from now on no claim wins. -/
def Contested (s : TrentSolver) : Prop := s.possiblyHonestClaims ≠ [] ∧ s.optimistic = true

/-- A claim has won: from now on no claim is kept. -/
def Closed (s : TrentSolver) : Prop := s.possiblyHonestClaims = [] ∧ s.optimistic = false

theorem Contested.not_wins {s : TrentSolver} (h : s.Contested) (req : Request) : ¬ s.Wins req := by
  rintro (⟨hnil, -⟩ | hopt)
  · exact h.1 hnil
  · rw [h.2] at hopt
    cases hopt

theorem Contested.after {s : TrentSolver} (h : s.Contested) (req : Request) :
    (s.after req (s.ruling req)).Contested := by
  constructor
  · intro hnil
    have hlen := length_le_after s req (s.ruling req)
    rw [hnil] at hlen
    exact h.1 (List.eq_nil_of_length_eq_zero (Nat.le_zero.mp hlen))
  · cases hruling : s.ruling req with
    | resolve =>
        have hjust := justified_of_ruling hruling
        exact absurd hjust.2 (h.not_wins req)
    | _ => exact h.2

theorem Closed.other {s : TrentSolver} (h : s.Closed) (senderId : JString) (k : Nat) :
    s.other senderId k = none := by
  simp [TrentSolver.other, h.1]

/-- A closed solver resolves or throws. -/
theorem Closed.ruling {s : TrentSolver} (h : s.Closed) (req : Request) :
    s.ruling req = .outOfRange ∨ s.ruling req = .resolve := by
  cases hruling : s.ruling req with
  | outOfRange => exact Or.inl rfl
  | resolve => exact Or.inr rfl
  | overturn k j =>
      have hjust := justified_of_ruling hruling
      simp [Justified, h.other] at hjust
  | ownClaim k m =>
      have hjust := justified_of_ruling hruling
      simp [Justified, h.1] at hjust
  | laterClaim k j =>
      have hjust := justified_of_ruling hruling
      simp [Justified, h.other] at hjust
  | keep =>
      have hjust := justified_of_ruling hruling
      exact absurd (Or.inr h.2) hjust.2.1
  | noSlot =>
      have hjust := justified_of_ruling hruling
      exact absurd (Or.inr h.2) hjust.2.1

theorem Closed.after {s : TrentSolver} (h : s.Closed) (req : Request) :
    (s.after req (s.ruling req)).Closed := by
  rcases h.ruling req with hruling | hruling
  · rw [hruling]
    exact h
  · rw [hruling]
    exact ⟨h.1, rfl⟩

theorem keepClaim_length {s : TrentSolver} {req : Request} (h : s.HasSlot req) :
    (s.keepClaim req.round.toNat req).possiblyHonestClaims.length =
      s.possiblyHonestClaims.length + 1 := by
  obtain ⟨hnonneg, hle⟩ := h
  simp only [keepClaim]
  rw [List.length_insertIdx_of_le_length (by omega)]

theorem contested_of_keep {s : TrentSolver} {req : Request} (h : s.ruling req = .keep) :
    (s.after req .keep).Contested := by
  obtain ⟨-, hwins, hslot⟩ := justified_of_ruling h
  constructor
  · intro hnil
    have hlen := keepClaim_length hslot
    rw [show (s.keepClaim req.round.toNat req).possiblyHonestClaims = [] from hnil] at hlen
    cases hlen
  · exact (optimistic_of_not_wins hwins : s.optimistic = true)

theorem closed_of_resolve {s : TrentSolver} (hs : s.Sound) {req : Request}
    (h : s.ruling req = .resolve) : (s.after req .resolve).Closed := by
  have hjust := justified_of_ruling h
  exact ⟨(Wins.nil hs hjust.2 : s.possiblyHonestClaims = []), rfl⟩

/-- Only a contested solver has somebody to overturn. -/
theorem contested_of_overturn {s : TrentSolver} (hs : s.Sound) {req : Request} {k : Nat}
    {j : JString} (h : s.ruling req = .overturn k j) : s.Contested := by
  have hjust := justified_of_ruling h
  have hne : s.possiblyHonestClaims ≠ [] := by
    intro hnil
    have hother := hjust.2.1
    simp [other, hnil] at hother
  refine ⟨hne, ?_⟩
  cases hopt : s.optimistic with
  | true => rfl
  | false => exact absurd (hs.closed hopt) hne

end TrentSolver

end Sxp
