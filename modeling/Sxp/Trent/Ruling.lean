-- SUMMARY: The exits of resolveT: which one a request takes, what each does to the solver, and what it answers.
import Sxp.Base.Except
import Sxp.Trent.TrentSolver

/-!
# Rulings

`resolveT` leaves through one of seven exits. `ruling` names the exit a request
takes; the state and the outcome are functions of it, so a fact about runs is a case
analysis on rulings and never unfolds `resolveT`.
-/

namespace Sxp

/-- The exits of `resolveT`. -/
inductive Ruling where
  | outOfRange
  | overturn (k : Nat) (j : JString)
  | ownClaim (k : Nat) (m : String)
  | laterClaim (k : Nat) (j : JString)
  | resolve
  | keep
  | noSlot
deriving Repr, DecidableEq

/-- The exit answers of this kind are given at. -/
def Ruling.Gives (r : Ruling) : AnswerKind → Prop
  | .resolved => r = .resolve
  | .aborted => r = .keep
  | .honestyToken => ∃ k j, r = .overturn k j

namespace TrentSolver

variable (trent : Trent)

/-- The test before a claim is resolved. -/
def Wins (s : TrentSolver) (req : Request) : Prop :=
  s.possiblyHonestClaims = [] ∧ 0 < req.round ∨ s.optimistic = false

instance (s : TrentSolver) (req : Request) : Decidable (s.Wins req) :=
  inferInstanceAs (Decidable (_ ∧ _ ∨ _))

/-- The index `add` accepts. -/
def HasSlot (s : TrentSolver) (req : Request) : Prop :=
  0 ≤ req.round ∧ req.round ≤ s.possiblyHonestClaims.length

instance (s : TrentSolver) (req : Request) : Decidable (s.HasSlot req) :=
  inferInstanceAs (Decidable (_ ∧ _))

def ruling (s : TrentSolver) (req : Request) : Ruling :=
  match s.earlierClaim req.senderId (List.range (req.round - 1).toNat) with
  | .error _ => .outOfRange
  | .ok (some (k, j)) => .overturn k j
  | .ok none =>
      match s.ownClaim req s.possiblyHonestClaims with
      | some (k, m) => .ownClaim k m
      | none =>
          match s.laterClaim req (List.range s.contract.parties.length) with
          | some (k, j) => .laterClaim k j
          | none =>
              if s.Wins req then .resolve
              else if s.HasSlot req then .keep
              else .noSlot

/-- The state an exit leaves. -/
def after (s : TrentSolver) (req : Request) : Ruling → TrentSolver
  | .outOfRange => s
  | .overturn k j => s.condemn k j (s.claimAt k j, some req.m)
  | .ownClaim k m => s.condemn k req.senderId (some req.m, some m)
  | .laterClaim k j => s.condemn k req.senderId (some req.m, s.claimAt k j)
  | .resolve => { s with optimistic := false }
  | .keep => s.keepClaim req.round.toNat req
  | .noSlot => s

/-- What an exit answers. -/
def verdict (s : TrentSolver) (req : Request) : Ruling → Outcome
  | .outOfRange => .error .indexOutOfBounds
  | .overturn k j =>
      .ok (some ⟨.honestyToken, (s.condemn k j (s.claimAt k j, some req.m)).honestyToken trent⟩)
  | .ownClaim _ _ => .ok none
  | .laterClaim _ _ => .ok none
  | .resolve => (s.resolveToken trent req).map fun token => some ⟨.resolved, token⟩
  | .keep => .ok (some ⟨.aborted, (s.keepClaim req.round.toNat req).honestyToken trent⟩)
  | .noSlot => .error .indexOutOfBounds

/-- The only exception of the first loop. -/
theorem earlierClaim_error {s : TrentSolver} {senderId : JString} {ks : List Nat}
    {e : JavaException} (h : s.earlierClaim senderId ks = .error e) : e = .indexOutOfBounds := by
  induction ks with
  | nil => cases h
  | cons k ks ih =>
      simp only [earlierClaim] at h
      split at h
      · cases h
        rfl
      · split at h
        · cases h
        · exact ih h

theorem resolveT_eq (s : TrentSolver) (req : Request) :
    s.resolveT trent req =
      (s.after req (s.ruling req), s.verdict trent req (s.ruling req)) := by
  unfold resolveT ruling
  cases hearlier : s.earlierClaim req.senderId (List.range (req.round - 1).toNat) with
  | error e => simp [after, verdict, earlierClaim_error hearlier]
  | ok r =>
      cases r with
      | some kj => rfl
      | none =>
          cases hown : s.ownClaim req s.possiblyHonestClaims with
          | some km => rfl
          | none =>
              cases hlater : s.laterClaim req (List.range s.contract.parties.length) with
              | some kj => rfl
              | none =>
                  rcases Decidable.em (s.Wins req) with hwins | hwins
                  -- nothing speaks against the claim: it wins, is kept, or has no slot
                  · have htest : ((s.possiblyHonestClaims.isEmpty && decide (0 < req.round)) ||
                        !s.optimistic) = true := by
                      simpa [Wins] using hwins
                    simp [htest, hwins, after, verdict]
                  · have htest : ((s.possiblyHonestClaims.isEmpty && decide (0 < req.round)) ||
                        !s.optimistic) = false := by
                      simpa [Wins] using hwins
                    rcases Decidable.em (s.HasSlot req) with hslot | hslot
                    · have hslot' : 0 ≤ req.round ∧
                        req.round ≤ s.possiblyHonestClaims.length := hslot
                      simp [htest, hwins, hslot, hslot', after, verdict]
                    · have hslot' : ¬ (0 ≤ req.round ∧
                        req.round ≤ s.possiblyHonestClaims.length) := hslot
                      simp only [htest, hwins, hslot, hslot', if_false, Bool.false_eq_true]
                      rfl

/-- A fresh solver keeps an abort. -/
example :
    ({ contract := { parties := [⟨23, 5, 11⟩, ⟨23, 5, 12⟩], clauses := [] } } : TrentSolver).ruling
      { m := "ABORT", round := 0, senderId := ⟨"11", 0⟩ } = .keep := by decide

@[simp] theorem machine_next (c : ContractTerms) (s : TrentSolver) (req : Request) :
    (machine trent c).next s req = s.after req (s.ruling req) :=
  congrArg Prod.fst (resolveT_eq trent s req)

@[simp] theorem machine_output (c : ContractTerms) (s : TrentSolver) (req : Request) :
    (machine trent c).output s req = s.verdict trent req (s.ruling req) :=
  congrArg Prod.snd (resolveT_eq trent s req)

@[simp] theorem machine_init (c : ContractTerms) : (machine trent c).init = { contract := c } := rfl

/-- What an answer says about the exit that was taken. -/
theorem ruling_of_kindOf {s : TrentSolver} {req : Request} {a : AnswerKind}
    (h : kindOf (s.verdict trent req (s.ruling req)) = some a) : (s.ruling req).Gives a := by
  cases hruling : s.ruling req with
  | outOfRange => simp [hruling, verdict, kindOf] at h
  | overturn k j =>
      simp only [hruling, verdict, kindOf, Option.some.injEq] at h
      subst h
      exact ⟨k, j, rfl⟩
  | ownClaim k m => simp [hruling, verdict, kindOf] at h
  | laterClaim k j => simp [hruling, verdict, kindOf] at h
  | resolve =>
      simp only [hruling, verdict] at h
      cases htoken : s.resolveToken trent req with
      | error e => simp [htoken, Except.map, kindOf] at h
      | ok token =>
          simp only [htoken, Except.map, kindOf, Option.some.injEq] at h
          subst h
          rfl
  | keep =>
      simp only [hruling, verdict, kindOf, Option.some.injEq] at h
      subst h
      rfl
  | noSlot => simp [hruling, verdict, kindOf] at h

/-! ## Which exit is taken -/

/-- The key of another object in slot `k`, if the slot exists and has one. -/
def other (s : TrentSolver) (senderId : JString) (k : Nat) : Option JString :=
  s.possiblyHonestClaims[k]?.bind fun claims => otherKey claims senderId

/-- Some claim at an index below `round - 1` has a key of another object. -/
def EarlierHit (s : TrentSolver) (req : Request) : Prop :=
  ∃ k : Nat, (k : Int) + 1 < req.round ∧ s.other req.senderId k ≠ none

/-- The first loop passes: all slots it looks at exist and none belongs to another. -/
def NoEarlier (s : TrentSolver) (req : Request) : Prop :=
  ¬ s.EarlierHit req ∧ req.round ≤ s.possiblyHonestClaims.length + 1

/-- The sender has a claim in a map that is not found first at the claimed round. -/
def OwnHit (s : TrentSolver) (req : Request) : Prop :=
  ∃ claim ∈ s.possiblyHonestClaims, claim.get req.senderId ≠ none ∧
    (s.indexOf claim : Int) ≠ req.round

/-- Some claim at an index from `round + 1` up to `N - 1` has a key of another object. -/
def LaterHit (s : TrentSolver) (req : Request) : Prop :=
  ∃ k : Nat, req.round < k ∧ k < s.contract.parties.length ∧ s.other req.senderId k ≠ none

/-- No test speaks against the sender or against anybody else. -/
def Unopposed (s : TrentSolver) (req : Request) : Prop :=
  s.NoEarlier req ∧ ¬ s.OwnHit req ∧ ¬ s.LaterHit req

theorem other_of_length_le {s : TrentSolver} {k : Nat} (h : s.possiblyHonestClaims.length ≤ k)
    (senderId : JString) : s.other senderId k = none := by
  simp [other, List.getElem?_eq_none h]

/-- A slot with a single claim belongs to every other sender object than its key. -/
theorem other_of_singleton {s : TrentSolver} {k : Nat} {j senderId : JString} {m : String}
    (h : s.possiblyHonestClaims[k]? = some (HashMap.singleton j m)) (hne : j ≠ senderId) :
    s.other senderId k = some j := by
  simp [other, h, otherKey, HashMap.singleton, HashMap.keySet, hne]

theorem earlierClaim_append (s : TrentSolver) (senderId : JString) (ks : List Nat) (k : Nat)
    (h : s.earlierClaim senderId ks = .ok none) :
    s.earlierClaim senderId (ks ++ [k]) = s.earlierClaim senderId [k] := by
  induction ks with
  | nil => rfl
  | cons k' ks ih =>
      simp only [earlierClaim, List.cons_append] at h ⊢
      split at h
      · cases h
      · split at h
        · cases h
        · exact ih h

theorem earlierClaim_append_of_ne (s : TrentSolver) (senderId : JString) (ks : List Nat) (k : Nat)
    (h : s.earlierClaim senderId ks ≠ .ok none) :
    s.earlierClaim senderId (ks ++ [k]) = s.earlierClaim senderId ks := by
  induction ks with
  | nil => exact absurd rfl h
  | cons k' ks ih =>
      simp only [earlierClaim, List.cons_append] at h ⊢
      split at h
      · rfl
      · split at h
        · rfl
        · exact ih h

/-- What the first loop finds in the slots below `n`. The induction takes the slots from
the left, so that a hit is the first one and an exception is met at the end of the list. -/
theorem earlierClaim_range (s : TrentSolver) (senderId : JString) (n : Nat) :
    (s.earlierClaim senderId (List.range n) = .ok none ∧ n ≤ s.possiblyHonestClaims.length ∧
        ∀ k < n, s.other senderId k = none) ∨
      (∃ k j, s.earlierClaim senderId (List.range n) = .ok (some (k, j)) ∧ k < n ∧
        s.other senderId k = some j ∧ ∀ k' < k, s.other senderId k' = none) ∨
      (∃ e, s.earlierClaim senderId (List.range n) = .error e ∧
        s.possiblyHonestClaims.length < n ∧ ∀ k, s.other senderId k = none) := by
  induction n with
  | zero => exact Or.inl ⟨rfl, by simp, by simp⟩
  | succ n ih =>
      rw [List.range_succ]
      rcases ih with ⟨hnone, hlen, hall⟩ | ⟨k, j, hsome, hk, hj, hall⟩ | ⟨e, herr, hlen, hall⟩
      · rw [earlierClaim_append s senderId _ _ hnone]
        cases hget : s.possiblyHonestClaims[n]? with
        | none =>
            -- the first slot that is missing: all slots of the list were looked at
            have hge := List.getElem?_eq_none_iff.mp hget
            refine Or.inr (Or.inr ⟨.indexOutOfBounds, by simp [earlierClaim, hget], by omega, ?_⟩)
            intro k
            rcases Nat.lt_or_ge k n with hk | hk
            · exact hall k hk
            · exact other_of_length_le (by omega) senderId
        | some claims =>
            have hlt := (List.getElem?_eq_some_iff.mp hget).1
            have hother : s.other senderId n = otherKey claims senderId := by simp [other, hget]
            cases hj : otherKey claims senderId with
            | some j =>
                refine Or.inr (Or.inl ⟨n, j, by simp only [earlierClaim, hget, hj], by
                  omega, ?_, hall⟩)
                rw [hother, hj]
            | none =>
                refine Or.inl ⟨by simp only [earlierClaim, hget, hj], by omega, ?_⟩
                intro k hk
                rcases Nat.lt_succ_iff_lt_or_eq.mp hk with hlt' | rfl
                · exact hall k hlt'
                · rw [hother, hj]
      · rw [earlierClaim_append_of_ne s senderId _ _ (by simp [hsome])]
        exact Or.inr (Or.inl ⟨k, j, hsome, by omega, hj, hall⟩)
      · rw [earlierClaim_append_of_ne s senderId _ _ (by simp [herr])]
        exact Or.inr (Or.inr ⟨e, herr, by omega, hall⟩)

theorem ownClaim_some {s : TrentSolver} {req : Request} {claims : List (HashMap JString String)}
    {k : Nat} {m : String} (h : s.ownClaim req claims = some (k, m)) :
    (∃ claim ∈ claims, claim.get req.senderId = some m ∧ s.indexOf claim = k) ∧
      (k : Int) ≠ req.round := by
  induction claims with
  | nil => cases h
  | cons claim claims ih =>
      have hrest : s.ownClaim req claims = some (k, m) →
          (∃ claim' ∈ claim :: claims, claim'.get req.senderId = some m ∧ s.indexOf claim' = k) ∧
            (k : Int) ≠ req.round := by
        intro h
        obtain ⟨⟨claim', hmem, hclaim'⟩, hk⟩ := ih h
        exact ⟨⟨claim', List.mem_cons_of_mem _ hmem, hclaim'⟩, hk⟩
      simp only [ownClaim] at h
      split at h
      · exact hrest h
      · rename_i m' hget
        split at h
        · exact hrest h
        · rename_i hne
          cases h
          exact ⟨⟨claim, List.mem_cons_self, hget, rfl⟩, hne⟩

theorem ownClaim_none {s : TrentSolver} {req : Request} {claims : List (HashMap JString String)} :
    s.ownClaim req claims = none ↔
      ∀ claim ∈ claims, claim.get req.senderId ≠ none → (s.indexOf claim : Int) = req.round := by
  induction claims with
  | nil => simp [ownClaim]
  | cons claim claims ih =>
      simp only [ownClaim, List.forall_mem_cons, ← ih]
      cases hget : claim.get req.senderId with
      | none => simp
      | some m =>
          rcases Decidable.em ((s.indexOf claim : Int) = req.round) with heq | hne
          · simp [heq]
          · simp [hne]

theorem laterClaim_some {s : TrentSolver} {req : Request} {ks : List Nat} {k : Nat} {j : JString}
    (h : s.laterClaim req ks = some (k, j)) :
    k ∈ ks ∧ req.round < k ∧ s.other req.senderId k = some j := by
  induction ks with
  | nil => cases h
  | cons k' ks ih =>
      have hrest : s.laterClaim req ks = some (k, j) →
          k ∈ k' :: ks ∧ req.round < k ∧ s.other req.senderId k = some j := by
        intro h
        obtain ⟨hmem, hk⟩ := ih h
        exact ⟨List.mem_cons_of_mem _ hmem, hk⟩
      simp only [laterClaim] at h
      split at h
      · rename_i hround
        split at h
        · exact hrest h
        · rename_i claims hget
          split at h
          · rename_i j' hj'
            cases h
            exact ⟨List.mem_cons_self, hround, by simp [other, hget, hj']⟩
          · exact hrest h
      · exact hrest h

theorem laterClaim_none {s : TrentSolver} {req : Request} {ks : List Nat} :
    s.laterClaim req ks = none ↔
      ∀ k ∈ ks, req.round < k → s.other req.senderId k = none := by
  induction ks with
  | nil => simp [laterClaim]
  | cons k ks ih =>
      simp only [laterClaim, List.forall_mem_cons, ← ih]
      rcases Decidable.em (req.round < k) with hround | hround
      · cases hget : s.possiblyHonestClaims[k]? with
        | none => simp [hround, other, hget]
        | some claims =>
            have hother : s.other req.senderId k = otherKey claims req.senderId := by
              simp [other, hget]
            cases hj : otherKey claims req.senderId with
            | none => simp [hround, hother, hj]
            | some j => simp [hround, hother, hj]
      · simp [hround]

/-- What a ruling says about the request and the state it was made in. -/
def Justified (s : TrentSolver) (req : Request) : Ruling → Prop
  | .outOfRange => ¬ s.EarlierHit req ∧ s.possiblyHonestClaims.length + 1 < req.round
  | .overturn k j => (k : Int) + 1 < req.round ∧ s.other req.senderId k = some j ∧
      ∀ k' < k, s.other req.senderId k' = none
  | .ownClaim k m => s.NoEarlier req ∧
      (∃ claim ∈ s.possiblyHonestClaims, claim.get req.senderId = some m ∧ s.indexOf claim = k) ∧
      (k : Int) ≠ req.round
  | .laterClaim k j => s.NoEarlier req ∧ ¬ s.OwnHit req ∧ req.round < k ∧
      k < s.contract.parties.length ∧ s.other req.senderId k = some j
  | .resolve => s.Unopposed req ∧ s.Wins req
  | .keep => s.Unopposed req ∧ ¬ s.Wins req ∧ s.HasSlot req
  | .noSlot => s.Unopposed req ∧ ¬ s.Wins req ∧ ¬ s.HasSlot req

theorem ruling_justified (s : TrentSolver) (req : Request) : s.Justified req (s.ruling req) := by
  unfold ruling
  rcases s.earlierClaim_range req.senderId (req.round - 1).toNat with
    ⟨hnone, hlen, hall⟩ | ⟨k, j, hsome, hk, hj, hall⟩ | ⟨e, herr, hlen, hall⟩
  · have hearlier : s.NoEarlier req := by
      refine ⟨?_, by omega⟩
      rintro ⟨k, hk, hother⟩
      exact hother (hall k (by omega))
    rw [hnone]
    simp only
    cases hown : s.ownClaim req s.possiblyHonestClaims with
    | some km => exact ⟨hearlier, ownClaim_some hown⟩
    | none =>
        have hnotOwn : ¬ s.OwnHit req := by
          rintro ⟨claim, hmem, hget, hne⟩
          exact hne (ownClaim_none.mp hown claim hmem hget)
        simp only
        cases hlater : s.laterClaim req (List.range s.contract.parties.length) with
        | some kj =>
            obtain ⟨hmem, hk, hj⟩ := laterClaim_some hlater
            exact ⟨hearlier, hnotOwn, hk, List.mem_range.mp hmem, hj⟩
        | none =>
            have hunopposed : s.Unopposed req := by
              refine ⟨hearlier, hnotOwn, ?_⟩
              rintro ⟨k, hround, hk, hother⟩
              exact hother (laterClaim_none.mp hlater k (List.mem_range.mpr hk) hround)
            simp only
            split
            · exact ⟨hunopposed, ‹_›⟩
            · split
              · exact ⟨hunopposed, ‹_›, ‹_›⟩
              · exact ⟨hunopposed, ‹_›, ‹_›⟩
  · rw [hsome]
    exact ⟨by omega, hj, hall⟩
  · rw [herr]
    refine ⟨?_, by omega⟩
    rintro ⟨k, -, hother⟩
    exact hother (hall k)

theorem justified_of_ruling {s : TrentSolver} {req : Request} {r : Ruling}
    (h : s.ruling req = r) : s.Justified req r :=
  h ▸ s.ruling_justified req

end TrentSolver

end Sxp
