-- SUMMARY: The claim list against a log of what was accepted at which round, and the two stores against each other.
import Sxp.Trent.Verdicts

/-!
# The claim store

The list of maps is meant to be read by round and sender. Beside a run of the solver
goes a log that says so literally: a claim enters it when it is kept, under its round
and sender, and leaves it when that sender is condemned for the claim at that round.
-/

namespace Sxp

namespace TrentSolver

/-! ## Reading the store -/

/-- The map at index `k` binds the sender `x` to the claim `m`. -/
def Binds (s : TrentSolver) (k : Nat) (x : JString) (m : String) : Prop :=
  ∃ claims, s.possiblyHonestClaims[k]? = some claims ∧ claims.get x = some m

theorem binds_congr {s s' : TrentSolver} (h : s'.possiblyHonestClaims = s.possiblyHonestClaims)
    (k : Nat) (x : JString) (m : String) : s'.Binds k x m ↔ s.Binds k x m := by
  rw [Binds, Binds, h]

theorem Binds.lt_length {s : TrentSolver} {k : Nat} {x : JString} {m : String}
    (h : s.Binds k x m) : k < s.possiblyHonestClaims.length := by
  obtain ⟨claims, hget, -⟩ := h
  exact (List.getElem?_eq_some_iff.mp hget).1

/-- Keys that are equal as strings read the same. -/
theorem Binds.congr {s : TrentSolver} {k : Nat} {x y : JString} {m : String}
    (h : s.Binds k x m) (hxy : (x == y) = true) : s.Binds k y m := by
  obtain ⟨claims, hget, hx⟩ := h
  exact ⟨claims, hget, by rw [← HashMap.get_congr hxy, hx]⟩

theorem binds_condemn (s : TrentSolver) (k : Nat) (party : JString)
    (proof : Option String × Option String) (i : Nat) (x : JString) (m : String) :
    (s.condemn k party proof).Binds i x m ↔
      s.Binds i x m ∧ ¬ (i = k ∧ (x == party) = true) := by
  unfold Binds
  rw [condemn_slot]
  cases hget : s.possiblyHonestClaims[i]? with
  | none => simp
  | some claims =>
      rcases Decidable.em (k = i) with rfl | hne
      · cases hx : x == party with
        | true => simp [HashMap.get_remove, hx]
        | false => simp [HashMap.get_remove, hx]
      · simp [hne, Ne.symm hne]

theorem binds_keepClaim (s : TrentSolver) {k : Nat} (hk : k ≤ s.possiblyHonestClaims.length)
    (req : Request) (i : Nat) (x : JString) (m : String) :
    (s.keepClaim k req).Binds i x m ↔
      (i < k ∧ s.Binds i x m) ∨ (i = k ∧ (x == req.senderId) = true ∧ req.m = m) ∨
        (k < i ∧ s.Binds (i - 1) x m) := by
  unfold Binds
  simp only [keepClaim]
  rcases Nat.lt_trichotomy i k with hlt | rfl | hgt
  · rw [List.getElem?_insertIdx_of_lt hlt]
    simp [hlt, Nat.ne_of_lt hlt, Nat.lt_asymm hlt]
  · rw [List.getElem?_insertIdx_self, if_pos hk]
    simp [HashMap.get_singleton]
  · rw [List.getElem?_insertIdx_of_gt hgt]
    simp [hgt, Nat.ne_of_gt hgt, Nat.lt_asymm hgt]

/-- The slot and the key an exit removes. -/
def removes (req : Request) : Ruling → Option (Nat × JString)
  | .overturn k j => some (k, j)
  | .ownClaim k _ => some (k, req.senderId)
  | .laterClaim k _ => some (k, req.senderId)
  | _ => none

/-- An exit removes a claim, keeps one, or leaves the list of maps alone. -/
theorem after_cases (s : TrentSolver) (req : Request) (r : Ruling) :
    (∃ k party proof, removes req r = some (k, party) ∧ s.after req r = s.condemn k party proof) ∨
      r = .keep ∨
      (removes req r = none ∧ r ≠ .keep ∧
        (s.after req r).possiblyHonestClaims = s.possiblyHonestClaims ∧
        (s.after req r).dishonestClaims = s.dishonestClaims) := by
  cases r with
  | overturn k j => exact Or.inl ⟨k, j, _, rfl, rfl⟩
  | ownClaim k m => exact Or.inl ⟨k, req.senderId, _, rfl, rfl⟩
  | laterClaim k j => exact Or.inl ⟨k, req.senderId, _, rfl, rfl⟩
  | keep => exact Or.inr (Or.inl rfl)
  | outOfRange => exact Or.inr (Or.inr ⟨rfl, by simp, rfl, rfl⟩)
  | resolve => exact Or.inr (Or.inr ⟨rfl, by simp, rfl, rfl⟩)
  | noSlot => exact Or.inr (Or.inr ⟨rfl, by simp, rfl, rfl⟩)

theorem hasSlot_of_keep {s : TrentSolver} {req : Request} (h : s.ruling req = .keep) :
    s.HasSlot req := by
  have hjust := justified_of_ruling h
  exact hjust.2.2

end TrentSolver

/-! ## The log of kept claims -/

/-- A claim with the round it was accepted for. -/
structure KeptClaim where
  round : Nat
  sender : JString
  m : String
deriving Repr, DecidableEq

/-- The claims accepted and not since removed. -/
abbrev ClaimLog := List KeptClaim

namespace ClaimLog

def Binds (log : ClaimLog) (k : Nat) (x : JString) (m : String) : Prop :=
  ∃ e ∈ log, e.round = k ∧ (x == e.sender) = true ∧ e.m = m

/-- The claim of `party` for round `k` has been found dishonest. -/
def strike (log : ClaimLog) (k : Nat) (party : JString) : ClaimLog :=
  log.filter fun e => !(e.round == k && party == e.sender)

theorem binds_strike (log : ClaimLog) (k : Nat) (party : JString) (i : Nat) (x : JString)
    (m : String) :
    (log.strike k party).Binds i x m ↔ log.Binds i x m ∧ ¬ (i = k ∧ (x == party) = true) := by
  unfold Binds strike
  constructor
  · rintro ⟨e, he, rfl, hx, rfl⟩
    obtain ⟨hmem, hkept⟩ := List.mem_filter.mp he
    refine ⟨⟨e, hmem, rfl, hx, rfl⟩, ?_⟩
    rintro ⟨rfl, hparty⟩
    have hstruck : (party == e.sender) = true :=
      PartialEquivBEq.trans (PartialEquivBEq.symm hparty) hx
    simp [hstruck] at hkept
  · rintro ⟨⟨e, hmem, rfl, hx, rfl⟩, hkept⟩
    refine ⟨e, List.mem_filter.mpr ⟨hmem, ?_⟩, rfl, hx, rfl⟩
    rcases Decidable.em (e.round = k) with rfl | hne
    · cases hparty : party == e.sender with
      | false => simp
      | true =>
          have hstruck : (x == party) = true :=
            PartialEquivBEq.trans hx (PartialEquivBEq.symm hparty)
          exact absurd ⟨rfl, hstruck⟩ hkept
    · simp [hne]

theorem binds_cons (log : ClaimLog) (e : KeptClaim) (i : Nat) (x : JString) (m : String) :
    Binds (e :: log) i x m ↔
      (i = e.round ∧ (x == e.sender) = true ∧ e.m = m) ∨ log.Binds i x m := by
  simp only [Binds, List.mem_cons, exists_eq_or_imp]
  apply or_congr_left
  rw [eq_comm]

end ClaimLog

namespace TrentSolver

variable (trent : Trent) (c : ContractTerms)

/-- What a request does to the log: a claim that is kept enters it, and the claim a sender
is condemned for leaves it. -/
def record (log : ClaimLog) (s : TrentSolver) (req : Request) : ClaimLog :=
  match s.ruling req with
  | .keep => ⟨req.round.toNat, req.senderId, req.m⟩ :: log
  | r =>
      match removes req r with
      | some (k, party) => log.strike k party
      | none => log

/-- The solver with its log beside it. -/
def loggedMachine : Machine (TrentSolver × ClaimLog) Request Outcome where
  init := ((machine trent c).init, [])
  step st req :=
    (((machine trent c).next st.1 req, record st.2 st.1 req), (machine trent c).output st.1 req)

/-- The list of maps says what the log says. -/
def Faithful (st : TrentSolver × ClaimLog) : Prop :=
  ∀ k x m, st.1.Binds k x m ↔ st.2.Binds k x m

/-- No claim is kept at a round whose slot, or a later one, holds a claim. -/
def Undisturbed (s : TrentSolver) (req : Request) : Prop :=
  s.ruling req = .keep → ∀ (k : Nat) x m, req.round ≤ k → ¬ s.Binds k x m

theorem faithful_keep_iff {s : TrentSolver} {log : ClaimLog} (h : Faithful (s, log))
    {req : Request} (hslot : s.HasSlot req) :
    Faithful (s.keepClaim req.round.toNat req, ⟨req.round.toNat, req.senderId, req.m⟩ :: log) ↔
      ∀ (k : Nat) x m, req.round ≤ k → ¬ s.Binds k x m := by
  obtain ⟨hnonneg, hle⟩ := hslot
  have hk : req.round.toNat ≤ s.possiblyHonestClaims.length := by omega
  constructor
  · intro hfaithful k x m hround hbinds
    -- a claim pushed to the next slot must already have been logged there, and so on
    have hall : ∀ n, s.Binds (k + n) x m := by
      intro n
      induction n with
      | zero => exact hbinds
      | succ n ih =>
          have hpushed : (s.keepClaim req.round.toNat req).Binds (k + n + 1) x m :=
            (binds_keepClaim s hk req _ x m).mpr (Or.inr (Or.inr ⟨by omega, ih⟩))
          rcases (ClaimLog.binds_cons log _ _ x m).mp ((hfaithful _ x m).mp hpushed) with
            ⟨heq, -⟩ | hlogged
          · simp only at heq
            omega
          · exact (h _ x m).mpr hlogged
    have hlt := (hall s.possiblyHonestClaims.length).lt_length
    omega
  · intro hfree i x m
    have hi := h i x m
    simp only at hi ⊢
    rw [binds_keepClaim s hk, ClaimLog.binds_cons, ← hi]
    constructor
    -- with nothing at the round or above, no claim is moved
    · rintro (⟨-, hbinds⟩ | hnew | ⟨hgt, hbinds⟩)
      · exact Or.inr hbinds
      · exact Or.inl hnew
      · exact absurd hbinds (hfree _ x m (by omega))
    · rintro (hnew | hbinds)
      · exact Or.inr (Or.inl hnew)
      · refine Or.inl ⟨?_, hbinds⟩
        by_contra hge
        exact hfree i x m (by omega) hbinds

theorem faithful_next_iff {s : TrentSolver} {log : ClaimLog} (h : Faithful (s, log))
    (req : Request) :
    Faithful (s.after req (s.ruling req), record log s req) ↔ s.Undisturbed req := by
  rcases s.after_cases req (s.ruling req) with
    ⟨k, party, proof, hremoves, hafter⟩ | hkeep | ⟨hremoves, hne, hafter, -⟩
  · have hne : s.ruling req ≠ .keep := by
      intro hkeep
      rw [hkeep] at hremoves
      cases hremoves
    have hrecord : record log s req = log.strike k party := by
      unfold record
      split
      · exact absurd ‹_› hne
      · rw [hremoves]
    refine iff_of_true ?_ (fun hkeep => absurd hkeep hne)
    intro i x m
    simp only [hafter, hrecord, binds_condemn, ClaimLog.binds_strike]
    rw [show s.Binds i x m ↔ log.Binds i x m from h i x m]
  · rw [hkeep]
    have hrecord : record log s req = ⟨req.round.toNat, req.senderId, req.m⟩ :: log := by
      simp only [record, hkeep]
    rw [hrecord]
    rw [show s.after req .keep = s.keepClaim req.round.toNat req from rfl,
      faithful_keep_iff h (hasSlot_of_keep hkeep)]
    exact ⟨fun hfree _ => hfree, fun hfree => hfree hkeep⟩
  · have hrecord : record log s req = log := by
      unfold record
      split
      · exact absurd ‹_› hne
      · rw [hremoves]
    refine iff_of_true ?_ (fun hkeep => absurd hkeep hne)
    intro i x m
    simp only [hrecord, binds_congr hafter]
    exact h i x m

/-- The store is what its comment says in all states of a run exactly if no claim of the
run is kept below or beside another one. -/
theorem run_faithful_iff (reqs : List Request) :
    (∀ e ∈ (loggedMachine trent c).trace (loggedMachine trent c).init reqs,
        Faithful ((loggedMachine trent c).next e.1 e.2)) ↔
      ∀ e ∈ (loggedMachine trent c).trace (loggedMachine trent c).init reqs,
        e.1.1.Undisturbed e.2 := by
  have hinit : Faithful (loggedMachine trent c).init := by
    intro k x m
    simp [loggedMachine, Binds, ClaimLog.Binds]
  have hiff : ∀ st req, Faithful st →
      (Faithful ((loggedMachine trent c).next st req) ↔ st.1.Undisturbed req) := by
    rintro ⟨s, log⟩ req h
    have hnext : (loggedMachine trent c).next (s, log) req =
        ((machine trent c).next s req, record log s req) := rfl
    rw [hnext, machine_next]
    exact faithful_next_iff h req
  exact (loggedMachine trent c).trace_forall_iff hiff (fun _ _ _ h => h) hinit reqs

/-- Two aborts of round zero: the second one moves the first to the slot of round one. -/
theorem second_abort_moves_first :
    ¬ ∃ hash : String → Int,
      let m := loggedMachine (Sample.trent hash) Sample.terms
      Faithful (m.exec m.init [Sample.abortBy Sample.alice, Sample.abortBy Sample.bob]) := by
  rintro ⟨hash, h⟩
  have hbinds := (h 1 Sample.alice "ABORT").mp ⟨HashMap.singleton Sample.alice "ABORT", rfl, rfl⟩
  obtain ⟨e, he, hround, -⟩ := hbinds
  have hlog : e ∈ [(⟨0, Sample.bob, "ABORT"⟩ : KeptClaim), ⟨0, Sample.alice, "ABORT"⟩] := he
  rcases List.mem_pair.mp hlog with rfl | rfl <;> cases hround

/-! ## Condemned senders -/

/-- `x` is on record as dishonest. -/
def Condemned (s : TrentSolver) (x : JString) : Prop := s.dishonestClaims.containsKey x = true

/-- Nobody on record as dishonest has a claim in the store. -/
def Disjoint (s : TrentSolver) : Prop := ∀ x, s.Condemned x → ∀ k m, ¬ s.Binds k x m

/-- A step respects the record: the stores stay apart, and a condemned sender gets the null
of a dishonest one. -/
def Respects (s : TrentSolver) (req : Request) : Prop :=
  ((machine trent c).next s req).Disjoint ∧
    (s.Condemned req.senderId → (machine trent c).output s req = .ok none)

/-- What makes a step respect the record: a request of a condemned sender passes the first
loop and meets a later claim of another, and whoever is condemned has no claim in another
slot than the one it is condemned for. -/
def Watched (s : TrentSolver) (req : Request) : Prop :=
  (s.Condemned req.senderId → s.NoEarlier req ∧ s.LaterHit req) ∧
    ∀ k party, removes req (s.ruling req) = some (k, party) →
      ∀ i ≠ k, ∀ m, ¬ s.Binds i party m

theorem condemned_condemn (s : TrentSolver) (k : Nat) (party : JString)
    (proof : Option String × Option String) (x : JString) :
    (s.condemn k party proof).Condemned x ↔ (x == party) = true ∨ s.Condemned x := by
  simp only [Condemned, condemn, HashMap.containsKey_put, Bool.or_eq_true]

theorem disjoint_condemn_iff {s : TrentSolver} (h : s.Disjoint) (k : Nat) (party : JString)
    (proof : Option String × Option String) :
    (s.condemn k party proof).Disjoint ↔ ∀ i ≠ k, ∀ m, ¬ s.Binds i party m := by
  constructor
  · intro hdisj i hi m hbinds
    have hparty : (s.condemn k party proof).Condemned party :=
      (condemned_condemn s k party proof party).mpr (Or.inl BEq.rfl)
    refine hdisj party hparty i m ((binds_condemn s k party proof i party m).mpr ⟨hbinds, ?_⟩)
    rintro ⟨heq, -⟩
    exact hi heq
  · intro hclean x hx i m hbinds
    obtain ⟨hbinds, hkept⟩ := (binds_condemn s k party proof i x m).mp hbinds
    rcases (condemned_condemn s k party proof x).mp hx with hparty | hx
    · refine hclean i ?_ m (hbinds.congr hparty)
      rintro rfl
      exact hkept ⟨rfl, hparty⟩
    · exact h x hx i m hbinds

theorem disjoint_keepClaim {s : TrentSolver} (h : s.Disjoint) {k : Nat}
    (hk : k ≤ s.possiblyHonestClaims.length) {req : Request}
    (hsender : ¬ s.Condemned req.senderId) : (s.keepClaim k req).Disjoint := by
  intro x hx i m hbinds
  have hx' : s.Condemned x := hx
  rcases (binds_keepClaim s hk req i x m).mp hbinds with ⟨-, hold⟩ | ⟨-, hkey, -⟩ | ⟨-, hold⟩
  · exact h x hx' i m hold
  · apply hsender
    unfold Condemned at hx' ⊢
    rwa [HashMap.containsKey, ← HashMap.get_congr hkey]
  · exact h x hx' _ m hold

theorem not_ownHit {s : TrentSolver} {req : Request} (h : ∀ k m, ¬ s.Binds k req.senderId m) :
    ¬ s.OwnHit req := by
  rintro ⟨claim, hmem, hget, -⟩
  obtain ⟨k, hk⟩ := List.getElem?_of_mem hmem
  obtain ⟨m, hm⟩ := Option.ne_none_iff_exists'.mp hget
  exact h k m ⟨claim, hk, hm⟩

/-- A sender without claims is answered null exactly if the third test fires. -/
theorem verdict_null_iff {s : TrentSolver} {req : Request}
    (h : ∀ k m, ¬ s.Binds k req.senderId m) :
    s.verdict trent req (s.ruling req) = .ok none ↔ s.NoEarlier req ∧ s.LaterHit req := by
  cases hruling : s.ruling req with
  | outOfRange =>
      have hjust := justified_of_ruling hruling
      simp only [verdict, reduceCtorEq, false_iff]
      rintro ⟨⟨-, hlen⟩, -⟩
      have hlen' := hjust.2
      omega
  | overturn k j =>
      have hjust := justified_of_ruling hruling
      simp only [verdict, Except.ok.injEq, reduceCtorEq, false_iff]
      rintro ⟨⟨hearlier, -⟩, -⟩
      exact hearlier ⟨k, hjust.1, by simp [hjust.2.1]⟩
  | ownClaim k m =>
      -- the second test finds claims of the sender only
      obtain ⟨-, ⟨claim, hmem, hget, rfl⟩, hk⟩ := justified_of_ruling hruling
      exact absurd ⟨claim, hmem, by simp [hget], hk⟩ (not_ownHit h)
  | laterClaim k j =>
      obtain ⟨hearlier, -, hround, hk, hj⟩ := justified_of_ruling hruling
      exact iff_of_true rfl ⟨hearlier, k, hround, hk, by simp [hj]⟩
  | resolve =>
      have hjust := justified_of_ruling hruling
      refine iff_of_false ?_ fun hhit => hjust.1.2.2 hhit.2
      cases htoken : s.resolveToken trent req <;> simp [verdict, htoken, Except.map]
  | keep =>
      have hjust := justified_of_ruling hruling
      exact iff_of_false (by simp [verdict]) fun hhit => hjust.1.2.2 hhit.2
  | noSlot =>
      have hjust := justified_of_ruling hruling
      exact iff_of_false (by simp [verdict]) fun hhit => hjust.1.2.2 hhit.2

theorem respects_iff {s : TrentSolver} (h : s.Disjoint) (req : Request) :
    Respects trent c s req ↔ s.Watched req := by
  unfold Respects Watched
  rw [machine_next, machine_output]
  have hnull : (s.Condemned req.senderId → s.verdict trent req (s.ruling req) = .ok none) ↔
      (s.Condemned req.senderId → s.NoEarlier req ∧ s.LaterHit req) :=
    forall_congr' fun hsender => verdict_null_iff trent (h _ hsender)
  rw [hnull, and_comm]
  -- what is left is whether the stores stay apart, by what the exit does to them
  refine and_congr_right fun hwatched => ?_
  rcases s.after_cases req (s.ruling req) with
    ⟨k, party, proof, hremoves, hafter⟩ | hkeep | ⟨hremoves, -, hclaims, hdishonest⟩
  · rw [hafter, disjoint_condemn_iff h, hremoves]
    constructor
    · rintro hclean k' party' heq
      cases heq
      exact hclean
    · intro hclean
      exact hclean k party rfl
  · have hjust := justified_of_ruling hkeep
    rw [hkeep]
    have hsender : ¬ s.Condemned req.senderId := fun hsender => hjust.1.2.2 (hwatched hsender).2
    have hk := hjust.2.2.2
    apply iff_of_true (disjoint_keepClaim h (by omega) hsender)
    intro k party hnone
    cases hnone
  · refine iff_of_true ?_ (by simp [hremoves])
    intro x hx k m
    rw [binds_congr hclaims]
    refine h x ?_ k m
    rwa [Condemned, hdishonest] at hx

/-- All steps of a run respect the record exactly if all of them are watched. -/
theorem run_respects_iff (reqs : List Request) :
    (∀ e ∈ (machine trent c).trace (machine trent c).init reqs, Respects trent c e.1 e.2) ↔
      ∀ e ∈ (machine trent c).trace (machine trent c).init reqs, e.1.Watched e.2 := by
  have hinit : (machine trent c).init.Disjoint := by
    intro x hx
    cases hx
  have hiff : ∀ s req, s.Disjoint → (Respects trent c s req ↔ s.Watched req) :=
    fun _ req h => respects_iff trent c h req
  exact (machine trent c).trace_forall_iff hiff (fun _ _ _ h => h.1) hinit reqs

/-- Alice is condemned for aborting and going on, and may abort once more. -/
theorem condemned_sender_aborts_again :
    ¬ ∃ hash : String → Int,
      let m := machine (Sample.trent hash) Sample.terms
      ∀ e ∈ m.trace m.init
          [Sample.abortBy Sample.alice, Sample.secondBy Sample.bob, Sample.abortBy Sample.alice],
        Respects (Sample.trent hash) Sample.terms e.1 e.2 := by
  rintro ⟨hash, h⟩
  have hlast := h (_, Sample.abortBy Sample.alice)
    (List.mem_cons_of_mem _ (List.mem_cons_of_mem _ List.mem_cons_self))
  have hnull := hlast.2 rfl
  cases hnull

end TrentSolver

end Sxp
