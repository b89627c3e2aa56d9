-- SUMMARY: Which answers a solver gives over a whole run: no contradiction, when it answers at all, when an abort is overturned.
import Sxp.Contract.Forgery
import Sxp.Trent.SolverRuns

/-!
# Verdicts

Statements about the answers along a run of requests. A step is a pair of the solver
a request meets and the request.
-/

namespace Sxp

namespace TrentSolver

variable (trent : Trent) (c : ContractTerms)

/-- What a step is answered. -/
def answerOf (e : TrentSolver × Request) : Option AnswerKind :=
  kindOf ((machine trent c).output e.1 e.2)

theorem answerOf_ruling {s : TrentSolver} {req : Request} {a : AnswerKind}
    (h : answerOf trent c (s, req) = some a) : (s.ruling req).Gives a := by
  rw [answerOf, machine_output] at h
  exact ruling_of_kindOf trent h

/-! ## No contradiction -/

/-- An earlier and a later step agree: after a resolved claim nobody is told to cancel, and
when a claim is resolved, a sender that was told to is on record as dishonest. -/
def Agree (e e' : TrentSolver × Request) : Prop :=
  (answerOf trent c e = some .resolved →
    answerOf trent c e' ≠ some .aborted ∧ answerOf trent c e' ≠ some .honestyToken) ∧
  (answerOf trent c e = some .aborted → answerOf trent c e' = some .resolved →
    ((machine trent c).next e'.1 e'.2).dishonestClaims.containsKey e.2.senderId = true)

/-- What a step leaves behind for good. -/
def Settles (e : TrentSolver × Request) (s : TrentSolver) : Prop :=
  (answerOf trent c e = some .resolved → s.Closed) ∧
  (answerOf trent c e = some .aborted → s.Contested)

theorem settles_next {s : TrentSolver} (hs : s.Sound) (req : Request) :
    Settles trent c (s, req) ((machine trent c).next s req) := by
  rw [machine_next]
  constructor
  · intro h
    have hruling : s.ruling req = .resolve := answerOf_ruling trent c h
    rw [hruling]
    exact closed_of_resolve hs hruling
  · intro h
    have hruling : s.ruling req = .keep := answerOf_ruling trent c h
    rw [hruling]
    exact contested_of_keep hruling

theorem Settles.next {e : TrentSolver × Request} {s : TrentSolver} (h : Settles trent c e s)
    (req : Request) : Settles trent c e ((machine trent c).next s req) := by
  rw [machine_next]
  exact ⟨fun he => (h.1 he).after req, fun he => (h.2 he).after req⟩

theorem Settles.agree {e : TrentSolver × Request} {s : TrentSolver} (h : Settles trent c e s)
    (req : Request) : Agree trent c e (s, req) := by
  constructor
  · intro he
    have hclosed := h.1 he
    constructor
    · intro hanswer
      have hkeep : s.ruling req = .keep := answerOf_ruling trent c hanswer
      rcases hclosed.ruling req with hruling | hruling <;> rw [hruling] at hkeep <;> cases hkeep
    · intro hanswer
      obtain ⟨k, j, hover⟩ := answerOf_ruling trent c hanswer
      rcases hclosed.ruling req with hruling | hruling <;> rw [hruling] at hover <;> cases hover
  · intro he hanswer
    have hresolve : s.ruling req = .resolve := answerOf_ruling trent c hanswer
    have hjust := justified_of_ruling hresolve
    exact absurd hjust.2 ((h.2 he).not_wins req)

/-- Any two steps of a run agree. -/
theorem run_agrees (reqs : List Request) :
    ((machine trent c).trace (machine trent c).init reqs).Pairwise (Agree trent c) := by
  have hpres : ∀ s req, SoundFor c s → SoundFor c ((machine trent c).next s req) :=
    fun _ req hs => hs.next req
  exact (machine trent c).trace_pairwise hpres
    (fun _ req hs => settles_next trent c hs.toSound req)
    (fun _ _ req h => h.next trent c req) (fun _ _ req h => h.agree trent c req)
    (soundFor_init trent c) reqs

/-! ## Well-formed requests -/

/-- A promise that passes both checks of `Trent.resolve` for the round. -/
def Checked (o : Or) (round : Int) : Prop :=
  o.verifies trent.hash (c.roundData round) = .ok true ∧
    ∃ senPubK, trent.verifiesRes o senPubK = .ok true

/-- A round of the contract, with the text `ABORT` or with one checked promise for each party. -/
structure WellFormed (req : Request) : Prop where
  round_nonneg : 0 ≤ req.round
  round_le : req.round ≤ c.parties.length + 1
  abort : req.round = 0 → req.m = "ABORT"
  claim : 1 ≤ req.round → ∃ ors : List Or, trent.json.toOrs req.m = some (ors.map some) ∧
    ors.length = c.parties.length ∧ ∀ o ∈ ors, Checked trent c o req.round

theorem releasedSignature_total {ors : List Or} {round : Int} (req : Request)
    (hors : ∀ o ∈ ors, Checked trent c o round) {k : Nat} (hk : k < ors.length) :
    ∃ s, releasedSignature trent req (some (ors.map some)) k = .ok s := by
  obtain ⟨-, senPubK, hres⟩ := hors ors[k] (List.getElem_mem hk)
  obtain ⟨a, ha, hclause⟩ := trent.exists_clause_of_verifiesRes hres
  have hfirst : ∃ clause, ors[k].firstClause = .ok clause := by
    cases hands : ors[k].ands with
    | nil =>
        rw [hands] at ha
        cases ha
    | cons clause rest => exact ⟨clause, by simp [Or.firstClause, hands]⟩
  obtain ⟨clause, hfirst⟩ := hfirst
  obtain ⟨response, hresponse⟩ := trent.sendResponse_total
    (trent.modulus_pos_of_verifiesClause hclause) (req.nonces k) req.messageText clause.resEncrypt
  refine ⟨{ pcs := ors[k], rpcs := response, trentK := trent.getKey }, ?_⟩
  simp [releasedSignature, orAt, hk, hfirst, hresponse, pure, Except.pure]

/-- The signatures of a well-formed claim can be released. -/
theorem resolveToken_total {s : TrentSolver} (hs : s.contract = c) {req : Request}
    (hreq : WellFormed trent c req) (hround : 1 ≤ req.round) :
    ∃ token, s.resolveToken trent req = .ok token := by
  obtain ⟨ors, htoOrs, hlen, hors⟩ := hreq.claim hround
  have hall : ∀ k ∈ List.range s.contract.parties.length,
      ∃ sig, releasedSignature trent req (some (ors.map some)) k = .ok sig := by
    intro k hk
    rw [List.mem_range, hs, ← hlen] at hk
    exact releasedSignature_total trent c req hors hk
  obtain ⟨signatures, hsignatures⟩ := List.exists_mapM_eq_ok hall
  exact ⟨trent.json.signaturesToJson signatures, by
    simp [resolveToken, htoOrs, hsignatures, pure, Except.pure]⟩

/-- An abort cannot be resolved. -/
theorem resolveToken_abort {s : TrentSolver} (hs : s.contract = c) (hN : c.parties ≠ [])
    {req : Request} (hm : req.m = "ABORT") :
    s.resolveToken trent req = .error .nullPointer := by
  have hlen : ∃ n, s.contract.parties.length = n + 1 := by
    rw [hs]
    exact Nat.exists_eq_succ_of_ne_zero (by simpa using hN)
  obtain ⟨n, hn⟩ := hlen
  simp only [resolveToken, hm, trent.json.toOrs_abort, hn, List.range_succ_eq_map, List.mapM_cons]
  rfl

end TrentSolver

namespace Sample

/-- The terms of the contract of Alice and Bob. -/
def terms : ContractTerms := contract.toContractTerms

def alice : JString := ⟨"alice", 0⟩

def bob : JString := ⟨"bob", 1⟩

def abortBy (sender : JString) : Request := { m := "ABORT", round := 0, senderId := sender }

/-- A claim with the promises of round one. -/
def firstBy (sender : JString) : Request := { m := "[1]", round := 1, senderId := sender }

/-- A claim with the promises of round two. -/
def secondBy (sender : JString) : Request := { m := "[2]", round := 2, senderId := sender }

theorem secondBy_wellFormed (hash : String → Int) (sender : JString) :
    TrentSolver.WellFormed (trent hash) terms (secondBy sender) where
  round_nonneg := (by decide : (0 : Int) ≤ 2)
  round_le := (by decide : (2 : Int) ≤ 2 + 1)
  abort h := by cases h
  claim _ := by
    refine ⟨claim hash 2, rfl, rfl, ?_⟩
    intro o ho
    obtain ⟨hverifies, hres⟩ := claim_checked hash 2 o ho
    exact ⟨hverifies, 0, hres 0⟩

end Sample

namespace TrentSolver

variable (trent : Trent) (c : ContractTerms)

/-! ## Whether a request is answered -/

/-- The requests a solver answers: somebody is overturned, or the first loop finds all its
slots and then the sender is caught, or it is the first claim and of round one, or there
is a slot to keep it in. -/
def Answerable (s : TrentSolver) (req : Request) : Prop :=
  s.EarlierHit req ∨
    req.round ≤ s.possiblyHonestClaims.length + 1 ∧
      (s.OwnHit req ∨ s.LaterHit req ∨ (s.possiblyHonestClaims = [] ∧ req.round = 1) ∨
        (s.optimistic = true ∧ req.round ≤ s.possiblyHonestClaims.length))

theorem answered_iff {s : TrentSolver} (hs : s.Sound) (hc : s.contract = c) (hN : c.parties ≠ [])
    {req : Request} (hreq : WellFormed trent c req) :
    (∃ answer, s.verdict trent req (s.ruling req) = .ok answer) ↔ s.Answerable req := by
  cases hruling : s.ruling req with
  | outOfRange =>
      obtain ⟨hearlier, hlen⟩ := justified_of_ruling hruling
      simp only [verdict, reduceCtorEq, exists_false, false_iff]
      rintro (hhit | ⟨hround, -⟩)
      · exact hearlier hhit
      · omega
  | overturn k j =>
      obtain ⟨hk, hj, -⟩ := justified_of_ruling hruling
      simp only [verdict, Except.ok.injEq, exists_eq', true_iff]
      exact Or.inl ⟨k, hk, by simp [hj]⟩
  | ownClaim k m =>
      obtain ⟨hearlier, ⟨claim, hmem, hget, rfl⟩, hk⟩ := justified_of_ruling hruling
      simp only [verdict, Except.ok.injEq, exists_eq', true_iff]
      exact Or.inr ⟨hearlier.2, Or.inl ⟨claim, hmem, by simp [hget], hk⟩⟩
  | laterClaim k j =>
      obtain ⟨hearlier, -, hround, hk, hj⟩ := justified_of_ruling hruling
      simp only [verdict, Except.ok.injEq, exists_eq', true_iff]
      exact Or.inr ⟨hearlier.2, Or.inr (Or.inl ⟨k, hround, hk, by simp [hj]⟩)⟩
  | resolve =>
      obtain ⟨⟨⟨hearlier, hlen⟩, hown, hlater⟩, hwins⟩ := justified_of_ruling hruling
      -- a claim that wins meets an empty list, so it is of round one or an abort
      have hnil := Wins.nil hs hwins
      rw [hnil, List.length_nil] at hlen
      rcases Decidable.em (1 ≤ req.round) with hround | hround
      · obtain ⟨token, htoken⟩ := resolveToken_total trent c hc hreq hround
        simp only [verdict, htoken, Except.map, Except.ok.injEq, exists_eq', true_iff]
        refine Or.inr ⟨by simp [hnil]; omega, Or.inr (Or.inr (Or.inl ⟨hnil, ?_⟩))⟩
        omega
      · have hzero : req.round = 0 := by
          have := hreq.round_nonneg
          omega
        -- an abort after the contract was resolved: its text is no array
        have htoken := resolveToken_abort trent c hc hN (hreq.abort hzero)
        simp only [verdict, htoken, Except.map, reduceCtorEq, exists_false, false_iff]
        have hopt : s.optimistic = false := by
          rcases hwins with ⟨-, hpos⟩ | hopt
          · omega
          · exact hopt
        rintro (hhit | ⟨-, hhit | hhit | ⟨-, hone⟩ | ⟨hopt', -⟩⟩)
        · exact hearlier hhit
        · exact hown hhit
        · exact hlater hhit
        · omega
        · rw [hopt] at hopt'
          cases hopt'
  | keep =>
      obtain ⟨⟨⟨-, hlen⟩, -, -⟩, hwins, hslot⟩ := justified_of_ruling hruling
      simp only [verdict, Except.ok.injEq, exists_eq', true_iff]
      exact Or.inr ⟨hlen, Or.inr (Or.inr (Or.inr ⟨optimistic_of_not_wins hwins, hslot.2⟩))⟩
  | noSlot =>
      obtain ⟨⟨⟨hearlier, -⟩, hown, hlater⟩, hwins, hslot⟩ := justified_of_ruling hruling
      simp only [verdict, reduceCtorEq, exists_false, false_iff]
      rintro (hhit | ⟨-, hhit | hhit | ⟨hnil, hone⟩ | ⟨-, hle⟩⟩)
      · exact hearlier hhit
      · exact hown hhit
      · exact hlater hhit
      · exact hwins (Or.inl ⟨hnil, by omega⟩)
      · exact hslot ⟨hreq.round_nonneg, hle⟩

/-- A run answers all its well-formed requests exactly if these are answerable. -/
theorem run_answers_iff (hN : c.parties ≠ []) (reqs : List Request) :
    (∀ e ∈ (machine trent c).trace (machine trent c).init reqs, WellFormed trent c e.2 →
        ∃ answer, (machine trent c).output e.1 e.2 = .ok answer) ↔
      ∀ e ∈ (machine trent c).trace (machine trent c).init reqs, WellFormed trent c e.2 →
        e.1.Answerable e.2 := by
  refine run_forall_iff trent c
    (fun s req => WellFormed trent c req → ∃ answer, (machine trent c).output s req = .ok answer)
    (fun s req => WellFormed trent c req → s.Answerable req) ?_ reqs
  intro s req hs
  refine forall_congr' fun hreq => ?_
  rw [machine_output]
  exact answered_iff trent c hs.toSound hs.contract_eq hN hreq

theorem run_answers_iff_sample :
    let trent := Sample.trent fun text => text.length
    (∀ e ∈ (machine trent Sample.terms).trace (machine trent Sample.terms).init
          [Sample.firstBy Sample.alice], WellFormed trent Sample.terms e.2 →
        ∃ answer, (machine trent Sample.terms).output e.1 e.2 = .ok answer) ↔
      ∀ e ∈ (machine trent Sample.terms).trace (machine trent Sample.terms).init
          [Sample.firstBy Sample.alice], WellFormed trent Sample.terms e.2 →
        e.1.Answerable e.2 :=
  run_answers_iff _ Sample.terms (List.cons_ne_nil _ _) _

/-- A claim of round two that comes first ends with an exception. -/
theorem second_round_first_unanswered :
    ¬ ∃ hash : String → Int,
      let trent := Sample.trent hash
      WellFormed trent Sample.terms (Sample.secondBy Sample.alice) →
        ∃ answer, (machine trent Sample.terms).output (machine trent Sample.terms).init
          (Sample.secondBy Sample.alice) = .ok answer := by
  rintro ⟨hash, hclaim⟩
  obtain ⟨answer, hanswer⟩ := hclaim (Sample.secondBy_wellFormed hash Sample.alice)
  cases hanswer

/-! ## Overturning an abort -/

/-- A claim that should win: its sender has nothing on record and no claim at another
index, and it shows every claim of another party to be a lie. -/
structure Deserving (s : TrentSolver) (req : Request) : Prop where
  wellFormed : WellFormed trent c req
  positive : 0 < req.round
  unstained : s.dishonestClaims.containsKey req.senderId = false
  consistent : ∀ (k : Nat) claims, s.possiblyHonestClaims[k]? = some claims →
    claims.containsKey req.senderId = true → (k : Int) = req.round
  cleared : ∀ (k : Nat) claims, s.possiblyHonestClaims[k]? = some claims →
    ∀ p ∈ claims.keySet, (p == req.senderId) = false → (k : Int) + 1 < req.round

theorem resolved_iff {s : TrentSolver} (hs : s.Sound) (hc : s.contract = c) {req : Request}
    (hreq : WellFormed trent c req) (hpos : 0 < req.round) :
    answerOf trent c (s, req) = some .resolved ↔ s.possiblyHonestClaims = [] ∧ req.round = 1 := by
  constructor
  · intro h
    have hruling : s.ruling req = .resolve := answerOf_ruling trent c h
    have hjust := justified_of_ruling hruling
    have hnil := Wins.nil hs hjust.2
    have hlen := hjust.1.1.2
    rw [hnil, List.length_nil] at hlen
    exact ⟨hnil, by omega⟩
  · rintro ⟨hnil, hone⟩
    -- on an empty list no test speaks against anybody
    have hother : ∀ k, s.other req.senderId k = none := by
      intro k
      simp [other, hnil]
    have hruling : s.ruling req = .resolve := by
      cases hruling : s.ruling req with
      | resolve => rfl
      | outOfRange =>
          have hjust := justified_of_ruling hruling
          have hlen := hjust.2
          omega
      | overturn k j =>
          have hjust := justified_of_ruling hruling
          simp [Justified, hother] at hjust
      | ownClaim k m =>
          have hjust := justified_of_ruling hruling
          simp [Justified, hnil] at hjust
      | laterClaim k j =>
          have hjust := justified_of_ruling hruling
          simp [Justified, hother] at hjust
      | keep =>
          have hjust := justified_of_ruling hruling
          exact absurd (Or.inl ⟨hnil, hpos⟩) hjust.2.1
      | noSlot =>
          have hjust := justified_of_ruling hruling
          exact absurd (Or.inl ⟨hnil, hpos⟩) hjust.2.1
    obtain ⟨token, htoken⟩ := resolveToken_total trent c hc hreq (by omega)
    rw [answerOf, machine_output, hruling, verdict, htoken]
    rfl

/-- A run resolves all claims that should win exactly if it meets each of them before any
claim was kept, and with a promise of round one. -/
theorem run_overturns_iff (reqs : List Request) :
    (∀ e ∈ (machine trent c).trace (machine trent c).init reqs, Deserving trent c e.1 e.2 →
        answerOf trent c e = some .resolved) ↔
      ∀ e ∈ (machine trent c).trace (machine trent c).init reqs, Deserving trent c e.1 e.2 →
        e.1.possiblyHonestClaims = [] ∧ e.2.round = 1 := by
  refine run_forall_iff trent c
    (fun s req => Deserving trent c s req → answerOf trent c (s, req) = some .resolved)
    (fun s req => Deserving trent c s req → s.possiblyHonestClaims = [] ∧ req.round = 1) ?_ reqs
  intro s req hs
  refine forall_congr' fun hreq => ?_
  exact resolved_iff trent c hs.toSound hs.contract_eq hreq.wellFormed hreq.positive

/-- The solver after Bob's abort. -/
theorem sample_after_abort (trent : Trent) :
    (machine trent Sample.terms).next (machine trent Sample.terms).init
      (Sample.abortBy Sample.bob) =
    { contract := Sample.terms, possiblyHonestClaims := [HashMap.singleton Sample.bob "ABORT"] } :=
  rfl

theorem sample_deserving (hash : String → Int) :
    Deserving (Sample.trent hash) Sample.terms
      { contract := Sample.terms, possiblyHonestClaims := [HashMap.singleton Sample.bob "ABORT"] }
      (Sample.secondBy Sample.alice) where
  wellFormed := Sample.secondBy_wellFormed hash Sample.alice
  positive := by decide
  unstained := rfl
  consistent k claims hget hkey := by
    rw [List.getElem?_singleton] at hget
    split at hget
    · cases hget
      exact absurd hkey (by decide)
    · cases hget
  cleared k claims hget p hp hne := by
    rw [List.getElem?_singleton] at hget
    split at hget
    · rename_i hk
      rw [hk]
      decide
    · cases hget

/-- Bob aborts; Alice's claim of round two shows that he went on, and is told to cancel. -/
theorem overturning_claim_unresolved :
    ¬ ∃ hash : String → Int,
      let trent := Sample.trent hash
      ∀ e ∈ (machine trent Sample.terms).trace (machine trent Sample.terms).init
          [Sample.abortBy Sample.bob, Sample.secondBy Sample.alice],
        Deserving trent Sample.terms e.1 e.2 →
          answerOf trent Sample.terms e = some .resolved := by
  rintro ⟨hash, hclaim⟩
  have hmem := hclaim (_, Sample.secondBy Sample.alice)
    (List.mem_cons_of_mem _ List.mem_cons_self)
  rw [sample_after_abort] at hmem
  have hanswer := hmem (sample_deserving hash)
  cases hanswer

end TrentSolver

end Sxp
