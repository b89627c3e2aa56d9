-- SUMMARY: A party that asks Trent once, at the round it stopped in: when it is taken for a cheater.
import Sxp.Trent.ClaimStore

/-!
# The claim of an honest party

A run mixes promises, which only the parties see, with requests, which reach the
solver. The party looked at stops in some round and asks once; the others ask whatever
they like, as long as they hold the promises their claims are made of.
-/

namespace Sxp

/-- Something that happens on the network: a promise for a round is sent by the party with
this identifier, or a request reaches Trent. -/
inductive ProtocolEvent where
  | promise (party : String) (round : Int)
  | resolve (req : Request)

/-- The identifiers of the parties: their public keys as texts. -/
def ContractTerms.partyIds (c : ContractTerms) : List String :=
  c.parties.map fun k => BigInteger.text k.publicKey

/-- The requests among the events, in their order. -/
def requestsOf (events : List ProtocolEvent) : List Request :=
  events.filterMap fun e => match e with
    | .promise _ _ => none
    | .resolve req => some req

/-- A run with the one request of an honest party in it. -/
structure HonestRun (c : ContractTerms) where
  before : List ProtocolEvent
  request : Request
  later : List ProtocolEvent
  /-- The sender is a party. -/
  party : request.senderId.chars ∈ c.partyIds
  /-- Its round is one of the protocol's. -/
  started : 0 ≤ request.round
  /-- It asks once. -/
  once : ∀ req, .resolve req ∈ before ++ later → (request.senderId == req.senderId) = false
  /-- It sends no promise beyond the round it claims to be in. -/
  stopped : ∀ round, .promise request.senderId.chars round ∈ before ++ later →
    round ≤ request.round + 1
  /-- Others claim a round after everybody has promised it. -/
  backed : ∀ (pre post : List ProtocolEvent) (req : Request),
    before ++ .resolve request :: later = pre ++ .resolve req :: post →
    (request.senderId == req.senderId) = false → 1 ≤ req.round →
    ∀ p ∈ c.partyIds, .promise p req.round ∈ pre

namespace TrentSolver

/-! ## Keys found by the tests -/

theorem binds_of_other {s : TrentSolver} {senderId j : JString} {k : Nat}
    (h : s.other senderId k = some j) : ∃ m, s.Binds k j m := by
  simp only [other, Option.bind_eq_some_iff] at h
  obtain ⟨claims, hget, hj⟩ := h
  obtain ⟨e, he, rfl⟩ := List.mem_map.mp (List.mem_of_find?_eq_some hj)
  have hkey : claims.containsKey e.1 = true :=
    HashMap.containsKey_iff_mem.mpr ⟨e, he, BEq.rfl⟩
  obtain ⟨m, hm⟩ := HashMap.containsKey_iff_get.mp hkey
  exact ⟨m, claims, hget, hm⟩

/-! ## A party whose claims are not below a round -/

/-- All claims of `x` are at index `r` or above, and `x` is not condemned. -/
structure Behind (x : JString) (r : Int) (s : TrentSolver) : Prop where
  slots : ∀ (k : Nat) m, s.Binds k x m → r ≤ k
  clean : ¬ s.Condemned x

/-- The party condemned for a claim below `r` is another one. -/
theorem Behind.ne_of_binds {x y : JString} {r : Int} {s : TrentSolver} (h : Behind x r s)
    {k : Nat} (hk : k < r) {m : String} (hy : s.Binds k y m) : (x == y) = false := by
  by_contra hne
  have hxy : (y == x) = true := BEq.symm (by simpa using hne)
  have hr := h.slots k m (hy.congr hxy)
  omega

theorem Behind.condemn {x : JString} {r : Int} {s : TrentSolver} (h : Behind x r s) (k : Nat)
    {party : JString} (hparty : (x == party) = false) (proof : Option String × Option String) :
    Behind x r (s.condemn k party proof) where
  slots i m hbinds := h.slots i m ((binds_condemn s k party proof i x m).mp hbinds).1
  clean := by
    rw [condemned_condemn, hparty]
    simpa using h.clean

/-- A request of another party, for a round up to `r + 1`, leaves `x` alone. -/
theorem Behind.after {x : JString} {r : Int} {s : TrentSolver} (h : Behind x r s) {req : Request}
    (hsender : (x == req.senderId) = false) (hround : req.round ≤ r + 1) :
    Behind x r (s.after req (s.ruling req)) := by
  cases hruling : s.ruling req with
  | outOfRange => exact h
  | overturn k j =>
      obtain ⟨hk, hj, -⟩ := justified_of_ruling hruling
      obtain ⟨m, hbinds⟩ := binds_of_other hj
      exact h.condemn k (h.ne_of_binds (by omega) hbinds) _
  | ownClaim k m => exact h.condemn k hsender _
  | laterClaim k j => exact h.condemn k hsender _
  | resolve => exact ⟨h.slots, h.clean⟩
  | keep =>
      obtain ⟨-, -, hnonneg, hle⟩ := justified_of_ruling hruling
      refine ⟨?_, h.clean⟩
      intro i m hbinds
      have hk : req.round.toNat ≤ s.possiblyHonestClaims.length := by omega
      -- an insertion can only push the claims of `x` further up
      rcases (binds_keepClaim s hk req i x m).mp hbinds with ⟨-, hold⟩ | ⟨-, hkey, -⟩ | ⟨-, hold⟩
      · exact h.slots i m hold
      · rw [hsender] at hkey
        cases hkey
      · have hr := h.slots (i - 1) m hold
        omega
  | noSlot => exact h

/-! ## A party without claims -/

/-- `x` has no claim in the store and is not condemned. -/
def Unknown (x : JString) (s : TrentSolver) : Prop := ∀ r, Behind x r s

theorem Unknown.not_binds {x : JString} {s : TrentSolver} (h : Unknown x s) (k : Nat)
    (m : String) : ¬ s.Binds k x m := by
  intro hbinds
  have hk := (h (k + 1)).slots k m hbinds
  omega

theorem Unknown.after {x : JString} {s : TrentSolver} (h : Unknown x s) {req : Request}
    (hsender : (x == req.senderId) = false) : Unknown x (s.after req (s.ruling req)) := by
  intro r
  have hmax := (h (max r req.round)).after hsender (by omega)
  exact ⟨fun k m hbinds => le_trans (le_max_left _ _) (hmax.slots k m hbinds), hmax.clean⟩

/-- The first request of a party puts its claim at the round it names, unless the third
test fires. -/
theorem Unknown.after_own {s : TrentSolver} {req : Request} (h : Unknown req.senderId s)
    (hlater : ¬ (s.NoEarlier req ∧ s.LaterHit req)) :
    Behind req.senderId req.round (s.after req (s.ruling req)) := by
  cases hruling : s.ruling req with
  | outOfRange => exact h req.round
  | overturn k j =>
      obtain ⟨hk, hj, -⟩ := justified_of_ruling hruling
      obtain ⟨m, hbinds⟩ := binds_of_other hj
      exact (h req.round).condemn k ((h req.round).ne_of_binds (by omega) hbinds) _
  | ownClaim k m =>
      obtain ⟨-, ⟨claim, hmem, hget, rfl⟩, hk⟩ := justified_of_ruling hruling
      exact absurd ⟨claim, hmem, by simp [hget], hk⟩ (not_ownHit h.not_binds)
  | laterClaim k j =>
      obtain ⟨hearlier, -, hround, hk, hj⟩ := justified_of_ruling hruling
      exact absurd ⟨hearlier, k, hround, hk, by simp [hj]⟩ hlater
  | resolve => exact ⟨(h req.round).slots, (h req.round).clean⟩
  | keep =>
      obtain ⟨-, -, hnonneg, hle⟩ := justified_of_ruling hruling
      refine ⟨?_, (h req.round).clean⟩
      intro i m hbinds
      have hk : req.round.toNat ≤ s.possiblyHonestClaims.length := by omega
      rcases (binds_keepClaim s hk req i req.senderId m).mp hbinds with
        ⟨-, hold⟩ | ⟨rfl, -⟩ | ⟨-, hold⟩
      · exact absurd hold (h.not_binds _ _)
      · omega
      · exact absurd hold (h.not_binds _ _)
  | noSlot => exact h req.round

end TrentSolver

/-! ## The run of an honest party -/

theorem requestsOf_append (es es' : List ProtocolEvent) :
    requestsOf (es ++ es') = requestsOf es ++ requestsOf es' := by
  simp [requestsOf]

@[simp] theorem requestsOf_resolve (req : Request) (es : List ProtocolEvent) :
    requestsOf (.resolve req :: es) = req :: requestsOf es := rfl

theorem mem_requestsOf {es : List ProtocolEvent} {req : Request} :
    req ∈ requestsOf es ↔ .resolve req ∈ es := by
  simp only [requestsOf, List.mem_filterMap]
  constructor
  · rintro ⟨e, he, heq⟩
    cases e with
    | promise p round => cases heq
    | resolve req' =>
        cases heq
        exact he
  · intro h
    exact ⟨_, h, rfl⟩

namespace HonestRun

open TrentSolver

variable (trent : Trent) {c : ContractTerms} (run : HonestRun c)

def events : List ProtocolEvent := run.before ++ .resolve run.request :: run.later

/-- The solver after some events. -/
def solverAfter (es : List ProtocolEvent) : TrentSolver :=
  (machine trent c).exec (machine trent c).init (requestsOf es)

/-- The solver the party's request meets. -/
def solverAtRequest : TrentSolver := solverAfter trent (c := c) run.before

/-- The party is never on record as dishonest, and not answered as a dishonest one. -/
def Safe : Prop :=
  (∀ pre post, run.events = pre ++ post →
    ¬ (solverAfter trent (c := c) pre).Condemned run.request.senderId) ∧
  (machine trent c).output (run.solverAtRequest trent) run.request ≠ .ok none

/-- Later requests of others claim at most one round more than the party does. -/
theorem round_le_of_mem_later {req : Request} (h : .resolve req ∈ run.later) :
    req.round ≤ run.request.round + 1 := by
  have hstarted := run.started
  rcases Decidable.em (1 ≤ req.round) with hround | hround
  · obtain ⟨l₁, l₂, hsplit⟩ := List.append_of_mem h
    have hpromise := run.backed (run.before ++ .resolve run.request :: l₁) l₂ req
      (by simp [hsplit]) (run.once req (List.mem_append_right _ h)) hround _ run.party
    apply run.stopped req.round
    rw [hsplit]
    simp only [List.mem_append, List.mem_cons, reduceCtorEq, false_or] at hpromise ⊢
    rcases hpromise with hbefore | hl₁
    · exact Or.inl hbefore
    · exact Or.inr (Or.inl hl₁)
  · omega

theorem unknown_of_prefix {pre post : List ProtocolEvent} (h : run.before = pre ++ post) :
    Unknown run.request.senderId (solverAfter trent (c := c) pre) := by
  apply (machine trent c).exec_preserves_of_mem
  · intro req hreq s hs
    rw [machine_next]
    refine hs.after (run.once req (List.mem_append_left _ ?_))
    rw [h]
    exact List.mem_append_left _ (mem_requestsOf.mp hreq)
  · intro r
    exact ⟨fun k m hbinds => by simp [Binds] at hbinds, fun hcondemned => by cases hcondemned⟩

/-- An honest party is safe exactly if no later claim of another party is on record when its
request passes the first loop. -/
theorem safe_iff :
    run.Safe trent ↔ ¬ ((run.solverAtRequest trent).NoEarlier run.request ∧
      (run.solverAtRequest trent).LaterHit run.request) := by
  have hunknown : Unknown run.request.senderId (run.solverAtRequest trent) :=
    run.unknown_of_prefix trent (List.append_nil _).symm
  have hnull : (machine trent c).output (run.solverAtRequest trent) run.request = .ok none ↔
      (run.solverAtRequest trent).NoEarlier run.request ∧
        (run.solverAtRequest trent).LaterHit run.request := by
    rw [machine_output]
    exact verdict_null_iff trent hunknown.not_binds
  constructor
  · rintro ⟨-, houtput⟩ hlater
    exact houtput (hnull.mpr hlater)
  · intro hlater
    refine ⟨?_, fun houtput => hlater (hnull.mp houtput)⟩
    intro pre post hsplit
    -- the prefix ends after the request or before it
    rcases List.append_eq_append_iff.mp hsplit with ⟨mid, hpre, hmid⟩ | ⟨mid, hbefore, -⟩
    · cases mid with
      | nil =>
          rw [List.append_nil] at hpre
          rw [hpre]
          exact (hunknown 0).clean
      | cons e mid =>
          simp only [List.cons_append, List.cons.injEq] at hmid
          obtain ⟨rfl, hlaterEvents⟩ := hmid
          -- the request puts the claim at the round or nowhere, and later requests do not
          -- reach below it
          have hbehind : Behind run.request.senderId run.request.round
              (solverAfter trent (c := c) pre) := by
            rw [hpre, solverAfter, requestsOf_append, requestsOf_resolve, Machine.exec_append,
              Machine.exec_cons]
            apply (machine trent c).exec_preserves_of_mem
            · intro req hreq s hs
              have hmem : .resolve req ∈ run.later := by
                rw [hlaterEvents]
                exact List.mem_append_left _ (mem_requestsOf.mp hreq)
              rw [machine_next]
              exact hs.after (run.once req (List.mem_append_right _ hmem))
                (run.round_le_of_mem_later hmem)
            · rw [machine_next]
              exact hunknown.after_own hlater
          exact hbehind.clean
    · exact (run.unknown_of_prefix trent hbefore 0).clean

end HonestRun

/-! ## Three honest parties -/

namespace Sample

/-- A contract whose parties have the public keys 11, 12 and 13. -/
def threeTerms : ContractTerms where
  parties := [11, 12, 13].map fun y => { p := 23, g := 5, publicKey := y }
  clauses := ["first"]

theorem threeTerms_partyIds : threeTerms.partyIds = ["11", "12", "13"] := by
  decide +kernel

/-- Everybody promises round one. The first party has not seen all promises and aborts, the
second one has and claims round one, and the third one, which has not, aborts too. -/
def adjacentRun : HonestRun threeTerms where
  before := [.promise "11" 1, .promise "12" 1, .promise "13" 1,
    .resolve (abortBy ⟨"11", 0⟩), .resolve (firstBy ⟨"12", 1⟩)]
  request := abortBy ⟨"13", 2⟩
  later := []
  party := by simp [threeTerms_partyIds, abortBy]
  started := le_rfl
  once := by
    intro req hreq
    simp only [List.append_nil, List.mem_cons, reduceCtorEq, false_or, ProtocolEvent.resolve.injEq,
      List.not_mem_nil, or_false] at hreq
    rcases hreq with rfl | rfl <;> rfl
  stopped := by
    intro round hround
    simp only [List.append_nil, List.mem_cons, reduceCtorEq, ProtocolEvent.promise.injEq,
      List.not_mem_nil, or_false] at hround
    rcases hround with ⟨-, rfl⟩ | ⟨-, rfl⟩ | ⟨-, rfl⟩ <;> decide
  backed := by
    intro pre post req hsplit hsender hround
    rw [threeTerms_partyIds]
    rcases pre with _ | ⟨e₁, _ | ⟨e₂, _ | ⟨e₃, _ | ⟨e₄, _ | ⟨e₅, _ | ⟨e₆, pre⟩⟩⟩⟩⟩⟩
    · simp at hsplit
    · simp at hsplit
    · simp at hsplit
    · simp only [List.cons_append, List.nil_append, List.cons.injEq,
        ProtocolEvent.resolve.injEq] at hsplit
      obtain ⟨-, -, -, rfl, -⟩ := hsplit
      exact absurd hround (by decide)
    · simp only [List.cons_append, List.nil_append, List.cons.injEq,
        ProtocolEvent.resolve.injEq] at hsplit
      obtain ⟨rfl, rfl, rfl, -, rfl, -⟩ := hsplit
      simp [firstBy]
    · simp only [List.cons_append, List.nil_append, List.cons.injEq,
        ProtocolEvent.resolve.injEq] at hsplit
      obtain ⟨-, -, -, -, -, rfl, -⟩ := hsplit
      cases hsender
    · simp at hsplit

end Sample

/-- Nobody cheats, and the third party is condemned. -/
theorem HonestRun.adjacent_claim_condemned :
    ¬ ∃ hash : String → Int, Sample.adjacentRun.Safe (Sample.trent hash) := by
  rintro ⟨hash, -, houtput⟩
  exact houtput rfl

end Sxp
