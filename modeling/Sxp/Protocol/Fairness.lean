-- SUMMARY: One honest party and Trent against everybody else: when a party whose signature is out can be told to cancel.
import Sxp.Contract.Finalization
import Sxp.Protocol.Network
import Sxp.Protocol.Progress
import Sxp.Trent.Verdicts

/-!
# Fairness for an honest signer

The other parties do what they like: they send the honest party any messages and Trent
any requests. What they cannot do is sign in its name, though they can repeat what it has
signed, under another round. Nothing else about forging is needed.
-/

namespace Sxp

/-- The honest party, once it has started, and Trent. -/
structure Siege where
  honest : Option Establisher
  solver : TrentSolver
  answers : List Outcome

inductive SiegeEvent where
  | start (wish : Wish) (coins : Nat → Nat)
  | input (x : LocalInput)
  | ownRequest (n ref : Nat) (nonces : Nat → Nat) (messageText : String)
  | otherRequest (req : Request)

/-- A setting with the party that is honest. -/
structure HonestSetting extends Setting where
  key : ElGamalKey
  member : key ∈ terms.parties

namespace HonestSetting

variable (S : HonestSetting)

/-- The number of parties. -/
def N : Nat := S.terms.parties.length

/-- The messages the honest party has sent. -/
def sent (st : Siege) : List SignMessage := (st.honest.map (·.sent)).getD []

/-- The requests the honest party has sent. -/
def requests (st : Siege) : List ResolveMessage := (st.honest.map (·.requests)).getD []

/-- A request the others can make: in another name, or with something the honest party has
signed. -/
def Possible (st : Siege) (req : Request) : Prop :=
  req.senderId.chars ≠ BigInteger.text S.key.publicKey ∨ ∃ q ∈ requests st, q.m = req.m

instance (st : Siege) (req : Request) : Decidable (S.Possible st req) :=
  inferInstanceAs (Decidable (_ ∨ _))

/-- The request the solver gets when Trent handles the honest party's. -/
def ownRequestOf (st : Siege) : SiegeEvent → Option Request
  | .ownRequest n ref nonces messageText =>
      (requests st)[n]?.map fun q => q.request S.key.publicKey ref nonces messageText
  | _ => none

theorem senderId_of_ownRequest {st : Siege} {n ref : Nat} {nonces : Nat → Nat}
    {messageText : String} {req : Request}
    (h : S.ownRequestOf st (.ownRequest n ref nonces messageText) = some req) :
    req.senderId = ⟨BigInteger.text S.key.publicKey, ref⟩ := by
  obtain ⟨q, -, rfl⟩ := Option.map_eq_some_iff.mp h
  rfl

/-- Trent handles a request. -/
def resolve (st : Siege) (req : Request) : Siege :=
  let r := st.solver.resolveT S.trent req
  { st with solver := r.1, answers := st.answers ++ [r.2] }

def step (st : Siege) (ev : SiegeEvent) : Siege :=
  match ev with
  | .start wish coins =>
      match st.honest with
      | none => { st with
          honest := some ((S.establisher S.key wish).setListenerOnTrent S.tools coins).1 }
      | some _ => st
  | .input x => { st with honest := st.honest.map fun e => e.handle S.tools x }
  | .ownRequest _ _ _ _ =>
      match S.ownRequestOf st ev with
      | none => st
      | some req => S.resolve st req
  | .otherRequest req => if S.Possible st req then S.resolve st req else st

def siege : Machine Siege SiegeEvent Unit where
  init := { honest := none, solver := { contract := S.terms }, answers := [] }
  step st ev := (S.step st ev, ())

theorem next_otherRequest {st : Siege} {req : Request} (h : S.Possible st req) :
    S.siege.next st (.otherRequest req) = S.resolve st req :=
  if_pos h

theorem next_input {st : Siege} {e : Establisher} (h : st.honest = some e) (x : LocalInput) :
    (S.siege.next st (.input x)).honest = some (e.handle S.tools x) :=
  congrArg (Option.map _) h

/-! ## The property and its condition -/

/-- The honest party has sent its clear signature. -/
def ClearSent (st : Siege) : Prop := ∃ msg ∈ sent st, msg.round = some ((S.N : Int) + 2)

/-- Another party holds the honest party's signature. -/
def Held (st : Siege) : Prop := S.ClearSent st ∨ ∃ o ∈ st.answers, kindOf o = some .resolved

/-- An answer that leaves a party without the contract. -/
def Bad (o : Outcome) : Prop :=
  kindOf o = some .aborted ∨ kindOf o = some .honestyToken ∨ o = .ok none

/-- While another party holds its signature, the honest party gets no bad answer. -/
def Fair (st : Siege) (ev : SiegeEvent) : Prop :=
  ∀ req, S.ownRequestOf st ev = some req → S.Held st →
    ¬ Bad (st.solver.resolveT S.trent req).2

/-- Nothing stands in the solver against a party that has sent its clear signature: no slot
below `N` has a claim under another object, and there are fewer than `N` slots, or exactly
`N` and no claim of its own. -/
def Unhindered (st : Siege) (ev : SiegeEvent) : Prop :=
  ∀ req, S.ownRequestOf st ev = some req → S.ClearSent st →
    ¬ st.solver.EarlierHit req ∧
      (st.solver.possiblyHonestClaims.length < S.N ∨
        st.solver.possiblyHonestClaims.length = S.N ∧ ¬ st.solver.OwnHit req)

/-! ## The invariant -/

structure Sane (st : Siege) : Prop where
  consistent : ∀ e, st.honest = some e → e.Consistent
  terms : ∀ e, st.honest = some e → e.contract.toContractTerms = S.terms
  solver : TrentSolver.SoundFor S.terms st.solver
  released : ∀ o ∈ st.answers, kindOf o = some .resolved → st.solver.Closed

theorem sane_init : S.Sane S.siege.init where
  consistent := by simp [siege]
  terms := by simp [siege]
  solver := TrentSolver.soundFor_init S.trent S.terms
  released := by simp [siege]

theorem Sane.resolve {st : Siege} (h : S.Sane st) (req : Request) : S.Sane (S.resolve st req) where
  consistent := h.consistent
  terms := h.terms
  solver := @TrentSolver.SoundFor.next S.trent _ _ h.solver req
  released := by
    intro o ho hkind
    simp only [HonestSetting.resolve, TrentSolver.resolveT_eq] at ho ⊢
    rcases List.mem_append.mp ho with hold | hnew
    · exact (h.released o hold hkind).after req
    · rw [List.mem_singleton.mp hnew] at hkind
      have hresolve : st.solver.ruling req = .resolve := TrentSolver.ruling_of_kindOf S.trent hkind
      rw [hresolve]
      exact TrentSolver.closed_of_resolve h.solver.toSound hresolve

theorem Sane.step {st : Siege} (h : S.Sane st) (ev : SiegeEvent) : S.Sane (S.step st ev) := by
  cases ev with
  | start wish coins =>
      simp only [HonestSetting.step]
      split
      · have hmoves := @Establisher.setListenerOnTrent_moves S.tools
          (S.establisher S.key wish) coins
        refine { h with consistent := ?_, terms := ?_ }
        · intro e he
          cases he
          exact (Establisher.consistent_started rfl rfl).moves hmoves
        · intro e he
          cases he
          exact hmoves.terms
      · exact h
  | input x =>
      refine { h with consistent := ?_, terms := ?_ }
      · intro e he
        obtain ⟨e₀, he₀, rfl⟩ := Option.map_eq_some_iff.mp he
        exact (h.consistent e₀ he₀).handle x
      · intro e he
        obtain ⟨e₀, he₀, rfl⟩ := Option.map_eq_some_iff.mp he
        exact (e₀.handle_extends x).terms.trans (h.terms e₀ he₀)
  | ownRequest n ref nonces messageText =>
      simp only [HonestSetting.step]
      split
      · exact h
      · exact h.resolve S _
  | otherRequest req =>
      simp only [HonestSetting.step]
      split
      · exact h.resolve S req
      · exact h

theorem sane_exec (events : List SiegeEvent) : S.Sane (S.siege.exec S.siege.init events) :=
  S.siege.exec_preserves (fun _ ev h => h.step S ev) S.sane_init events

/-! ## Fair exactly if unhindered -/

/-- A request sent by a party that has sent its clear signature is for round `N + 1`. -/
theorem Sane.request_round {st : Siege} (h : S.Sane st) {ev : SiegeEvent} {req : Request}
    (hreq : S.ownRequestOf st ev = some req) (hclear : S.ClearSent st) :
    req.round = (S.N : Int) + 1 := by
  cases ev with
  | ownRequest n ref nonces messageText =>
      obtain ⟨q, hq, rfl⟩ := Option.map_eq_some_iff.mp hreq
      obtain ⟨msg, hmsg, hround⟩ := hclear
      cases hhonest : st.honest with
      | none => simp [sent, hhonest] at hmsg
      | some e =>
          have hconsistent := h.consistent e hhonest
          have hmsg' : msg ∈ e.sent := by simpa [sent, hhonest] using hmsg
          have hq' : q ∈ e.requests :=
            List.mem_of_getElem? (by simpa [requests, hhonest] using hq)
          have hN : e.N = S.N := by rw [Establisher.N, h.terms e hhonest, N]
          -- the clear signature is of round `N + 2`, beyond which no party gets, and asking
          -- stops a party in its round
          obtain ⟨r, hr, hle⟩ := hconsistent.sent_le msg hmsg'
          have hround_le := hconsistent.round_le
          have hasked := (hconsistent.asked q hq').1
          rw [hround, Option.some.injEq] at hr
          change q.round = _
          omega
  | start wish coins => cases hreq
  | input x => cases hreq
  | otherRequest req => cases hreq

/-- What a solver answers to a claim of round `N + 1`. -/
theorem bad_iff {s : TrentSolver} (hs : TrentSolver.SoundFor S.terms s) {req : Request}
    (hround : req.round = (S.N : Int) + 1) :
    Bad (s.resolveT S.trent req).2 ↔
      s.EarlierHit req ∨ S.N + 1 ≤ s.possiblyHonestClaims.length ∨
        (s.possiblyHonestClaims.length = S.N ∧ s.OwnHit req) := by
  have htwo : 2 ≤ S.N := S.two_parties
  have hparties : s.contract.parties.length = S.N := by rw [hs.contract_eq, N]
  rw [TrentSolver.resolveT_eq]
  cases hruling : s.ruling req with
  | outOfRange =>
      obtain ⟨hearlier, hlen⟩ := TrentSolver.justified_of_ruling hruling
      -- an exception, and the list is too short for the other two reasons
      simp only [TrentSolver.verdict, Bad, kindOf]
      simp only [hearlier, false_or]
      constructor
      · simp
      · rintro (h | h) <;> omega
  | overturn k j =>
      obtain ⟨hk, hj, -⟩ := TrentSolver.justified_of_ruling hruling
      simp only [TrentSolver.verdict, Bad, kindOf, true_or, or_true, true_iff]
      exact Or.inl ⟨k, hk, by simp [hj]⟩
  | ownClaim k m =>
      obtain ⟨hearlier, ⟨claim, hmem, hget, hindex⟩, hne⟩ := TrentSolver.justified_of_ruling hruling
      simp only [TrentSolver.verdict, Bad, or_true, true_iff]
      -- the first loop found all its slots, so the list has at least `N` of them
      have hown : s.OwnHit req := ⟨claim, hmem, by simp [hget], by rwa [hindex]⟩
      have hlen := hearlier.2
      rcases Decidable.em (S.N + 1 ≤ s.possiblyHonestClaims.length) with hlong | hshort
      · exact Or.inr (Or.inl hlong)
      · exact Or.inr (Or.inr ⟨by omega, hown⟩)
  | laterClaim k j =>
      -- there is no slot above `N + 1` and below `N`
      obtain ⟨-, -, hk, hlt, -⟩ := TrentSolver.justified_of_ruling hruling
      omega
  | resolve =>
      obtain ⟨⟨hearlier, -, -⟩, hwins⟩ := TrentSolver.justified_of_ruling hruling
      -- an empty list ends the first loop with an exception, since `N + 1` is above one
      have hnil := TrentSolver.Wins.nil hs.toSound hwins
      have hlen := hearlier.2
      rw [hnil, List.length_nil] at hlen
      omega
  | keep =>
      obtain ⟨-, -, hslot⟩ := TrentSolver.justified_of_ruling hruling
      simp only [TrentSolver.verdict, Bad, kindOf, true_or, true_iff]
      have hle := hslot.2
      exact Or.inr (Or.inl (by omega))
  | noSlot =>
      obtain ⟨⟨hearlier, hown, -⟩, -, hslot⟩ := TrentSolver.justified_of_ruling hruling
      simp only [TrentSolver.verdict, Bad, kindOf]
      -- the list has exactly `N` slots
      have hlen : ¬ S.N + 1 ≤ s.possiblyHonestClaims.length := by
        intro hlen
        exact hslot ⟨by omega, by omega⟩
      simp [hearlier.1, hown, hlen]

/-- A closed solver gives no bad answer. -/
theorem not_bad_of_closed {s : TrentSolver} (h : s.Closed) (req : Request) :
    ¬ Bad (s.resolveT S.trent req).2 := by
  rw [TrentSolver.resolveT_eq]
  rcases h.ruling req with hruling | hruling
  · simp [hruling, TrentSolver.verdict, Bad, kindOf]
  · rw [hruling]
    simp only [TrentSolver.verdict]
    cases s.resolveToken S.trent req with
    | error x => simp [Bad, kindOf, Except.map]
    | ok token => simp [Bad, kindOf, Except.map]

theorem Sane.fair_iff {st : Siege} (h : S.Sane st) (ev : SiegeEvent) :
    S.Fair st ev ↔ S.Unhindered st ev := by
  constructor
  · intro hfair req hreq hclear
    have hgood := hfair req hreq (Or.inl hclear)
    rw [S.bad_iff h.solver (h.request_round S hreq hclear), not_or, not_or] at hgood
    obtain ⟨hearlier, hlen, hown⟩ := hgood
    refine ⟨hearlier, ?_⟩
    rcases Nat.lt_or_ge st.solver.possiblyHonestClaims.length S.N with hlt | hge
    · exact Or.inl hlt
    · have heq : st.solver.possiblyHonestClaims.length = S.N := by omega
      exact Or.inr ⟨heq, fun hhit => hown ⟨heq, hhit⟩⟩
  · intro hunhindered req hreq hheld
    rcases hheld with hclear | ⟨o, ho, hreleased⟩
    · obtain ⟨hearlier, hlen⟩ := hunhindered req hreq hclear
      rw [S.bad_iff h.solver (h.request_round S hreq hclear)]
      rintro (hhit | hlong | ⟨heq, hhit⟩)
      · exact hearlier hhit
      · omega
      · rcases hlen with hlt | ⟨-, hnot⟩
        · omega
        · exact hnot hhit
    -- signatures were released: the solver is closed for good
    · exact S.not_bad_of_closed (h.released o ho hreleased) req

/-- One earlier claim of another is enough to treat a signer unfairly. -/
theorem Sane.not_fair_of_earlierHit {st : Siege} (h : S.Sane st) {ev : SiegeEvent} {req : Request}
    (hreq : S.ownRequestOf st ev = some req) (hclear : S.ClearSent st)
    (hhit : st.solver.EarlierHit req) : ¬ S.Fair st ev := by
  rw [h.fair_iff S ev]
  exact fun hunhindered => (hunhindered req hreq hclear).1 hhit

/-- In every run, the honest party is treated fairly at every step exactly if nothing stands
against it whenever Trent handles a request it made after its clear signature. -/
theorem run_fair_iff (events : List SiegeEvent) :
    (∀ e ∈ S.siege.trace S.siege.init events, S.Fair e.1 e.2) ↔
      ∀ e ∈ S.siege.trace S.siege.init events, S.Unhindered e.1 e.2 :=
  S.siege.trace_forall_iff (fun _ ev h => h.fair_iff S ev) (fun _ ev h _ => h.step S ev)
    (S.sane_init) events

end HonestSetting

/-! ## Alice signs after Bob's abort -/

namespace Sample

variable (hash : String → Int)

def alicePromise (round : Nat) : Or :=
  Or.forgedFor hash (contract.roundData round) aliceKey aliceId

def bobPromise (round : Nat) : Or :=
  Or.forgedFor hash (contract.roundData round) bobKey bobId

/-- The texts that stand for the promises. -/
def texts : List (String × Or) :=
  [("a1", alicePromise hash 1), ("b1", bobPromise hash 1),
    ("a2", alicePromise hash 2), ("b2", bobPromise hash 2),
    ("a3", alicePromise hash 3), ("b3", bobPromise hash 3)]

/-- Tools for Alice. -/
def tools : StepTools where
  hash := hash
  getPcs _ senderK _ data _ := .ok (Or.forgedFor hash data senderK aliceId)
  getClearSignature _ _ _ data _ :=
    .ok (SigmaSignature.forged hash data aliceId (trent hash).getKey)
  sign _ _ _ text := .ok (SigmaSignature.forged hash text aliceId (trent hash).getKey)
  encryptMsg _ text _ := .ok text
  decryptMsg text _ := .ok text
  getJson o := (((texts hash).find? fun x => x.2 == o).map Prod.fst).getD ""
  getPrivateCS text := ((texts hash).find? fun x => x.1 == text).map Prod.snd
  signatureToJson _ := "signature"
  signatureOfJson _ := none
  claimToJson _ := "claim"
  signaturesOfJson _ := none

def setting : HonestSetting where
  tools := tools hash
  trent := trent hash
  terms := terms
  signAnswer _ _ token := SigmaSignature.forged hash token aliceId (trent hash).getKey
  two_parties := le_rfl
  distinct := by decide +kernel
  key := aliceKey
  member := List.mem_cons_self

/-- Bob as the sender of a request. -/
def bobSender : JString := ⟨BigInteger.text bobKey.publicKey, 1⟩

/-- What Bob sends to Alice. -/
def bobMessage (round : Nat) : SignMessage where
  round := some round
  entries := HashMap.singleton aliceKey.publicKey
    (if round = 1 then "b1" else if round = 2 then "b2" else "b3")

def roundEvents (round : Nat) : List SiegeEvent :=
  [.input (.deliver (bobMessage round) bobKey.publicKey), .input (.advance fun _ => 0)]

/-- Bob aborts, Alice, who does not hear of it, goes through all rounds, sends her clear
signature, gets no answer and asks Trent. -/
def lateRun : List SiegeEvent :=
  [.otherRequest (abortBy bobSender), .start .accept fun _ => 0] ++
    (roundEvents 1 ++ (roundEvents 2 ++ (roundEvents 3 ++ [.input (.ask 0)])))

/-- Trent handles Alice's request. -/
def lateRequest : SiegeEvent := .ownRequest 0 0 (fun _ => 1) ""

/-- Alice's contract while she signs. -/
def signing : SigmaContract :=
  ((setting hash).establisher aliceKey .accept).contract.setStatus .signing

/-- Alice is ready in this round. -/
structure AliceAt (round : Nat) (e : Establisher) : Prop where
  key : e.key = aliceKey
  contract : e.contract = signing hash
  round : e.round = round
  ready : ProtocolSign.Ready e

theorem AliceAt.N {round : Nat} {e : Establisher} (h : AliceAt hash round e) : e.N = 2 := by
  rw [Establisher.N, h.contract]
  rfl

theorem tools_promises (e : Establisher) (coins : Nat → Nat) (ks : List (ElGamalKey × Nat)) :
    ProtocolSign.Promises (tools hash) e coins ks :=
  fun _ _ => ⟨_, _, rfl, rfl⟩

theorem tools_sign (e : Establisher) (coins : Nat) (signer : SigmaSigner) (text : String) :
    ∃ s, (tools hash).sign coins e.key signer text = .ok s :=
  ⟨_, rfl⟩

theorem bobMessage_accepted {round : Nat} (hpos : 1 ≤ round) (hle : round ≤ 3) {e : Establisher}
    (hkey : e.key = aliceKey) (hcontract : e.contract = signing hash) :
    ProtocolSign.Accepted (tools hash) e (bobMessage round) bobKey.publicKey round 1
      (bobPromise hash round) where
  sender := by
    rw [hcontract]
    exact (by decide +kernel :
      terms.parties.findIdx? (fun k => k.publicKey == bobKey.publicKey) = some 1)
  other := by
    rw [hkey]
    decide +kernel
  round := rfl
  promise := by
    rw [hkey]
    refine ⟨_, _, (HashMap.get_singleton _ _ _).trans (if_pos BEq.rfl), rfl, ?_⟩
    obtain rfl | rfl | rfl : round = 1 ∨ round = 2 ∨ round = 3 := by omega
    all_goals rfl
  verified := by
    rw [hcontract]
    exact Or.forged_verifies hash _ _ _

/-- After Bob's promise Alice has everybody's. -/
theorem AliceAt.deliver {round : Nat} (hpos : 1 ≤ round) (hle : round ≤ 3) {e : Establisher}
    (h : AliceAt hash round e) :
    let e' := e.handle (tools hash) (.deliver (bobMessage round) bobKey.publicKey)
    AliceAt hash round e' ∧ ∀ k < e'.N, e'.stored e'.round k ≠ none := by
  intro e'
  have hN := h.N
  have hslot := h.ready.slots round (by omega) 1 (by omega)
  obtain ⟨hbob, hstate⟩ := (bobMessage_accepted hash hpos hle h.key h.contract).stores (by
    omega) hslot
  have hat : AliceAt hash round e' := by
    rcases hstate with hsame | hstore
    · rw [show e' = e from hsame]
      exact h
    · rw [show e' = e.store round 1 (bobPromise hash round) from hstore]
      exact ⟨h.key, h.contract, h.round, h.ready.store _ _ _⟩
  refine ⟨hat, ?_⟩
  intro k hk
  rw [hat.N] at hk
  -- her own promise is there since she sent it
  obtain rfl | rfl : k = 0 ∨ k = 1 := by omega
  · apply hat.ready.own 0 aliceKey
    · rw [hat.contract]
      rfl
    · rw [hat.key]
  · rw [hat.round]
    exact hbob

theorem AliceAt.goesOn {round : Nat} (hpos : 1 ≤ round) (hle : round ≤ 2) {e : Establisher}
    (h : AliceAt hash round e) :
    AliceAt hash (round + 1) ((e.handle (tools hash)
      (.deliver (bobMessage round) bobKey.publicKey)).handle (tools hash)
        (.advance fun _ => 0)) := by
  obtain ⟨hat, hall⟩ := h.deliver hash hpos (by omega)
  have hround := hat.round
  have hN := hat.N
  obtain ⟨hcontract, hnext, hready⟩ := Establisher.advance_ready hat.ready (by omega) hall
    (tools_promises hash _ (fun _ => 0) _)
  refine ⟨?_, hcontract.trans hat.contract, by rw [hnext, hround], hready⟩
  rw [(Establisher.handle_extends _ _).key]
  exact hat.key

/-- Whatever is stored already, Alice's own signature passes the test. -/
theorem ownSignature_added {c : SigmaContract} (hterms : c.toContractTerms = terms)
    (htrent : c.getTrentKey = some (trent hash).getKey) :
    ∃ c', c.addSignature hash aliceKey
      (SigmaSignature.forged hash c.getHashableData aliceId (trent hash).getKey) = (c',
        .ok ()) := by
  have hbyte : (49 : UInt8) < 128 := by decide
  have hparties : c.parties = [aliceKey, bobKey] := congrArg ContractTerms.parties hterms
  have hmem : aliceKey ∈ c.parties := by
    rw [hparties]
    exact List.mem_cons_self
  have hsigner : c.receiverSigner aliceKey =
      { trentK := some (trent hash).getKey, receiverK := some aliceKey } :=
    congrArg (fun k => { trentK := k, receiverK := some aliceKey : SigmaSigner }) htrent
  have hverify : (c.receiverSigner aliceKey).verify hash c.getHashableData
      (SigmaSignature.forged hash c.getHashableData aliceId (trent hash).getKey) = .ok true := by
    rw [hsigner]
    exact SigmaSignature.forged_verify hash aliceKey_identification hbyte _ _
  have hfinalizes := SigmaContract.storeSignature_finalizes hash hparties htrent hverify
  rw [SigmaContract.Finalizes] at hfinalizes
  rw [SigmaContract.addSignature, if_pos hmem]
  split
  · rename_i heq
    rw [heq] at hfinalizes
    cases hfinalizes
  · exact ⟨_, rfl⟩
  · exact ⟨_, rfl⟩

theorem AliceAt.signs {e : Establisher} (h : AliceAt hash 3 e) (coins : Nat → Nat) :
    ProtocolSign.Signs (tools hash) e.nextRound coins e.contract.parties.zipIdx := by
  rintro ⟨receiverK, k⟩ hx
  refine ⟨_, rfl, ?_⟩
  intro hown c hterms htrent
  have hcontract : e.nextRound.contract = signing hash := h.contract
  rw [hcontract] at hterms htrent
  -- only for herself does she add the signature to her contract
  have hreceiver : receiverK = aliceKey := by
    have hmem := List.fst_mem_of_mem_zipIdx hx
    rw [h.contract] at hmem
    rcases List.mem_pair.mp hmem with heq | heq
    · exact heq
    · have hkey : e.nextRound.key = aliceKey := h.key
      rw [heq, hkey] at hown
      exact absurd hown (by decide +kernel)
  have hdata : e.nextRound.contract.getHashableData = c.getHashableData := by
    rw [hcontract, hterms]
  rw [hreceiver, hdata]
  exact ownSignature_added hash hterms htrent

/-- Bob's abort is what the solver has, and Alice is in this round. -/
structure Waiting (round : Nat) (st : Siege) : Prop where
  alice : ∃ e, st.honest = some e ∧ AliceAt hash round e
  solver : st.solver =
    { contract := terms, possiblyHonestClaims := [HashMap.singleton bobSender "ABORT"] }

theorem Waiting.round {round : Nat} (hpos : 1 ≤ round) (hle : round ≤ 2) {st : Siege}
    (h : Waiting hash round st) :
    Waiting hash (round + 1) ((setting hash).siege.exec st (roundEvents round)) where
  alice := by
    obtain ⟨e, he, hat⟩ := h.alice
    exact ⟨_, (setting hash).next_input ((setting hash).next_input he _) _,
      hat.goesOn hash hpos hle⟩
  solver := h.solver

theorem waiting_start : Waiting hash 1 ((setting hash).siege.exec (setting hash).siege.init
    [.otherRequest (abortBy bobSender), .start .accept fun _ => 0]) := by
  have hpossible : (setting hash).Possible (setting hash).siege.init (abortBy bobSender) :=
    Or.inl (by decide +kernel :
      BigInteger.text bobKey.publicKey ≠ BigInteger.text aliceKey.publicKey)
  rw [Machine.exec_cons, (setting hash).next_otherRequest hpossible]
  obtain ⟨hcontract, hround, hready⟩ := Establisher.setListenerOnTrent_ready
    (show ((setting hash).establisher aliceKey .accept).contract.wish ≠ .refuse from
      (by decide : Wish.accept ≠ .refuse))
    ⟨aliceKey, List.mem_cons_self, rfl⟩ (tools_promises hash _ (fun _ => 0) _)
  refine ⟨⟨_, rfl, ?_, hcontract, hround, hready⟩, rfl⟩
  exact (Establisher.setListenerOnTrent_moves _ _).key

/-- After the last round Alice's clear signature is out and her request is on the network. -/
theorem Waiting.last {st : Siege} (h : Waiting hash 3 st) :
    let st' := (setting hash).siege.exec st (roundEvents 3 ++ [.input (.ask 0)])
    (setting hash).ClearSent st' ∧
      (∃ req, (setting hash).ownRequestOf st' lateRequest = some req) ∧
      st'.solver =
        { contract := terms, possiblyHonestClaims := [HashMap.singleton bobSender "ABORT"] } := by
  intro st'
  obtain ⟨e, he, hat⟩ := h.alice
  obtain ⟨hat', hall⟩ := hat.deliver hash (by omega) le_rfl
  obtain ⟨msg, hmsg, hround⟩ := Establisher.advance_signs hat'.ready
    (by rw [hat'.round, hat'.N]) hall (hat'.signs hash fun _ => 0)
  have hhonest : st'.honest = some _ := (setting hash).next_input ((setting hash).next_input
    ((setting hash).next_input he (.deliver (bobMessage 3) bobKey.publicKey))
      (.advance fun _ => 0)) (.ask 0)
  refine ⟨⟨msg, ?_, ?_⟩, ?_, h.solver⟩
  · rw [HonestSetting.sent, hhonest]
    exact (Establisher.handle_extends _ (.ask 0)).sent msg hmsg
  · rw [hround, hat'.N]
    rfl
  · obtain ⟨q, hq⟩ : ∃ q, (HonestSetting.requests st')[0]? = some q := by
      rw [HonestSetting.requests, hhonest]
      obtain ⟨q, hq⟩ := Establisher.ask_requests (tools_sign hash _ 0)
      exact ⟨_, List.getElem?_eq_getElem (List.length_pos_of_mem hq)⟩
    exact ⟨_, congrArg (Option.map _) hq⟩

theorem lateRun_last :
    let st := (setting hash).siege.exec (setting hash).siege.init lateRun
    (setting hash).ClearSent st ∧
      (∃ req, (setting hash).ownRequestOf st lateRequest = some req) ∧
      st.solver =
        { contract := terms, possiblyHonestClaims := [HashMap.singleton bobSender "ABORT"] } := by
  simp only [lateRun, Machine.exec_append _ _ [_, _], Machine.exec_append _ _ (roundEvents 1),
    Machine.exec_append _ _ (roundEvents 2)]
  exact (((waiting_start hash).round hash le_rfl (by omega)).round hash (by omega) le_rfl).last

end Sample

namespace HonestSetting

/-- Alice, whose clear signature is out, is told to cancel because of Bob's abort. -/
theorem signer_told_to_cancel :
    ¬ ∃ hash : String → Int,
      let S := Sample.setting hash
      ∀ e ∈ S.siege.trace S.siege.init (Sample.lateRun ++ [Sample.lateRequest]),
        S.Fair e.1 e.2 := by
  rintro ⟨hash, hclaim⟩
  obtain ⟨hclear, ⟨req, hreq⟩, hsolver⟩ := Sample.lateRun_last hash
  have hsane := (Sample.setting hash).sane_exec Sample.lateRun
  have hfair := hclaim _ (Machine.mem_trace_last _ _ Sample.lateRun Sample.lateRequest)
  have hround := hsane.request_round _ hreq hclear
  refine hsane.not_fair_of_earlierHit _ hreq hclear ?_ hfair
  refine ⟨0, ?_, ?_⟩
  · rw [hround]
    exact (by decide : ((0 : Nat) : Int) + 1 < (2 : Nat) + 1)
  · have hne : Sample.bobSender ≠ req.senderId := by
      rw [(Sample.setting hash).senderId_of_ownRequest hreq]
      exact fun heq => Nat.one_ne_zero (congrArg JString.ref heq)
    rw [hsolver, TrentSolver.other_of_singleton rfl hne]
    exact Option.some_ne_none Sample.bobSender

end HonestSetting

end Sxp
