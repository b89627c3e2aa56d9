-- SUMMARY: An outsider's claim to Trent: every check accepts it, he releases good signatures of all parties, and can never abort again.
import Sxp.Contract.Outsider
import Sxp.Protocol.CompleteClaim
import Sxp.Protocol.Quiescence
import Sxp.Sigma.Soundness
import Mathlib.Data.List.Forall2

/-!
# The claim of an outsider

A resolve request names its sender and its contract itself. With the public keys of the parties
and of Trent an outsider makes a promise of every party for one of them, and signs the request
in the name of that one.
-/

namespace Sxp

/-- What is public about a contract, when all keys are in Trent's group. -/
structure PublicContract (p : ℕ) [Fact p.Prime] (trent : Trent) (c : ContractTerms) : Prop where
  trent : trent.keys.Valid p
  party : ∀ k ∈ c.parties, k.InGroup p
  identification : ∀ k ∈ c.parties, ∃ n, Sender.identification k = .ok n ∧ n < p

theorem PublicContract.keys {p : ℕ} [Fact p.Prime] {trent : Trent} {c : ContractTerms}
    (h : PublicContract p trent c) {S R : ElGamalKey} (hS : S ∈ c.parties) (hR : R ∈ c.parties) :
    PublicKeysFor p S R trent.getKey where
  sender := h.party S hS
  receiver := h.party R hR
  trent := h.trent.inGroup
  identification := h.identification S hS

namespace Outsider

variable (trent : Trent) (c : ContractTerms) (round : Int) (requester : ElGamalKey)
  (draws : ElGamalKey → OutsiderDraws)

/-- The promises of all parties for `requester`. -/
def promises : Except JavaException (List Or) :=
  c.parties.mapM fun party =>
    promise trent.hash party requester trent.getKey (c.roundData round) (draws party)

/-- The request with the array whose text is `text`. -/
def resolveRequest (text : String) : Except JavaException ResolveMessage := do
  let signature ← signature trent.hash requester requester trent.getKey text (draws requester)
  return { round, contract := c, m := text, signature }

variable {trent c round requester draws} {p : ℕ} [Fact p.Prime]

/-! ## The promises -/

/-- Trent reads the identification of `S` out of the ciphertext. -/
theorem Identified.identifies (hkeys : trent.keys.Valid p) {S : ElGamalKey} {k : Nat}
    {res : ResEncrypt} {q : Int}
    (h : Identified p S trent.getKey k res q) : trent.Identifies res S := by
  obtain ⟨hcontent, hnumber⟩ := Sender.identification_eq h.data
  refine ⟨_, ?_, hcontent⟩
  obtain ⟨M, hM, -, hv⟩ := h.divides.quotient
  rw [hnumber, Except.ok.injEq] at hM
  have hpow : (trent.keys.publicKey : ZMod p) ^ (k : Int) ≠ 0 :=
    zpow_ne_zero _ hkeys.inGroup.publicKey
  have hval : ((trent.keys.publicKey : ZMod p) ^ (k : Int))⁻¹ * (res.v : ZMod p) =
      (M : ZMod p) := by
    rw [hv, Int.cast_mul, h.quotient, ← mul_assoc]
    exact (congrArg (· * (M : ZMod p)) (inv_mul_cancel₀ hpow)).trans (one_mul _)
  rw [Trent.decryption_eq hkeys h.exponent, hval, ZMod.val_intCast, hM]
  exact congrArg Except.ok (Int.emod_eq_of_lt (hM ▸ BigInteger.magnitude_nonneg _) (hM ▸ h.below))

/-- The keys in a promise are the ones it should have. -/
theorem Resembles.pcsOf {S R T : ElGamalKey} {res : ResEncrypt} {m : String} {o : Or}
    (h : Resembles trent.hash S R T res m o) : o.PcsOf S R T res := by
  obtain ⟨s₁, c₁, s₂, c₂, hands, hs₁, hc₁, hs₂, hc₂⟩ := h.shape
  obtain ⟨hkey₁, hkey₁'⟩ := PCS.clause_keyOf res hs₁ hc₁ S T
  obtain ⟨hkey₂, hkey₂'⟩ := PCS.clause_keyOf res hs₂ hc₂ R T
  refine ⟨_, _, hands, ?_, rfl, ?_, rfl⟩
  · simp only [And.KeyedBy, PCS.clause, List.map_cons, List.map_nil] at hkey₁ hkey₁' ⊢
    rw [hkey₁, hkey₁']
  · simp only [And.KeyedBy, PCS.clause, List.map_cons, List.map_nil] at hkey₂ hkey₂' ⊢
    rw [hkey₂, hkey₂']

/-- What the claim shows of one promise. -/
structure Claimed (p : ℕ) [Fact p.Prime] (trent : Trent) (c : ContractTerms) (round : Int)
    (requester : ElGamalKey) (o : Or) (party : ElGamalKey) : Prop where
  verified : o.verifies trent.hash (c.roundData round) = .ok true
  found : ∃ k res q, Identified p party trent.getKey k res q ∧
    Resembles trent.hash party requester trent.getKey res (c.roundData round) o

theorem promises_claimed (h : PublicContract p trent c) (hmem : requester ∈ c.parties) (round : Int)
    (draws : ElGamalKey → OutsiderDraws) :
    ∃ ors, promises trent c round requester draws = .ok ors ∧
      List.Forall₂ (Claimed p trent c round requester) ors c.parties := by
  refine List.exists_mapM_forall₂ fun party hparty => ?_
  obtain ⟨o, res, q, ho, hidentified, hresembles⟩ :=
    promise_resembles trent.hash (h.keys hparty hmem) (c.roundData round) (draws party)
  exact ⟨o, ho, hresembles.verified, _, res, q, hidentified, hresembles⟩

/-- Both checks of a promise accept it: the loop over its clauses finds the party, and throws for
nobody. -/
theorem Claimed.passes (h : PublicContract p trent c) (hmem : requester ∈ c.parties) {o : Or}
    {party : ElGamalKey} (hclaimed : Claimed p trent c round requester o party) (senPubK : Int) :
    trent.Passes (c.roundData round) senPubK (some o) := by
  obtain ⟨k, res, q, hidentified, hresembles⟩ := hclaimed.found
  obtain ⟨id, hid, hcontent⟩ := hidentified.identifies h.trent
  obtain ⟨first, second, hands, hfirst, hres, hsecond, hres'⟩ := hresembles.pcsOf
  obtain ⟨r, hr, hkey⟩ := hfirst.firstKey
  obtain ⟨r', hr', hkey'⟩ := hsecond.firstKey
  obtain ⟨n, hn, -⟩ := h.identification requester hmem
  have hclause : trent.verifiesClause first = .ok true := by
    simp only [Trent.verifiesClause, hr, hkey, hcontent, hres, hid, Except.ok_bind,
      beq_self_eq_true]
    rfl
  have hclause' : trent.verifiesClause second = .ok (id == n) := by
    simp only [Trent.verifiesClause, hr', hkey', hn, hres', hid, Except.ok_bind]
    rfl
  refine ⟨o, rfl, hclaimed.verified, ?_⟩
  simp only [Trent.verifiesRes, hands, List.foldlM_cons, List.foldlM_nil, hclause, hclause',
    Except.ok_bind]
  rfl

/-! ## The request -/

theorem resolveRequest_accepted (h : PublicContract p trent c) (hmem : requester ∈ c.parties)
    (draws : ElGamalKey → OutsiderDraws) {ors : List Or}
    (hors : List.Forall₂ (Claimed p trent c round requester) ors c.parties) {text : String}
    (htext : trent.json.toOrs text = some (ors.map some)) :
    ∃ message, resolveRequest trent c round requester draws text = .ok message ∧
      message.round = round ∧ message.contract = c ∧ message.m = text ∧
      trent.accepts message requester.publicKey = .ok true ∧
      trent.Complete message requester.publicKey := by
  obtain ⟨s, hs, hverify⟩ := signature_accepted trent.hash (h.keys hmem hmem) text (draws requester)
  refine ⟨{ round, contract := c, m := text, signature := s }, ?_, rfl, rfl, rfl, ?_, ?_⟩
  · simp only [resolveRequest, hs, Except.ok_bind]
    rfl
  · refine trent.accepts_eq_true.mpr ⟨fun _ => ⟨_, htext, fun o ho => ?_⟩, ?_⟩
    · obtain ⟨o', ho', rfl⟩ := List.mem_map.mp ho
      obtain ⟨i, hi, rfl⟩ := List.getElem_of_mem ho'
      exact (hors.get hi (hors.length_eq ▸ hi)).passes h hmem _
    · exact hverify _ (Or.inr ⟨_, rfl, rfl⟩) (Or.inr rfl)
  · refine ⟨ors, requester, htext, hmem, rfl, hors.imp fun o party hclaimed => ?_⟩
    obtain ⟨k, res, q, hidentified, hresembles⟩ := hclaimed.found
    exact ⟨res, hresembles.pcsOf, hclaimed.verified, hidentified.identifies h.trent⟩

/-! ## The released signatures -/

/-- What Trent makes of a promise is a signature of the party on the round. -/
theorem Claimed.released (h : PublicContract p trent c) {o : Or} {party : ElGamalKey}
    (hclaimed : Claimed p trent c round requester o party) (nonce : Nat) (messageText : String) :
    ∃ clause response, o.firstClause = .ok clause ∧
      trent.sendResponse nonce messageText clause.resEncrypt = .ok response ∧
      SigmaSigner.verify trent.hash { trentK := some trent.getKey, receiverK := some party }
        (c.roundData round) { pcs := o, rpcs := response, trentK := trent.getKey } = .ok true := by
  obtain ⟨k, res, q, hidentified, hresembles⟩ := hclaimed.found
  obtain ⟨clause, hclause, hclauseRes⟩ := hresembles.firstClause
  obtain ⟨e, hencrypt, hres⟩ := hidentified.encrypted
  obtain ⟨M, hM, hne, -⟩ := hidentified.divides.quotient
  obtain ⟨response, hresponse⟩ := trent.sendResponse_total
    (by rw [h.trent.modulus]; exact BigInteger.prime_pos) nonce messageText res
  have hsent := hresponse
  rw [hres] at hsent
  obtain ⟨-, haccepted⟩ := Trent.sendResponse_accepted h.trent.modulus h.trent.inGroup.publicKey
    h.trent.pair hM hne hencrypt hsent
  rw [← hres] at haccepted
  refine ⟨clause, response, hclause, by rw [hclauseRes, hresponse], ?_⟩
  rw [SigmaSigner.verify_eq_true]
  refine ⟨clause, hclause, ?_, hclaimed.verified, by rw [hclauseRes]; exact haccepted, ?_⟩
  · rw [hclauseRes]
    exact hidentified.matchesReceiver h.trent.inGroup rfl (.inr rfl)
  · simp [SigmaSigner.matchesTrent]

/-- Signatures of all parties, in their order, on the data of a round. -/
def SignedByAll (trent : Trent) (c : ContractTerms) (round : Int)
    (signatures : List SigmaSignature) : Prop :=
  List.Forall₂ (fun s party => SigmaSigner.verify trent.hash
    { trentK := some trent.getKey, receiverK := some party } (c.roundData round) s =
    .ok true) signatures c.parties

theorem resolveToken_released (h : PublicContract p trent c) {ors : List Or}
    (hors : List.Forall₂ (Claimed p trent c round requester) ors c.parties) (req : Request)
    (htext : trent.json.toOrs req.m = some (ors.map some)) (s : TrentSolver) (hs : s.contract = c) :
    ∃ signatures, s.resolveToken trent req = .ok (trent.json.signaturesToJson signatures) ∧
      SignedByAll trent c round signatures := by
  have hstep : ∀ k ∈ List.range c.parties.length, ∃ sig,
      TrentSolver.releasedSignature trent req (some (ors.map some)) k = .ok sig ∧
        ∀ party, c.parties[k]? = some party → SigmaSigner.verify trent.hash
          { trentK := some trent.getKey, receiverK := some party } (c.roundData round) sig =
          .ok true := by
    intro k hk
    rw [List.mem_range] at hk
    have hk' : k < ors.length := by rwa [hors.length_eq]
    obtain ⟨clause, response, hclause, hresponse, hverify⟩ :=
      (hors.get hk' hk).released h (req.nonces k) req.messageText
    simp only [List.get_eq_getElem] at hclause hverify
    refine ⟨{ pcs := ors[k], rpcs := response, trentK := trent.getKey }, ?_, fun party hparty => ?_⟩
    · simp only [TrentSolver.releasedSignature, TrentSolver.orAt, List.getElem?_map,
        List.getElem?_eq_getElem hk', Option.map_some, hclause, hresponse, Except.ok_bind]
      rfl
    · rw [List.getElem?_eq_getElem hk, Option.some.injEq] at hparty
      exact hparty ▸ hverify
  obtain ⟨signatures, hsignatures, hall⟩ := List.exists_mapM_forall₂ hstep
  refine ⟨signatures, ?_, ?_⟩
  · simp only [TrentSolver.resolveToken, htext, hs, hsignatures, Except.ok_bind]
    rfl
  · rw [SignedByAll, List.forall₂_iff_get]
    have hlength := hall.length_eq
    rw [List.length_range] at hlength
    refine ⟨hlength, fun k hk hk' => ?_⟩
    have hsig := hall.get hk (by rwa [List.length_range])
    simp only [List.get_eq_getElem, List.getElem_range] at hsig
    exact hsig _ (List.getElem?_eq_getElem hk')

end Outsider

/-! ## Trent after the request -/

namespace Trent

variable {trent : Trent} {c : ContractTerms} {solvers : HashMap String TrentSolver}
  {signAnswer : Nat → ElGamalKey → String → SigmaSignature}

/-- The solver that is kept for a contract has resolved a claim. -/
def ClosedFor (c : ContractTerms) (solvers : HashMap String TrentSolver) : Prop :=
  ∃ s, solvers.get c.getHashableData = some s ∧ s.Closed

theorem ClosedFor.resolve (h : ClosedFor c solvers) (call : ResolveCall) :
    ClosedFor c (trent.resolve signAnswer solvers call).1 := by
  obtain ⟨s, hget, hclosed⟩ := h
  unfold Trent.resolve
  split
  · exact ⟨s, hget, hclosed⟩
  · exact ⟨s, hget, hclosed⟩
  · simp only [ClosedFor, HashMap.get_put]
    split
    · rename_i hid
      refine ⟨_, rfl, ?_⟩
      rw [Trent.solverOf, ← beq_iff_eq.mp hid, hget, Option.getD_some, TrentSolver.resolveT_eq]
      exact hclosed.after call.request
    · exact ⟨s, hget, hclosed⟩

/-- What is announced for the contract from then on is that it is resolved. -/
theorem ClosedFor.answer (h : ClosedFor c solvers) {call : ResolveCall}
    (hid : call.message.contract.getHashableData = c.getHashableData) {answer : TrentMessage}
    (hanswer : (trent.resolve signAnswer solvers call).2 = .ok (some answer)) :
    ∃ token signatures, answer = .answer "resolved" token signatures := by
  obtain ⟨s, hget, hclosed⟩ := h
  unfold Trent.resolve at hanswer
  split at hanswer
  · cases hanswer
  · cases hanswer
  · simp only [Trent.solverOf, hid, hget, Option.getD_some, TrentSolver.resolveT_eq] at hanswer
    rcases hclosed.ruling call.request with hruling | hruling
    · rw [hruling] at hanswer
      cases hanswer
    · rw [hruling, TrentSolver.verdict] at hanswer
      cases htoken : s.resolveToken trent call.request with
      | error x =>
          rw [htoken] at hanswer
          cases hanswer
      | ok token =>
          rw [htoken] at hanswer
          simp only [Except.map, broadcast, Except.ok.injEq, Option.some.injEq] at hanswer
          exact ⟨_, _, hanswer.symm⟩

/-- Without a request for a contract there is no solver for it. -/
theorem get_none_of_other (calls : List ResolveCall)
    (h : ∀ call ∈ calls, call.message.contract.getHashableData ≠ c.getHashableData) :
    ((trent.handler signAnswer).exec (trent.handler signAnswer).init calls).get c.getHashableData =
    none := by
  refine (trent.handler signAnswer).exec_preserves_of_mem
    (P := fun solvers => solvers.get c.getHashableData = none)
    (fun call hcall solvers hnone => ?_) rfl
  show (trent.resolve signAnswer solvers call).1.get c.getHashableData = none
  unfold Trent.resolve
  split
  · exact hnone
  · exact hnone
  · rw [HashMap.get_put, if_neg]
    · exact hnone
    · exact fun heq => h call hcall (beq_iff_eq.mp heq).symm

/-- A first request of round one is resolved. -/
theorem ruling_fresh {req : Request} (hround : req.round = 1) :
    ({ contract := c } : TrentSolver).ruling req = .resolve := by
  have hlater : ({ contract := c } : TrentSolver).laterClaim req
      (List.range c.parties.length) = none := by
    rw [TrentSolver.laterClaim_none]
    simp [TrentSolver.other]
  have hwins : ({ contract := c } : TrentSolver).Wins req := Or.inl ⟨rfl, by omega⟩
  simp only [TrentSolver.ruling, hround, TrentSolver.earlierClaim, TrentSolver.ownClaim, hlater,
    if_pos hwins, Int.sub_self, Int.toNat_zero, List.range_zero]

/-- Where nobody has asked Trent about a contract, an outsider's claim in the name of any party is
answered with signatures of all parties that verify; and whatever is asked afterwards, Trent tells
nobody that the contract is aborted. -/
theorem outsider_resolves {p : ℕ} [Fact p.Prime] (h : PublicContract p trent c)
    {requester : ElGamalKey}
    (hmem : requester ∈ c.parties) {draws : ElGamalKey → OutsiderDraws} {ors : List Or}
    (hors : Outsider.promises trent c 1 requester draws = .ok ors) {text : String}
    (htext : trent.json.toOrs text = some (ors.map some))
    (signAnswer : Nat → ElGamalKey → String → SigmaSignature) (calls : List ResolveCall)
    (hfresh : ∀ call ∈ calls, call.message.contract.getHashableData ≠ c.getHashableData) :
    ∃ message, Outsider.resolveRequest trent c 1 requester draws text = .ok message ∧
      ∀ call : ResolveCall, call.message = message → call.senderPubK = requester.publicKey →
        let m := trent.handler signAnswer
        (∃ signatures answers, m.output (m.exec m.init calls) call =
            .ok (some (.answer "resolved" (trent.json.signaturesToJson signatures) answers)) ∧
          Outsider.SignedByAll trent c 1 signatures) ∧
        ∀ later, ∀ t ∈ m.trace (m.next (m.exec m.init calls) call) later,
          t.2.message.contract.getHashableData = c.getHashableData →
            ∀ answer, m.output t.1 t.2 = .ok (some answer) →
              ∃ token signatures, answer = .answer "resolved" token signatures := by
  obtain ⟨ors', hors', hclaimed⟩ := Outsider.promises_claimed h hmem 1 draws
  obtain rfl : ors' = ors := Except.ok.inj (hors'.symm.trans hors)
  obtain ⟨message, hmessage, hround, hcontract, hm, haccepts, -⟩ :=
    Outsider.resolveRequest_accepted h hmem draws hclaimed htext
  refine ⟨message, hmessage, fun call hcall hsender => ?_⟩
  intro m
  have hnone : (m.exec m.init calls).get c.getHashableData = none :=
    trent.get_none_of_other calls hfresh
  have hreq : call.request.round = 1 ∧ call.request.m = text := by
    rw [← hm, ← hround, ← hcall]
    exact ⟨rfl, rfl⟩
  obtain ⟨signatures, htoken, hsigned⟩ := Outsider.resolveToken_released h hclaimed call.request
    (by rw [hreq.2]; exact htext) { contract := c } rfl
  have hstep : trent.resolve signAnswer (m.exec m.init calls) call =
      ((m.exec m.init calls).put c.getHashableData { contract := c, optimistic := false },
        .ok (broadcast signAnswer c call.coins call.request.senderId
          (.ok (some ⟨.resolved, trent.json.signaturesToJson signatures⟩)))) := by
    have hsolver : solverOf (m.exec m.init calls) c = { contract := c } := by
      rw [solverOf, hnone]
      rfl
    simp only [Trent.resolve, hcall, hsender, haccepts, hcontract, hsolver, TrentSolver.resolveT_eq,
      ruling_fresh hreq.1, TrentSolver.verdict, htoken, TrentSolver.after]
    rfl
  refine ⟨⟨signatures, _, congrArg Prod.snd hstep, hsigned⟩, fun later => ?_⟩
  have hclosed : ClosedFor c (m.next (m.exec m.init calls) call) := by
    refine ⟨{ contract := c, optimistic := false }, ?_, rfl, rfl⟩
    rw [show m.next (m.exec m.init calls) call = _ from congrArg Prod.fst hstep, HashMap.get_put,
      if_pos BEq.rfl]
  exact m.trace_forall_of_step (P := ClosedFor c)
    (Q := fun solvers call => call.message.contract.getHashableData = c.getHashableData →
      ∀ answer, m.output solvers call = .ok (some answer) →
        ∃ token signatures, answer = .answer "resolved" token signatures)
    (fun _ call hs => hs.resolve call) (fun _ _ hs hid _ hanswer =>
      hs.answer hid hanswer) hclosed later

end Trent

/-! ## An example -/

namespace Sample

/-- Trent with keys of the parties' group, and arrays as texts of ones. -/
def largeTrent (hash : String → Int) : Trent where
  hash := hash
  keys := keysOf 202
  json := {
    toOrs text :=
      if text = "ABORT" then none else (ofText text : Option (List Or)).map (List.map some)
    signaturesToJson := textOf
    claimsToJson _ := ""
    dishonestToJson _ := ""
    tokenToJson _ := ""
    toOrs_abort := rfl }

theorem toOrs_textOf (hash : String → Int) (ors : List Or) :
    (largeTrent hash).json.toOrs (textOf ors) = some (ors.map some) := by
  have hother : textOf ors ≠ "ABORT" := by
    intro heq
    have hones : ∀ ch ∈ (textOf ors).toList, ch = '1' := by simp [textOf]
    rw [heq] at hones
    exact absurd (hones 'A' (by decide)) (by decide)
  simp only [largeTrent, if_neg hother, ofText_textOf, Option.map_some]

def publicTerms : ContractTerms where
  parties := exponents.map fun x => (keysOf x).toElGamalKey
  clauses := ["offer"]

theorem publicTerms_public (hash : String → Int) :
    PublicContract prime (largeTrent hash) publicTerms where
  trent := ⟨rfl, (keysOf_inGroup 202).generator, keysOf_pair 202⟩
  party k hk := by
    obtain ⟨x, -, rfl⟩ := List.mem_map.mp hk
    exact keysOf_inGroup x
  identification k hk := by
    obtain ⟨x, hx, rfl⟩ := List.mem_map.mp hk
    exact (keysFor_of hx 202 202).identification

end Sample

/-- A claim with the promises of three parties for the second one of them. -/
theorem Trent.complete_iff_sample :
    let trent := Sample.largeTrent fun text => text.length
    ∃ message, message.round = 1 ∧ message.contract = Sample.publicTerms ∧
      trent.accepts message (Sample.keysOf 201).publicKey = .ok true ∧
      trent.Genuine message (Sample.keysOf 201).publicKey := by
  intro trent
  have hpublic := Sample.publicTerms_public fun text => text.length
  have hmem : (Sample.keysOf 201).toElGamalKey ∈ Sample.publicTerms.parties :=
    List.mem_map_of_mem (show 201 ∈ Sample.exponents by decide)
  obtain ⟨ors, -, hclaimed⟩ := Outsider.promises_claimed hpublic hmem 1 fun _ => {}
  obtain ⟨message, -, hround, hcontract, -, haccepts, hcomplete⟩ :=
    Outsider.resolveRequest_accepted hpublic hmem (fun _ => {}) hclaimed (Sample.toOrs_textOf _ ors)
  exact ⟨message, hround, hcontract, haccepts, (trent.complete_iff haccepts hround.ge).mp hcomplete⟩

/-- In the name of the second of three parties, without any request before. -/
theorem Trent.outsider_resolves_second :
    let trent := Sample.largeTrent fun text => text.length
    let signAnswer := fun _ _ token => SigmaSignature.forged trent.hash token [] trent.getKey
    ∃ message signatures answers,
      (trent.handler signAnswer).output {}
      { message, senderPubK := (Sample.keysOf 201).publicKey } =
        .ok (some (.answer "resolved" (trent.json.signaturesToJson signatures) answers)) ∧
      Outsider.SignedByAll trent Sample.publicTerms 1 signatures := by
  intro trent signAnswer
  have hpublic := Sample.publicTerms_public fun text => text.length
  have hmem : (Sample.keysOf 201).toElGamalKey ∈ Sample.publicTerms.parties :=
    List.mem_map_of_mem (show 201 ∈ Sample.exponents by decide)
  obtain ⟨ors, hors, -⟩ := Outsider.promises_claimed hpublic hmem 1 fun _ => {}
  obtain ⟨message, -, hresolved⟩ :=
    Trent.outsider_resolves hpublic hmem hors (Sample.toOrs_textOf _ ors) signAnswer [] (by simp)
  obtain ⟨⟨signatures, answers, houtput, hsigned⟩, -⟩ :=
    hresolved { message, senderPubK := (Sample.keysOf 201).publicKey } rfl rfl
  exact ⟨message, signatures, answers, houtput, hsigned⟩

end Sxp
