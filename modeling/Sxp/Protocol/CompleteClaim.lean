-- SUMMARY: Which of the claims Trent hands on are complete: one promise of every party for the requesting one.
import Sxp.Contract.Forgery
import Sxp.Protocol.Resolve
import Sxp.Trent.Verdicts

/-!
# Complete claims

The checks of a request look at every promise by itself, under the keys the promise
brings with it. Whose promises they are, for whom, and whether they are all there,
is compared here with the parties of the contract.
-/

namespace Sxp

/-- The keys of the clause's responses, in their order. -/
def And.KeyedBy (c : And) (ks : List ElGamalKey) : Prop := c.responses.map c.keyOf = ks.map .ok

/-- A promise as `createPcs` makes it: a clause of the sender and one of the receiver, each with
a proof for Trent, around one ciphertext. -/
def Or.PcsOf (o : Or) (senderK receiverK trentK : ElGamalKey) (res : ResEncrypt) : Prop :=
  ∃ first second, o.ands = [first, second] ∧
    first.KeyedBy [senderK, trentK] ∧ first.resEncrypt = res ∧
    second.KeyedBy [receiverK, trentK] ∧ second.resEncrypt = res

theorem And.KeyedBy.firstKey {c : And} {k : ElGamalKey} {ks : List ElGamalKey}
    (h : c.KeyedBy (k :: ks)) : ∃ r, c.firstResponse = .ok r ∧ c.keyOf r = .ok k := by
  cases hresponses : c.responses with
  | nil => simp [KeyedBy, hresponses] at h
  | cons r rest =>
      simp only [KeyedBy, hresponses, List.map_cons, List.cons.injEq] at h
      exact ⟨r, by simp [firstResponse, hresponses], h.1⟩

namespace Trent

variable (trent : Trent)

/-- The ciphertext decrypts to the identification of `k`. -/
def Identifies (res : ResEncrypt) (k : ElGamalKey) : Prop :=
  ∃ id, trent.decryption res = .ok id ∧ Sender.identification k = .ok id

/-- The array of the claim holds, at every party's index and nowhere else, a promise of that
party for the requesting party, which fulfils `Q`. -/
def ClaimOf (message : ResolveMessage) (senPubK : Int)
    (Q : (requester party : ElGamalKey) → Or → ResEncrypt → Prop) : Prop :=
  ∃ ors requester, trent.json.toOrs message.m = some (ors.map some) ∧
    requester ∈ message.contract.parties ∧ requester.publicKey = senPubK ∧
    List.Forall₂ (fun o party => ∃ res, o.PcsOf party requester trent.getKey res ∧
      Q requester party o res) ors message.contract.parties

/-- A complete claim: the promises verify for the round and Trent can tell whose they are. -/
def Complete (message : ResolveMessage) (senPubK : Int) : Prop :=
  trent.ClaimOf message senPubK fun _ party o res =>
    o.verifies trent.hash (message.contract.roundData message.round) = .ok true ∧
      trent.Identifies res party

/-- A claim in which nobody's ciphertext was replaced by one of the requester's. -/
def Genuine (message : ResolveMessage) (senPubK : Int) : Prop :=
  trent.ClaimOf message senPubK fun requester party _ res =>
    trent.Identifies res requester → trent.Identifies res party

/-- The test of a clause identifies the key of its first response. -/
theorem identifies_of_verifiesClause {c : And} {k : ElGamalKey} {ks : List ElGamalKey}
    (hkeys : c.KeyedBy (k :: ks)) (h : trent.verifiesClause c = .ok true) :
    trent.Identifies c.resEncrypt k := by
  obtain ⟨r, hfirst, hkey⟩ := hkeys.firstKey
  simp only [verifiesClause, hfirst, hkey, Except.bind_eq_ok, Except.ok_bind,
    Except.pure_eq_ok] at h
  obtain ⟨id, hid, n, hn, heq⟩ := h
  exact ⟨id, by rw [hn, beq_iff_eq.mp heq], hid⟩

/-- The ciphertext of a promise that passes is the sender's or the receiver's. -/
theorem identifies_of_verifiesRes {o : Or} {senderK receiverK trentK : ElGamalKey}
    {res : ResEncrypt} (hpcs : o.PcsOf senderK receiverK trentK res) {senPubK : Int}
    (h : trent.verifiesRes o senPubK = .ok true) :
    trent.Identifies res senderK ∨ trent.Identifies res receiverK := by
  obtain ⟨first, second, hands, hfirst, hres, hsecond, hres'⟩ := hpcs
  obtain ⟨c, hc, hclause⟩ := trent.exists_clause_of_verifiesRes h
  rw [hands] at hc
  rcases List.mem_pair.mp hc with rfl | rfl
  · rw [← hres]
    exact Or.inl (trent.identifies_of_verifiesClause hfirst hclause)
  · rw [← hres']
    exact Or.inr (trent.identifies_of_verifiesClause hsecond hclause)

/-- A claim of a promising round that Trent hands on is complete exactly if it is genuine. -/
theorem complete_iff {message : ResolveMessage} {senPubK : Int}
    (h : trent.accepts message senPubK = .ok true) (hround : 1 ≤ message.round) :
    trent.Complete message senPubK ↔ trent.Genuine message senPubK := by
  obtain ⟨orT, htoOrs, hpasses⟩ := (trent.accepts_eq_true.mp h).1 hround
  constructor
  · rintro ⟨ors, requester, hors, hmem, hkey, hall⟩
    refine ⟨ors, requester, hors, hmem, hkey, hall.imp ?_⟩
    rintro o party ⟨res, hpcs, -, hparty⟩
    exact ⟨res, hpcs, fun _ => hparty⟩
  · rintro ⟨ors, requester, hors, hmem, hkey, hall⟩
    rw [htoOrs, Option.some.injEq] at hors
    have hchecked : ∀ o ∈ ors, o.verifies trent.hash
        (message.contract.roundData message.round) = .ok true ∧
          trent.verifiesRes o senPubK = .ok true := by
      intro o ho
      obtain ⟨o', heq, hchecks⟩ := hpasses (some o) (hors ▸ List.mem_map_of_mem ho)
      rw [Option.some.injEq] at heq
      exact heq ▸ hchecks
    -- the checks look at the entries one by one, the parties come in by their indexes
    have hboth := (List.forall₂_and_left ors message.contract.parties).mpr ⟨hchecked, hall⟩
    refine ⟨ors, requester, by rw [htoOrs, hors], hmem, hkey, hboth.imp ?_⟩
    rintro o party ⟨⟨hverifies, hres⟩, res, hpcs, hgenuine⟩
    refine ⟨res, hpcs, hverifies, ?_⟩
    rcases trent.identifies_of_verifiesRes hpcs hres with hparty | hrequester
    · exact hparty
    · exact hgenuine hrequester

/-- A complete claim that is handed on reaches the solver as a well-formed request. -/
theorem wellFormed_of_complete {message : ResolveMessage} {senPubK : Int}
    (h : trent.accepts message senPubK = .ok true) (hround : 1 ≤ message.round)
    (hle : message.round ≤ message.contract.parties.length + 1)
    (hcomplete : trent.Complete message senPubK) (ref : Nat) (nonces : Nat → Nat)
    (messageText : String) : TrentSolver.WellFormed trent message.contract
      (message.request senPubK ref nonces messageText) where
  round_nonneg := le_trans zero_le_one hround
  round_le := hle
  abort hzero := absurd hround (by rw [show message.round = 0 from hzero]; decide)
  claim _ := by
    obtain ⟨orT, htoOrs, hpasses⟩ := (trent.accepts_eq_true.mp h).1 hround
    obtain ⟨ors, requester, hors, -, -, hall⟩ := hcomplete
    refine ⟨ors, hors, hall.length_eq, ?_⟩
    intro o ho
    rw [htoOrs, Option.some.injEq] at hors
    obtain ⟨o', heq, hverifies, hres⟩ := hpasses (some o) (hors ▸ List.mem_map_of_mem ho)
    rw [Option.some.injEq] at heq
    exact heq ▸ ⟨hverifies, senPubK, hres⟩

end Trent

/-! ## An empty claim of a stranger -/

namespace Sample

/-- The public key of somebody who is not a party. -/
def strangerPubK : Int := 10 ^ 124 + 2

def strangerId : List UInt8 := 49 :: (List.replicate 123 48 ++ [50])

/-- The empty array as a claim of round one. -/
def emptyClaim (hash : String → Int) : ResolveMessage where
  round := 1
  contract := terms
  m := "[]"
  signature := SigmaSignature.forged hash "[]" strangerId (trent hash).getKey

theorem emptyClaim_accepted (hash : String → Int) :
    (trent hash).accepts (emptyClaim hash) strangerPubK = .ok true := by
  have hid : Sender.getIdentificationData { trentKey with publicKey := strangerPubK } =
      .ok strangerId := by
    decide +kernel
  have hbyte : (49 : UInt8) < 128 := by decide
  rw [Trent.accepts_eq_true]
  refine ⟨fun _ => ⟨[], rfl, by simp⟩, ?_⟩
  exact SigmaSignature.forged_verify hash hid hbyte _ _

end Sample

namespace Trent

/-- Whatever the hash function is, an empty claim of a stranger is handed on. -/
theorem empty_claim_of_stranger_accepted :
    ¬ ∃ hash : String → Int,
      let trent := Sample.trent hash
      trent.accepts (Sample.emptyClaim hash) Sample.strangerPubK = .ok true →
        1 ≤ (Sample.emptyClaim hash).round →
          trent.Complete (Sample.emptyClaim hash) Sample.strangerPubK := by
  rintro ⟨hash, hclaim⟩
  obtain ⟨ors, requester, hors, -, -, hall⟩ := hclaim (Sample.emptyClaim_accepted hash) le_rfl
  have hnil : ors = [] := by
    have hempty : some [] = some (ors.map some) := hors
    simpa using hempty
  rw [hnil] at hall
  cases hall

end Trent

end Sxp
