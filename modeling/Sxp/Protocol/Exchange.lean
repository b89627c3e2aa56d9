-- SUMMARY: The optimistic exchange: all parties sign with the code's tools, and nothing is lost, forged or repeated.
import Sxp.Protocol.Delivery
import Sxp.Protocol.Outline

/-!
# The optimistic exchange

Every party runs the signing step with the same terms and the same Trent, and wants to sign.
Messages are neither lost nor forged nor repeated, but come in any order. A party's messages
go to everybody else; each is handled once or, when its receiver has removed its listener,
may be dropped.
-/

namespace Sxp

/-- Whether the handler of a message removes the listener: it brought a clear signature that is
accepted, and the contract passes the finalization test. -/
def ProtocolSign.removesListener (tools : StepTools) (e : Establisher) (message : SignMessage)
    (pubK : Int) : Bool :=
  match e.contract.parties.find? fun k => k.publicKey == pubK, message.round,
      (message.entries.get e.key.publicKey).bind tools.signatureOfJson with
  | some senderKey, some k, some signature =>
      let s : SigmaSigner := { trentK := some e.trentKey, receiverK := none }
      if senderKey.publicKey ≠ e.key.publicKey ∧ k = (e.N : Int) + 2 then
        match s.verify tools.hash e.contract.getHashableData signature with
        | .ok true =>
            match e.contract.addSignature tools.hash senderKey signature with
            | (contract, .ok ()) => (contract.isFinalized tools.hash).2.toOption.getD false
            | _ => false
        | _ => false
      else false
  | _, _, _ => false

/-- The parties, who sign with the code's `PCS` and `SigmaSigner` and keys that fit, and a
transport and an encoding that give back what they were given. -/
structure OptimisticSetting where
  tools : StepTools
  keys : List ElGamalKeyPair
  trentKey : ElGamalKey
  clauses : List String
  two_parties : 2 ≤ keys.length
  distinct : (keys.map fun S => S.publicKey).Nodup
  p : ℕ
  [prime : Fact p.Prime]
  fits : ∀ S ∈ keys, ∀ R ∈ keys, KeysFor p S R.toElGamalKey trentKey
  getPcs_eq : ∀ S ∈ keys, ∀ R ∈ keys, ∀ coins data, ∃ (pcs : PCS) (k : Nat) (pcsCoins : PcsCoins),
    pcs.sender.keys = S ∧ pcs.trentK = trentKey ∧
      tools.getPcs coins S.toElGamalKey trentKey data R.toElGamalKey =
        (pcs.getPcs tools.hash data R.toElGamalKey true k pcsCoins).map Prod.fst
  getClearSignature_eq : ∀ S ∈ keys, ∀ R ∈ keys, ∀ coins data, ∃ (pcs : PCS)
    (signCoins : SignCoins), pcs.sender.keys = S ∧ pcs.trentK = trentKey ∧
      tools.getClearSignature coins S.toElGamalKey trentKey data R.toElGamalKey =
        pcs.getClearSignature tools.hash data R.toElGamalKey signCoins
  decrypts : ∀ coins text, ∀ R ∈ keys, ∃ c,
    tools.encryptMsg coins text R.toElGamalKey = .ok c ∧
      tools.decryptMsg c R.toElGamalKey = .ok text
  promise_decoded : ∀ S ∈ keys, ∀ R ∈ keys, ∀ coins data o,
    tools.getPcs coins S.toElGamalKey trentKey data R.toElGamalKey = .ok o →
      ∃ o', tools.getPrivateCS (tools.getJson o) = some o' ∧
        (o.verifies tools.hash data = .ok true → o'.verifies tools.hash data = .ok true)
  signature_decoded : ∀ S ∈ keys, ∀ R ∈ keys, ∀ coins data s,
    tools.getClearSignature coins S.toElGamalKey trentKey data R.toElGamalKey = .ok s →
      ∃ s', tools.signatureOfJson (tools.signatureToJson s) = some s' ∧
        ∀ signer : SigmaSigner, signer.verify tools.hash data s = .ok true →
          signer.verify tools.hash data s' = .ok true

/-- The parties that have started, which messages were handled or dropped, and who listens. -/
structure Exchange where
  party : Nat → Option Establisher := fun _ => none
  taken : Nat → Nat → Nat → Bool := fun _ _ _ => false
  listening : Nat → Bool := fun _ => true

namespace OptimisticSetting

variable (S : OptimisticSetting)

/-- The number of parties. -/
def N : Nat := S.keys.length

def terms : ContractTerms where
  parties := S.keys.map (·.toElGamalKey)
  clauses := S.clauses

/-- A party when Trent has just been chosen. -/
def establisher (k : ElGamalKeyPair) : Establisher where
  key := k.toElGamalKey
  trentKey := S.trentKey
  contract := {
    toContractTerms := S.terms
    signer := { trentK := some S.trentKey, receiverK := none }
    wish := .accept }

/-! ## The machine -/

/-- The receiver, the sender's id and the message, when the `n`th message of `j` is on its way to
`i`, which has started. -/
def inFlight (st : Exchange) (i j n : Nat) : Option (Establisher × Int × SignMessage) :=
  if i ≠ j ∧ st.taken i j n = false then
    (st.party i).bind fun e => (st.party j).bind fun e' =>
      e'.sent[n]?.map fun msg => (e, e'.key.publicKey, msg)
  else none

def setParty (st : Exchange) (i : Nat) (e : Establisher) : Exchange :=
  { st with party := Function.update st.party i (some e) }

def take (st : Exchange) (i j n : Nat) : Exchange :=
  { st with taken := fun i' j' n' => (i' == i && j' == j && n' == n) || st.taken i' j' n' }

/-- `i` removes its listener if `b` says so. -/
def unlisten (st : Exchange) (i : Nat) (b : Bool) : Exchange :=
  { st with listening := fun i' => st.listening i' && !(i' == i && b) }

def step (st : Exchange) : ExchangeEvent → Exchange
  | .start i coins =>
      match S.keys[i]?, st.party i with
      | some k, none => setParty st i ((S.establisher k).setListenerOnTrent S.tools coins).1
      | _, _ => st
  | .deliver i j n =>
      match inFlight st i j n with
      | none => st
      | some (e, senderId, msg) =>
          unlisten (take (setParty st i (e.handle S.tools (.deliver msg senderId))) i j n) i
            (ProtocolSign.removesListener S.tools e msg senderId)
  | .advance i coins =>
      match st.party i with
      | none => st
      | some e => setParty st i (e.handle S.tools (.advance coins))
  | .discard i j n =>
      match inFlight st i j n with
      | none => st
      | some _ => if st.listening i = false then take st i j n else st

def exchange : Machine Exchange ExchangeEvent Unit where
  init := {}
  step st ev := (S.step st ev, ())

/-! ## The property and its condition -/

/-- `e` holds a signature of `k` on the contract's hashable data. -/
def HoldsClear (e : Establisher) (k : ElGamalKey) : Prop :=
  ∃ s, e.contract.signatures.get k = some s ∧
    SigmaSigner.verify S.tools.hash { trentK := some S.trentKey, receiverK := some k }
      S.terms.getHashableData s = .ok true

/-- `e` has sent its clear signature. -/
def SentClear (e : Establisher) : Prop := ∃ msg ∈ e.sent, msg.round = some ((S.N : Int) + 2)

/-- All have started, nobody can go on by itself, and no message is in flight. -/
def Quiescent (st : Exchange) : Prop :=
  ∀ i < S.N, (∃ e, st.party i = some e ∧ ¬ ProtocolSign.CanAdvance e) ∧
    ∀ j n, inFlight st i j n = none

/-- Everybody holds a signature of everybody on the contract, and whoever has FINALIZED has sent
its own. -/
def Fair (st : Exchange) : Prop :=
  ∀ i < S.N, ∃ e, st.party i = some e ∧ (∀ k ∈ S.terms.parties, S.HoldsClear e k) ∧
    (e.contract.status = .finalized → S.SentClear e)

/-- The first party's clear signature is not handled by a party that has not sent its own, and no
clear signature that its receiver does not hold is dropped. -/
def Patient (st : Exchange) : ExchangeEvent → Prop
  | .deliver i j n => ∀ e senderId msg, inFlight st i j n = some (e, senderId, msg) →
      msg.round = some ((S.N : Int) + 2) → j = 0 → S.SentClear e
  | .discard i j n => ∀ e senderId msg, inFlight st i j n = some (e, senderId, msg) →
      st.listening i = false → msg.round = some ((S.N : Int) + 2) →
        ∃ k, S.terms.parties[j]? = some k ∧ S.HoldsClear e k
  | _ => True

/-! ## The parties by index -/

theorem parties_getElem? {i : Nat} {k : ElGamalKeyPair} (h : S.keys[i]? = some k) :
    S.terms.parties[i]? = some k.toElGamalKey := by
  rw [terms, List.getElem?_map, h]
  rfl

theorem exists_keys {i : Nat} (h : i < S.N) : ∃ k, S.keys[i]? = some k :=
  ⟨_, List.getElem?_eq_getElem h⟩

/-- Parties with the same public key are the same. -/
theorem index_unique {i j : Nat} {k k' : ElGamalKeyPair} (hk : S.keys[i]? = some k)
    (hk' : S.keys[j]? = some k') (h : k.publicKey = k'.publicKey) : i = j := by
  obtain ⟨hi, -⟩ := List.getElem?_eq_some_iff.mp hk
  refine (List.getElem?_inj (by simpa using hi) S.distinct).mp ?_
  simp [List.getElem?_map, hk, hk', h]

/-- The parties are found by their public keys. -/
theorem findIdx_publicKey {j : Nat} {k : ElGamalKeyPair} (hk : S.keys[j]? = some k) :
    S.terms.parties.findIdx? (fun party => party.publicKey == k.publicKey) = some j := by
  have hparty := S.parties_getElem? hk
  obtain ⟨hj, hget⟩ := List.getElem?_eq_some_iff.mp hparty
  rw [List.findIdx?_eq_some_iff_getElem]
  refine ⟨hj, by simp [hget], fun i hi => ?_⟩
  have hlt : i < S.N := by
    have : j < S.N := by simpa [terms, N] using hj
    omega
  obtain ⟨k', hk'⟩ := S.exists_keys hlt
  have hget' := (List.getElem?_eq_some_iff.mp (S.parties_getElem? hk')).2
  simp only [hget', beq_iff_eq]
  intro heq
  exact absurd (S.index_unique hk' hk heq) hi.ne

/-! ## What the tools make is good -/

section Tools

variable {S} {K R : ElGamalKeyPair} (hK : K ∈ S.keys) (hR : R ∈ S.keys)

include hK hR in
theorem getPcs_good (coins : Nat) (data : String) :
    ∃ o, S.tools.getPcs coins K.toElGamalKey S.trentKey data R.toElGamalKey = .ok o ∧
      o.verifies S.tools.hash data = .ok true := by
  have := S.prime
  obtain ⟨pcs, k, pcsCoins, hkeys, htrent, heq⟩ := S.getPcs_eq K hK R hR coins data
  obtain ⟨o, pcs', hmade, hverifies⟩ :=
    (S.fits K hK R hR).getPcs_verifies S.tools.hash hkeys htrent data k pcsCoins
  exact ⟨o, by rw [heq, hmade]; rfl, hverifies⟩

include hK hR in
theorem getClearSignature_good (coins : Nat) (data : String) :
    ∃ s, S.tools.getClearSignature coins K.toElGamalKey S.trentKey data R.toElGamalKey = .ok s ∧
      SigmaSigner.verify S.tools.hash
        { trentK := some S.trentKey, receiverK := some K.toElGamalKey } data s = .ok true := by
  have := S.prime
  obtain ⟨pcs, signCoins, hkeys, htrent, heq⟩ := S.getClearSignature_eq K hK R hR coins data
  obtain ⟨s, hs, hverify⟩ := (S.fits K hK R hR).sign_verifies S.tools.hash data signCoins
  refine ⟨s, ?_, hverify _ (Or.inr rfl) (Or.inr rfl)⟩
  rw [heq, PCS.getClearSignature, hkeys, htrent]
  exact hs

end Tools

end OptimisticSetting

end Sxp
