-- SUMMARY: Three parties, one of which has the contract before it has sent its own signature, and leaves the others without.
import Sxp.Protocol.Patience
import Mathlib.Logic.Equiv.List
import Mathlib.Tactic.DeriveEncodable

/-!
# An exchange that ends unfairly

The second of three parties gets the first one's last promise and clear signature before the
third one's last promise. It takes the contract for finalized and stops.
-/

instance encodableUInt8 : Encodable UInt8 :=
  Encodable.ofLeftInjection UInt8.toNat (fun n => some (UInt8.ofNat n)) (by intro x; simp)

deriving instance Encodable for HashMap

namespace Sxp

deriving instance Encodable for ElGamalKey
deriving instance Encodable for Masks
deriving instance Encodable for ResEncrypt
deriving instance Encodable for ResponsesKind
deriving instance Encodable for Responses
deriving instance Encodable for Sxp.And
deriving instance Encodable for Sxp.Or
deriving instance Encodable for SigmaSignature

namespace Sample

variable (hash : String → Int)

/-- The exponents of the three parties' keys. -/
def exponents : List ℕ := [200, 201, 203]

/-- The key pair of a public key. -/
def pairOf (k : ElGamalKey) : ElGamalKeyPair :=
  ((exponents.map keysOf).find? fun S => S.publicKey == k.publicKey).getD (keysOf 200)

/-- A value as a text: as many ones as its code says. -/
def textOf {α : Type} [Encodable α] (x : α) : String :=
  String.ofList (List.replicate (Encodable.encode x) '1')

def ofText {α : Type} [Encodable α] (text : String) : Option α := Encodable.decode text.length

theorem ofText_textOf {α : Type} [Encodable α] (x : α) : ofText (textOf x) = some x := by
  simp [ofText, textOf]

/-- The tools of the code for all three, with a transport in clear. -/
def partyTools : StepTools where
  hash := hash
  getPcs k senderK trentK data receiverK :=
    ((PCS.create { keys := pairOf senderK } trentK).getPcs hash data receiverK true k
      {}).map Prod.fst
  getClearSignature k senderK trentK data receiverK :=
    (PCS.create { keys := pairOf senderK } trentK).getClearSignature hash data receiverK { k }
  sign k senderK signer text := signer.sign hash (pairOf senderK) text { k }
  encryptMsg _ text _ := .ok text
  decryptMsg text _ := .ok text
  getJson := textOf
  getPrivateCS := ofText
  signatureToJson := textOf
  signatureOfJson := ofText
  claimToJson _ := "claim"
  signaturesOfJson _ := none

theorem pairOf_keysOf {x : ℕ} (hx : x ∈ exponents) : pairOf (keysOf x).toElGamalKey = keysOf x := by
  have hall : ∀ x ∈ exponents, pairOf (keysOf x).toElGamalKey = keysOf x := by decide +kernel
  exact hall x hx

def optimisticSetting : OptimisticSetting where
  tools := partyTools hash
  keys := exponents.map keysOf
  trentKey := (keysOf 202).toElGamalKey
  clauses := ["offer"]
  two_parties := by decide
  distinct := by decide +kernel
  p := prime
  fits S hS R hR := by
    obtain ⟨x, hx, rfl⟩ := List.mem_map.mp hS
    obtain ⟨y, -, rfl⟩ := List.mem_map.mp hR
    exact keysFor_of hx y 202
  getPcs_eq S hS R _ k data := by
    obtain ⟨x, hx, rfl⟩ := List.mem_map.mp hS
    refine ⟨PCS.create { keys := keysOf x } (keysOf 202).toElGamalKey, k, {}, rfl, rfl, ?_⟩
    simp only [partyTools, pairOf_keysOf hx]
  getClearSignature_eq S hS R _ k data := by
    obtain ⟨x, hx, rfl⟩ := List.mem_map.mp hS
    refine ⟨PCS.create { keys := keysOf x } (keysOf 202).toElGamalKey, { k }, rfl, rfl, ?_⟩
    simp only [partyTools, pairOf_keysOf hx]
  decrypts _ text _ _ := ⟨text, rfl, rfl⟩
  promise_decoded _ _ _ _ _ _ o _ := ⟨o, ofText_textOf o, id⟩
  signature_decoded _ _ _ _ _ _ s _ := ⟨s, ofText_textOf s, fun _ => id⟩

/-! ## Two orders of delivery -/

def noCoins : Nat → Nat := fun _ => 0

/-- Everybody handles the messages of a round and goes on. -/
def roundOf (n : Nat) : List ExchangeEvent :=
  [.deliver 0 1 n, .deliver 0 2 n, .advance 0 noCoins,
    .deliver 1 0 n, .deliver 1 2 n, .advance 1 noCoins,
    .deliver 2 0 n, .deliver 2 1 n, .advance 2 noCoins]

/-- The start and the first three rounds. -/
def openingRun : List ExchangeEvent :=
  [.start 0 noCoins, .start 1 noCoins, .start 2 noCoins] ++ roundOf 0 ++ roundOf 1 ++ roundOf 2

/-- Round by round to the end. -/
def evenRun : List ExchangeEvent := openingRun ++ roundOf 3 ++ roundOf 4

/-- The second party gets the first one's last two messages before the third one's last promise. -/
def unevenRun : List ExchangeEvent := openingRun ++
  [.deliver 0 1 3, .deliver 0 2 3, .advance 0 noCoins,
    .deliver 1 0 3, .deliver 1 0 4, .deliver 1 2 3,
    .deliver 2 0 3, .deliver 2 1 3, .advance 2 noCoins,
    .deliver 2 0 4, .deliver 0 2 4, .deliver 1 2 4]

/-- What the outline says of the parties after a run. -/
theorem matches_exec (events : List ExchangeEvent) :
    let S := optimisticSetting hash
    S.Matches (S.exchange.exec S.exchange.init events)
      ((Outline.machine 3).exec (Outline.machine 3).init events) :=
  Machine.exec_simulates (fun _ _ ev h => h.step ev)
    ((optimisticSetting hash).matches_init) events

theorem evenRun_quiescent :
    ((Outline.machine 3).exec (Outline.machine 3).init evenRun).Quiescent 3 := by
  decide +kernel

theorem unevenRun_outcome :
    let a := (Outline.machine 3).exec (Outline.machine 3).init unevenRun
    a.Quiescent 3 ∧ ¬ a.Fair 3 := by
  decide +kernel

end Sample

namespace OptimisticSetting

theorem fair_iff_patient_evenRun :
    let hash := fun text : String => -(text.length : Int)
    let S := Sample.optimisticSetting hash
    S.Fair (S.exchange.exec S.exchange.init Sample.evenRun) ↔
      ∀ t ∈ S.exchange.trace S.exchange.init Sample.evenRun, S.Patient t.1 t.2 := by
  intro hash S
  exact S.fair_iff_patient Sample.evenRun
    ((Sample.matches_exec hash Sample.evenRun).quiescent_iff.mpr Sample.evenRun_quiescent)

/-- With nothing in flight the second party has the contract and the others do not. -/
theorem unfair_at_quiescence :
    ¬ ∃ hash : String → Int,
      let S := Sample.optimisticSetting hash
      ∀ events, S.Quiescent (S.exchange.exec S.exchange.init events) →
        S.Fair (S.exchange.exec S.exchange.init events) := by
  rintro ⟨hash, hclaim⟩
  have hmatches := Sample.matches_exec hash Sample.unevenRun
  obtain ⟨hquiescent, hunfair⟩ := Sample.unevenRun_outcome
  have hfair := hclaim Sample.unevenRun (hmatches.quiescent_iff.mpr hquiescent)
  exact hunfair (hmatches.fair_iff.mp hfair)

end OptimisticSetting

end Sxp
