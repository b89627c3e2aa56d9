-- SUMMARY: Promises as JSON texts: what is read back verifies the same messages, because the rebuilt maps find the same keys.
import Sxp.Java.Json
import Sxp.Sigma.Pcs
import Sxp.Sigma.Soundness

/-!
# Promises as JSON

`MapSerializer` writes a map as the array of its entries, and `MapResponseKeyDeserializer` puts
them into a new map. Only `aBis` and the contract of a promise can be null here: an object without
another of its properties is not read at all.
-/

namespace Sxp

/-! ## Writing and reading -/

variable (jackson : Jackson)

namespace ElGamalKey

def toJson (k : ElGamalKey) : Json :=
  .object [("publicKey", .string (BigInteger.hexText k.publicKey)),
    ("p", .string (BigInteger.hexText k.p)), ("g", .string (BigInteger.hexText k.g))]

/-- `BigIntegerDeserializer`. -/
def number (j : Json) (name : String) : Option Int := do
  BigInteger.ofHexText (← (← j.get name).asString)

def ofJson (j : Json) : Option ElGamalKey := do
  return { p := ← number j "p", g := ← number j "g", publicKey := ← number j "publicKey" }

theorem ofJson_toJson (k : ElGamalKey) : ofJson k.toJson = some k := by
  simp [ofJson, toJson, number, Json.asString, BigInteger.ofHexText_hexText]

end ElGamalKey

namespace Masks

def toJson (m : Masks) : Json :=
  .object [("a", .number m.a), ("aBis", (m.aBis.map .number).getD .null)]

def ofJson (j : Json) : Option Masks := do
  let a ← (← j.get "a").asNumber
  match j.get "aBis" with
  | none | some .null => return { a, aBis := none }
  | some aBis => return { a, aBis := some (← aBis.asNumber) }

theorem ofJson_toJson (m : Masks) : ofJson m.toJson = some m := by
  obtain ⟨a, _ | aBis⟩ := m <;> simp [ofJson, toJson, Json.asNumber]

end Masks

namespace ResEncrypt

def toJson (res : ResEncrypt) : Json :=
  .object [("u", .number res.u), ("v", .number res.v), ("m", .string (jackson.base64 res.M))]

def ofJson (j : Json) : Option ResEncrypt := do
  return {
    u := ← (← j.get "u").asNumber
    v := ← (← j.get "v").asNumber
    M := ← jackson.ofBase64 (← (← j.get "m").asString) }

theorem ofJson_toJson (res : ResEncrypt) : ofJson jackson (res.toJson jackson) = some res := by
  simp [ofJson, toJson, Json.asNumber, Json.asString, jackson.ofBase64_base64]

end ResEncrypt

namespace Responses

/-- The class names, which the property `type` tells the subclasses apart by. -/
def typeId : ResponsesKind → String
  | .schnorr => "model.entity.sigma.ResponsesSchnorr"
  | .ccd => "model.entity.sigma.ResponsesCCD"
  | .cce => "model.entity.sigma.ResponsesCCE"

def ofTypeId (s : String) : Option ResponsesKind := [.schnorr, .ccd, .cce].find? fun kind =>
    typeId kind = s

theorem ofTypeId_typeId (kind : ResponsesKind) : ofTypeId (typeId kind) = some kind := by
  cases kind <;> decide +kernel

def toJson (r : Responses) : Json :=
  .object [("type", .string (typeId r.kind)), ("masks", r.masks.toJson),
    ("challenge", .number r.challenge), ("response", .number r.response)]

def ofJson (j : Json) : Option Responses := do
  return {
    kind := ← ofTypeId (← (← j.get "type").asString)
    masks := ← Masks.ofJson (← j.get "masks")
    challenge := ← (← j.get "challenge").asNumber
    response := ← (← j.get "response").asNumber }

theorem ofJson_toJson (r : Responses) : ofJson r.toJson = some r := by
  simp [ofJson, toJson, Json.asNumber, Json.asString, ofTypeId_typeId, Masks.ofJson_toJson]

end Responses

/-! ## Maps -/

/-- `MapSerializer`, for a map from responses to keys. -/
def MapSerializer.serialize (map : HashMap Responses ElGamalKey) : Json :=
  .array (map.entries.map fun element =>
    .object [("key", element.1.toJson), ("value", element.2.toJson)])

namespace MapResponseKeyDeserializer

/-- An element of the array: `treeToValue` of its two properties. -/
def entry (element : Json) : Option (Responses × ElGamalKey) := do
  return (← Responses.ofJson (← element.get "key"), ← ElGamalKey.ofJson (← element.get "value"))

def deserialize (node : Json) : Option (HashMap Responses ElGamalKey) := do
  return HashMap.ofEntries (← Json.readArray entry node)

theorem deserialize_serialize (map : HashMap Responses ElGamalKey) :
    deserialize (MapSerializer.serialize map) = some (HashMap.ofEntries map.entries) := by
  have hentry : ∀ element : Responses × ElGamalKey,
      entry (.object [("key", element.1.toJson), ("value", element.2.toJson)]) =
      some (id element) := by
    intro element
    simp [entry, Responses.ofJson_toJson, ElGamalKey.ofJson_toJson]
  rw [deserialize, MapSerializer.serialize, Json.readArray_array map.entries hentry, List.map_id]
  rfl

end MapResponseKeyDeserializer

/-! ## Clauses and promises -/

namespace And

def toJson (c : And) : Json :=
  .object [("resEncrypt", c.resEncrypt.toJson jackson), ("rK", MapSerializer.serialize c.rK),
    ("responses", .array (c.responses.map Responses.toJson))]

def ofJson (j : Json) : Option And := do
  return {
    resEncrypt := ← ResEncrypt.ofJson jackson (← j.get "resEncrypt")
    rK := ← MapResponseKeyDeserializer.deserialize (← j.get "rK")
    responses := ← Json.readArray Responses.ofJson (← j.get "responses") }

/-- The clause with its map put together anew. -/
def rebuilt (c : And) : And := { c with rK := HashMap.ofEntries c.rK.entries }

theorem ofJson_toJson (c : And) : ofJson jackson (c.toJson jackson) = some c.rebuilt := by
  have hresponses := @Json.readArray_array _ Responses.ofJson Responses.toJson id c.responses
    Responses.ofJson_toJson
  rw [List.map_id] at hresponses
  simp [ofJson, toJson, rebuilt, ResEncrypt.ofJson_toJson,
    MapResponseKeyDeserializer.deserialize_serialize, hresponses]

/-- The rebuilt map finds the same keys. -/
theorem rebuilt_get {c : And} (h : c.rK.keySet.Nodup) (r : Responses) :
    c.rebuilt.rK.get r = c.rK.get r :=
  HashMap.get_ofEntries h r

theorem rebuilt_verifies {c : And} (h : c.rK.keySet.Nodup) : c.rebuilt.verifies = c.verifies := by
  have hkey : c.rebuilt.keyOf = c.keyOf := by
    funext r
    rw [keyOf, keyOf, rebuilt_get h]
  rw [verifies, verifies, hkey]
  rfl

end And

namespace Or

def toJson (o : Or) : Json :=
  .object [("contract", (o.contract.map fun bytes => .string (jackson.base64 bytes)).getD .null),
    ("ands", .array (o.ands.map (And.toJson jackson))), ("a", .number o.a)]

/-- The bytes in the property `contract`, which can be null. -/
def contractOfJson (j : Json) : Option (Option (List UInt8)) :=
  match j.get "contract" with
  | none | some .null => some none
  | some contract => do return some (← jackson.ofBase64 (← contract.asString))

def ofJson (j : Json) : Option Or := do
  return {
    contract := ← contractOfJson jackson j
    ands := ← Json.readArray (And.ofJson jackson) (← j.get "ands")
    a := ← (← j.get "a").asNumber }

/-- The promise with the maps of its clauses put together anew. -/
def rebuilt (o : Or) : Or := { o with ands := o.ands.map And.rebuilt }

theorem ofJson_toJson (o : Or) : ofJson jackson (o.toJson jackson) = some o.rebuilt := by
  have hcontract : contractOfJson jackson (o.toJson jackson) = some o.contract := by
    cases hnull : o.contract with
    | none => simp [contractOfJson, toJson, hnull]
    | some bytes => simp [contractOfJson, toJson, hnull, Json.asString, jackson.ofBase64_base64]
  rw [ofJson, hcontract]
  simp [toJson, rebuilt, Json.asNumber, Json.readArray_array o.ands (And.ofJson_toJson jackson)]

theorem rebuilt_verifies (hash : String → Int) {o : Or} (h : ∀ c ∈ o.ands, c.rK.keySet.Nodup)
    (m : String) : o.rebuilt.verifies hash m = o.verifies hash m := by
  have hands : ∀ ands : List And, (∀ c ∈ ands, c.rK.keySet.Nodup) →
      (ands.map And.rebuilt).allM And.verifies = ands.allM And.verifies := by
    intro ands
    induction ands with
    | nil => exact fun _ => rfl
    | cons c ands ih =>
        intro hands
        rw [List.forall_mem_cons] at hands
        rw [List.map_cons, List.allM, List.allM, And.rebuilt_verifies hands.1, ih hands.2]
  have hchallenges : o.rebuilt.challenges = o.challenges := by
    rw [challenges, challenges, rebuilt, List.flatMap_map]
    rfl
  rw [verifies, verifies, hchallenges, rebuilt, hands o.ands h]

end Or

/-! ## Transport -/

namespace ProtocolSign

/-- `getJson`. -/
def getJson (pcs : Or) : String := jackson.writeTree (pcs.toJson jackson)

/-- `getPrivateCS`: null for a text that cannot be read. -/
def getPrivateCS (pcs : String) : Option Or := do
  Or.ofJson jackson (← jackson.readTree pcs)

theorem getPrivateCS_getJson (o : Or) :
    getPrivateCS jackson (getJson jackson o) = some o.rebuilt := by
  rw [getPrivateCS, getJson, jackson.readTree_writeTree]
  exact Or.ofJson_toJson jackson o

end ProtocolSign

namespace PCS

variable {hash : String → Int}

/-- The keys of a map are different after each `put`. -/
theorem clause_nodup (res : ResEncrypt) (schnorr cce : Responses) (k trentK : ElGamalKey) :
    (clause res schnorr k cce trentK).rK.keySet.Nodup := by
  have hempty : ({} : HashMap Responses ElGamalKey).keySet.Nodup := List.nodup_nil
  exact HashMap.nodup_put (HashMap.nodup_put hempty schnorr k) cce trentK

theorem createPcs_nodup {pcs pcs' : PCS} {m : String} {r : ElGamalKey} {coins : PcsCoins} {o : Or}
    (h : createPcs hash pcs m r coins = .ok (o, pcs')) : ∀ c ∈ o.ands, c.rK.keySet.Nodup := by
  simp only [createPcs, Except.bind_eq_ok] at h
  obtain ⟨resSchnorr2, -, res, -, resCce2, -, ⟨resCce1, sender⟩, -, ⟨mask, sender'⟩, -,
    resSchnorr1, -, h⟩ := h
  obtain ⟨rfl, -⟩ := Prod.mk.inj (Except.ok.inj h)
  intro c hc
  rcases List.mem_pair.mp hc with rfl | rfl
  · exact clause_nodup ..
  · exact clause_nodup ..

theorem getPcs_nodup {pcs pcs' : PCS} {m : String} {r : ElGamalKey}
    {changeEncrypter : Bool} {k : Nat}
    {coins : PcsCoins} {o : Or} (h : getPcs hash pcs m r changeEncrypter k coins = .ok (o, pcs')) :
    ∀ c ∈ o.ands, c.rK.keySet.Nodup := by
  cases changeEncrypter with
  | false => exact createPcs_nodup h
  | true =>
      simp only [getPcs, if_true, Except.bind_eq_ok] at h
      obtain ⟨b, -, ⟨res, sender⟩, -, h⟩ := h
      exact createPcs_nodup h

/-- A promise that was sent and read back verifies the same messages: its clauses have the same
responses, and find the same keys for them. -/
theorem getPrivateCS_verifies {pcs pcs' : PCS} {m : String} {r : ElGamalKey}
    {changeEncrypter : Bool} {k : Nat}
    {coins : PcsCoins} {o : Or} (h : getPcs hash pcs m r changeEncrypter k coins = .ok (o, pcs')) :
    ∃ o', ProtocolSign.getPrivateCS jackson (ProtocolSign.getJson jackson o) = some o' ∧
      (∀ m', o'.verifies hash m' = o.verifies hash m') ∧
      List.Forall₂ (fun c' c => c'.responses = c.responses ∧
        ∀ res, c'.rK.get res = c.rK.get res) o'.ands o.ands := by
  have hnodup := getPcs_nodup h
  refine ⟨o.rebuilt, ProtocolSign.getPrivateCS_getJson jackson o,
    Or.rebuilt_verifies hash hnodup, ?_⟩
  rw [Or.rebuilt, List.forall₂_map_left_iff, List.forall₂_same]
  exact fun c hc => ⟨rfl, And.rebuilt_get (hnodup c hc)⟩

end PCS

namespace Sample

/-- Whoever has the keys of the small Trent, with the ciphertext of three. -/
def promiser : PCS :=
  PCS.create { keys := smallTrent.keys, encrypt := some { u := 2, v := 6, k := 1 },
               resEncrypt := some (ofThree 6) }
    smallTrent.getKey

def promise : Or where
  contract := some (Sxp.getBytes "m")
  ands := [
    PCS.clause (ofThree 6) ⟨.schnorr, ⟨2, none⟩, 0, 1⟩ ⟨11, 2, 2⟩ ⟨.cce, ⟨2, some 2⟩, 5,
      6⟩ ⟨11, 2, 2⟩,
    PCS.clause (ofThree 6) ⟨.schnorr, ⟨6, none⟩, 1, 1⟩ ⟨11, 2, 4⟩ ⟨.cce, ⟨12, some 12⟩, 1,
      1⟩ ⟨11, 2, 2⟩]
  a := 2

theorem getPcs_promiser :
    PCS.getPcs (fun _ => 5) promiser "m" ⟨11, 2, 4⟩ false 1 {} =
      .ok (promise, { promiser with
        sender := { promiser.sender with eph := ⟨[(⟨2, none⟩, 1), (⟨2, some 2⟩, 1)]⟩ } }) := by
  decide +kernel

end Sample

theorem PCS.getPrivateCS_verifies_promise :
    ∃ o', ProtocolSign.getPrivateCS Sample.jackson
      (ProtocolSign.getJson Sample.jackson Sample.promise) = some o' ∧
      (∀ m', o'.verifies (fun _ => 5) m' = Sample.promise.verifies (fun _ => 5) m') ∧
      List.Forall₂ (fun c' c => c'.responses = c.responses ∧ ∀ res, c'.rK.get res = c.rK.get res)
        o'.ands Sample.promise.ands :=
  PCS.getPrivateCS_verifies Sample.jackson Sample.getPcs_promiser

end Sxp
