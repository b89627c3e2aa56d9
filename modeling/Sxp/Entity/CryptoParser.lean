-- SUMMARY: CryptoParser's signing and checking of an entity's annotated fields, and what an accepted entity has passed.
import Sxp.Entity.Entities

/-!
# CryptoParser

Signing and checking loop over the fields with a `CryptSigneAnnotation`. What a check throws
is logged, and the loop goes on with the next field: only a verification that answers `false`
sets the entity to null.
-/

namespace Sxp

namespace CryptoParser

variable {E : Type} [Entity E] (platform : Platform)

/-- The concatenation of the fields that an annotation names. -/
def signedText (e : E) (a : CryptSigneAnnotation (Entity.Field E)) : String :=
  String.join (a.signeWithFields.map fun f => FieldValue.text platform (Entity.get e f))

/-! ## Signing -/

/-- `ElGamalSigner.sign` with the private key of the parser. -/
def sign (key : Option ElGamalKeyEntity) (k : Int) (message : String) :
    Except JavaException ElGamalSignEntity := do
  let key ← notNull key
  match key.privateKey with
  | none => .error (.runtime "Private key not set !")
  | some x => ElGamalSigner.sign platform.hash x k message

/-- `signeFields` with the nonces `k`, from the fields that are left. -/
def signeLoop (key : Option ElGamalKeyEntity) (k : Entity.Field E → Int) :
    List (Entity.Field E × CryptSigneAnnotation (Entity.Field E)) → E → Except JavaException E
  | [], e => .ok e
  | (field, a) :: rest, e => do
      let s ← sign platform key (k field) (signedText platform e a)
      signeLoop key k rest (Entity.set e field (.signature s))

def signeFields (key : Option ElGamalKeyEntity) (k : Entity.Field E → Int) (e : E) :
    Except JavaException E :=
  signeLoop platform key k (Entity.fieldsToSign E) e

/-! ## Checking -/

/-- The key in the field that `checkByKey` names. -/
def checkKey : Option FieldValue → Except JavaException (Option Int)
  | some (.key k) => .ok k.publicKey
  | some (.number n) => .ok (some n)
  | _ => .error (.runtime "Check-key must be a BigInteger or ElGamalKey !")

/-- The cast to `ElGamalSignEntity` of a value that is then used. -/
def checkSign : Option FieldValue → Except JavaException ElGamalSignEntity
  | some (.signature s) => .ok s
  | some _ => .error (.runtime "ClassCastException")
  | none => .error .nullPointer

/-- The body of `checkSignature` for one field. -/
def checkField (e : E) (field : Entity.Field E) (a : CryptSigneAnnotation (Entity.Field E)) :
    Except JavaException Bool := do
  let publicKey ← checkKey (Entity.get e a.checkByKey)
  let s ← checkSign (Entity.get e field)
  ElGamalSigner.verify platform.hash publicKey (signedText platform e a) s

/-- `checkSignature` from the fields that are left. -/
def checkLoop (e : E) : List (Entity.Field E × CryptSigneAnnotation (Entity.Field E)) → Option E
  | [] => some e
  | (field, a) :: rest =>
      match checkField platform e field a with
      | .ok false => none
      -- an exception is logged, and leads on as acceptance does
      | .ok true | .error _ => checkLoop e rest

/-- `parseAnnotation(CheckAction)`: null stands for an entity that was set to null. -/
def checkSignature (e : E) : Option E := checkLoop platform e (Entity.fieldsToSign E)

variable {platform} {e : E}

theorem checkLoop_eq_some {fields : List (Entity.Field E × CryptSigneAnnotation (Entity.Field E))}
    {e' : E} : checkLoop platform e fields = some e' ↔
      e' = e ∧ ∀ s ∈ fields, checkField platform e s.1 s.2 ≠ .ok false := by
  induction fields with
  | nil => simp [checkLoop, eq_comm]
  | cons s rest ih =>
      rw [checkLoop, List.forall_mem_cons]
      cases hcheck : checkField platform e s.1 s.2 with
      | error x => simpa using ih
      | ok b =>
          cases b with
          | false => simp
          | true => simpa using ih

/-- An entity is accepted if the check of its signature does not answer `false`. -/
theorem checkSignature_isSome : (checkSignature platform e).isSome = true ↔
    checkField platform e Entity.signature Entity.signatureAnnotation ≠ .ok false := by
  rw [Option.isSome_iff_exists]
  simp [checkSignature, checkLoop_eq_some, Entity.fieldsToSign]

/-! ## What a check can say -/

variable (platform e)

/-- The signature is present and verifies, under the key that `checkByKey` names, over the
fields that `signeWithFields` names. -/
def Verifies : Prop :=
  ∃ s publicKey, Entity.get e Entity.signature = some (.signature s) ∧
    checkKey (Entity.get e Entity.signatureAnnotation.checkByKey) = .ok publicKey ∧
    ElGamalSigner.verify platform.hash publicKey
    (signedText platform e Entity.signatureAnnotation) s = .ok true

/-- Signature and key are present and well formed, so that a check gets to an answer. -/
def Checkable : Prop :=
  ∃ s publicKey, Entity.get e Entity.signature = some (.signature s) ∧
    checkKey (Entity.get e Entity.signatureAnnotation.checkByKey) = .ok publicKey ∧
    ElGamalSigner.Checkable publicKey s

/-- None of the signed fields is null. -/
def Complete : Prop :=
  ∀ f ∈ (Entity.signatureAnnotation (E := E)).signeWithFields, Entity.get e f ≠ none

variable {platform e}

theorem checkSign_eq_ok {v : Option FieldValue} {s : ElGamalSignEntity} :
    checkSign v = .ok s ↔ v = some (.signature s) := by
  rcases v with _ | v
  · simp [checkSign]
  · cases v <;> simp [checkSign]

theorem checkField_eq_ok {b : Bool} :
    checkField platform e Entity.signature Entity.signatureAnnotation = .ok b ↔
      ∃ s publicKey, Entity.get e Entity.signature = some (.signature s) ∧
        checkKey (Entity.get e Entity.signatureAnnotation.checkByKey) = .ok publicKey ∧
        ElGamalSigner.verify platform.hash publicKey
          (signedText platform e Entity.signatureAnnotation) s = .ok b := by
  simp only [checkField, Except.bind_eq_ok, checkSign_eq_ok]
  constructor
  · rintro ⟨publicKey, hkey, s, hs, hverify⟩
    exact ⟨s, publicKey, hs, hkey, hverify⟩
  · rintro ⟨s, publicKey, hs, hkey, hverify⟩
    exact ⟨publicKey, hkey, s, hs, hverify⟩

theorem checkable_iff_answers (platform : Platform) :
    Checkable e ↔ ∃ b, checkField platform e Entity.signature Entity.signatureAnnotation =
    .ok b := by
  simp only [checkField_eq_ok, Checkable]
  constructor
  · rintro ⟨s, publicKey, hs, hkey, hcheck⟩
    obtain ⟨b, hb⟩ := ElGamalSigner.checkable_iff.mpr hcheck
    exact ⟨b, s, publicKey, hs, hkey, hb⟩
  · rintro ⟨b, s, publicKey, hs, hkey, hb⟩
    exact ⟨s, publicKey, hs, hkey, ElGamalSigner.checkable_iff.mp ⟨b, hb⟩⟩

theorem Verifies.checkable (h : Verifies platform e) : Checkable e :=
  (checkable_iff_answers platform).mpr ⟨true, checkField_eq_ok.mpr h⟩

/-- What cannot be checked is accepted, and what can be checked is accepted if it verifies. -/
theorem accepted_iff : (checkSignature platform e).isSome = true ↔
    ¬ Checkable e ∨ Verifies platform e := by
  rw [checkSignature_isSome, checkable_iff_answers platform, Verifies, ← checkField_eq_ok]
  cases checkField platform e Entity.signature Entity.signatureAnnotation with
  | error x => simp
  | ok b => cases b <;> simp

theorem Verifies.checkSignature (h : Verifies platform e) : checkSignature platform e = some e := by
  obtain ⟨e', he'⟩ := Option.isSome_iff_exists.mp (accepted_iff.mpr (Or.inr h))
  rw [he', (checkLoop_eq_some.mp he').1]

/-- Signing with a nonce that is invertible modulo `p - 1` writes a signature that verifies
for the signed text, and for the texts that are the same power. -/
theorem signeFields_eq (platform : Platform) (key : OwnerKey) {k : Entity.Field E → Int}
    (hk : Int.gcd (k Entity.signature) (ElGamalAsymKeyFactory.P - 1) = 1) (e : E) :
    ∃ s, signeFields platform (some key.entity) k e =
      .ok (Entity.set e Entity.signature (.signature s)) ∧
      ∀ u, ElGamalSigner.verify platform.hash (some key.publicKey) u s =
        .ok (decide (ElGamalSigner.SamePower platform.hash u
          (signedText platform e Entity.signatureAnnotation))) := by
  obtain ⟨s, hs, hverify⟩ := ElGamalSigner.sign_verify key hk
    (signedText platform e Entity.signatureAnnotation)
  refine ⟨s, ?_, hverify⟩
  simp only [signeFields, Entity.fieldsToSign, signeLoop, sign, OwnerKey.entity, notNull, hs,
    Except.ok_bind]

/-! ## Items -/

section Items

variable {key : OwnerKey} {k : Item.Field → Int} {i signed : Item} {t : String}

/-- Only the date's text depends on the machine. -/
theorem signedText_item (platform : Platform) (i : Item) :
    signedText platform i Item.signatureAnnotation =
      i.title.getD "null" ++ i.description.getD "null" ++
        FieldValue.text platform (i.createdAt.map .date) ++
        (i.username.getD "null" ++ i.userid.getD "null" ++ numberText i.pbkey) := by
  simp [signedText, Item.signatureAnnotation, String.join_cons, String.append_assoc,
    Entity.get, Item.get]

/-- The signature is no part of the signed text. -/
theorem signedText_signature (platform : Platform) (i : Item) (s : Option ElGamalSignEntity) :
    signedText platform { i with signature := s } Item.signatureAnnotation =
      signedText platform i Item.signatureAnnotation := rfl

/-- The item carries a key, and a signature that the owner of the key made for the text `t`. -/
def MadeFor (hash : String → Int) (key : OwnerKey) (t : String) (i : Item) : Prop :=
  i.pbkey = some key.publicKey ∧ ∃ s, i.signature = some s ∧
    ∀ u, ElGamalSigner.verify hash (some key.publicKey) u s =
    .ok (decide (ElGamalSigner.SamePower hash u t))

/-- An item with a made signature is accepted exactly if its fields are the text, as a power. -/
theorem MadeFor.accepted_iff (h : MadeFor platform.hash key t i) :
    (checkSignature platform i).isSome = true ↔
      ElGamalSigner.SamePower platform.hash (signedText platform i Item.signatureAnnotation) t := by
  obtain ⟨hkey, s, hs, hverify⟩ := h
  have hcheck : checkField platform i Item.Field.signature Item.signatureAnnotation =
      .ok (decide (ElGamalSigner.SamePower platform.hash
        (signedText platform i Item.signatureAnnotation) t)) := by
    refine checkField_eq_ok.mpr ⟨s, some key.publicKey, ?_, ?_, hverify _⟩
    · exact congrArg (Option.map FieldValue.signature) hs
    · exact congrArg (fun y : Option Int => checkKey (y.map FieldValue.number)) hkey
  rw [checkSignature_isSome]
  change checkField (E := Item) platform i Item.Field.signature Item.signatureAnnotation ≠
    .ok false ↔ _
  rw [hcheck]
  simp

/-- Whoever signs an item with a key that is its own makes a signature for its text. -/
theorem signeFields_made (hkey : i.pbkey = some key.publicKey)
    (hsigned : signeFields platform (some key.entity) k i = .ok signed) :
    ∃ s, signed = { i with signature := some s } ∧
      MadeFor platform.hash key (signedText platform i Item.signatureAnnotation) signed := by
  have hnonce : Int.gcd (k .signature) (ElGamalAsymKeyFactory.P - 1) = 1 := by
    obtain ⟨s, hs, -⟩ := Except.bind_eq_ok.mp hsigned
    simp only [sign, OwnerKey.entity, notNull, Except.ok_bind] at hs
    obtain ⟨l, hl, -⟩ := Except.bind_eq_ok.mp hs
    exact BigInteger.gcd_of_modInverse (by decide +kernel) hl
  obtain ⟨s, hs, hverify⟩ := signeFields_eq platform key hnonce i
  obtain rfl : { i with signature := some s } = signed := Except.ok.inj (hs.symm.trans hsigned)
  exact ⟨s, rfl, hkey, s, rfl, hverify⟩

end Items

end CryptoParser

end Sxp
