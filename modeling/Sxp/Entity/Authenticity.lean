-- SUMMARY: What acceptance of an entity says about its fields: when checking fails closed, and when one signature covers two entities.
import Sxp.Base.Texts
import Sxp.Entity.CryptoParser
import Mathlib.Logic.Encodable.Basic
import Mathlib.Logic.Equiv.List

/-!
# Authenticity

An entity that comes back from the check is taken for authentic. That is right if its
signature can be checked at all; and the signature speaks for one concatenation of texts,
which other fields can have as well.
-/

namespace Sxp

namespace CryptoParser

variable {E : Type} [Entity E] (platform : Platform)

/-! ## Failing closed -/

/-- Acceptance means a present signature that verifies, over fields that are all present. -/
def FailsClosed (e : E) : Prop :=
  (checkSignature platform e).isSome = true → Verifies platform e ∧ Complete e

/-- The check fails closed exactly for the entities whose signature can be checked, unless it
verifies with a field that is null. -/
theorem failsClosed_iff (e : E) :
    FailsClosed platform e ↔ Checkable e ∧ (Complete e ∨ ¬ Verifies platform e) := by
  rw [FailsClosed, accepted_iff]
  constructor
  · intro hclosed
    refine ⟨?_, ?_⟩
    · by_contra hcheck
      exact hcheck (hclosed (Or.inl hcheck)).1.checkable
    · by_cases hverifies : Verifies platform e
      · exact Or.inl (hclosed (Or.inr hverifies)).2
      · exact Or.inr hverifies
  · rintro ⟨hcheck, hright⟩ haccepted
    have hverifies : Verifies platform e := haccepted.resolve_left (not_not_intro hcheck)
    exact ⟨hverifies, hright.resolve_right (not_not_intro hverifies)⟩

/-! ## What a signature covers -/

/-- The texts that are signed, one for each field. -/
def signedTexts (e : E) : List String :=
  (Entity.signatureAnnotation (E := E)).signeWithFields.map fun f =>
    FieldValue.text platform (Entity.get e f)

/-- The two entities carry one signature and one key. -/
def SameSigner (e f : E) : Prop :=
  Entity.get e Entity.signature = Entity.get f Entity.signature ∧
    checkKey (Entity.get e Entity.signatureAnnotation.checkByKey) =
      checkKey (Entity.get f Entity.signatureAnnotation.checkByKey)

/-- The two entities have the same signed fields. -/
def Agree (e f : E) : Prop :=
  ∀ n ∈ (Entity.signatureAnnotation (E := E)).signeWithFields, Entity.get e n = Entity.get f n

/-- A signature that both carry is accepted for both only if they have the same fields. -/
def CoversFields (e f : E) : Prop :=
  SameSigner e f → (checkSignature platform e).isSome = true →
    (checkSignature platform f).isSome = true → Agree e f

/-- The fields differ, but not the text that is signed: no field's text differs, or a piece of
text was moved over the end of a field. -/
def Moved (e f : E) : Prop :=
  signedTexts platform e = signedTexts platform f ∨
    Texts.Shifted (signedTexts platform e) (signedTexts platform f) ∨
    Texts.Shifted (signedTexts platform f) (signedTexts platform e)

variable {platform} {e f : E}

theorem signedText_eq_iff : signedText platform e Entity.signatureAnnotation =
    signedText platform f Entity.signatureAnnotation ↔ Moved platform e f :=
  Texts.join_eq_iff (by simp)

theorem SameSigner.checkable (h : SameSigner e f) : Checkable e ↔ Checkable f := by
  rw [Checkable, Checkable, h.1, h.2]

theorem SameSigner.samePower (h : SameSigner e f) (he : Verifies platform e)
    (hf : Verifies platform f) :
    ElGamalSigner.SamePower platform.hash (signedText platform e Entity.signatureAnnotation)
      (signedText platform f Entity.signatureAnnotation) := by
  obtain ⟨s, y, hs, hy, hverify⟩ := he
  obtain ⟨s', y', hs', hy', hverify'⟩ := hf
  rw [← h.1, hs, Option.some.injEq, FieldValue.signature.injEq] at hs'
  rw [← h.2, hy, Except.ok.injEq] at hy'
  subst hs' hy'
  exact ElGamalSigner.samePower_of_verify hverify hverify'

theorem SameSigner.verifies (h : SameSigner e f) (he : Verifies platform e)
    (htext : signedText platform e Entity.signatureAnnotation =
      signedText platform f Entity.signatureAnnotation) : Verifies platform f := by
  obtain ⟨s, y, hs, hy, hverify⟩ := he
  exact ⟨s, y, h.1 ▸ hs, h.2 ▸ hy, htext ▸ hverify⟩

/-- A signature covers the fields of two entities exactly if it is not carried by both, or the
fields are the same, or it can be checked, and does not verify or speaks for another text. -/
theorem coversFields_iff
    (hhash : ElGamalSigner.SamePower platform.hash
        (signedText platform e Entity.signatureAnnotation)
        (signedText platform f Entity.signatureAnnotation) →
      signedText platform e Entity.signatureAnnotation =
      signedText platform f Entity.signatureAnnotation) :
    CoversFields platform e f ↔
      ¬ (SameSigner e f ∧ ¬ Agree e f ∧
        (¬ Checkable e ∨ Verifies platform e ∧ Moved platform e f)) := by
  rw [CoversFields, accepted_iff, accepted_iff, ← signedText_eq_iff]
  constructor
  · rintro hcovers ⟨hsame, hdiffer, hright⟩
    refine hdiffer (hcovers hsame ?_ ?_)
    · exact hright.imp_right And.left
    · exact hright.imp hsame.checkable.not.mp fun h => hsame.verifies h.1 h.2
  · intro hnot hsame he hf
    by_contra hdiffer
    refine hnot ⟨hsame, hdiffer, ?_⟩
    by_cases hcheck : Checkable e
    · have hverifies := he.resolve_left (not_not_intro hcheck)
      have hverifies' := hf.resolve_left (not_not_intro (hsame.checkable.mp hcheck))
      exact Or.inr ⟨hverifies, hhash (hsame.samePower hverifies hverifies')⟩
    · exact Or.inl hcheck

end CryptoParser

namespace Sample

/-- Different texts have different numbers. -/
def hash (t : String) : Int := (Encodable.encode (t.toList.map Char.toNat) : ℕ)

theorem hash_injective : Function.Injective hash := by
  intro t u h
  have hcodes := Encodable.encode_injective (Int.natCast_inj.mp h)
  have hchar : Function.Injective Char.toNat := fun c d hcd => Char.ext (UInt32.toNat_inj.mp hcd)
  exact String.toList_inj.mp (hchar.list_map hcodes)

def platform : Platform where
  hash := hash
  utf8 bs := String.ofList (bs.map fun b => Char.ofNat b.toNat)
  zone := .utc

/-- How many ones are in a text. -/
def ones (t : String) : ℕ := t.toList.count '1'

/-- A hash with small numbers. -/
def countingPlatform : Platform := { platform with hash := fun t => ones t }

theorem ones_append (t u : String) : ones (t ++ u) = ones t + ones u := by
  rw [ones, String.toList_append, List.count_append, ones, ones]

/-- The owner's private key is 1. -/
def ownerKey : OwnerKey where
  privateKey := 1
  publicKey := ElGamalAsymKeyFactory.G
  valid := by decide +kernel

/-- An item of the owner. -/
def item (title description : String) (createdAt : Int) : Item where
  id := none
  title := some title
  description := some description
  createdAt := some createdAt
  pbkey := some ownerKey.publicKey
  username := some "owner"
  userid := some "0001"
  signature := none

theorem hash_item (title description : String) (createdAt : Int) :
    countingPlatform.hash (CryptoParser.signedText countingPlatform
      (item title description createdAt) Item.signatureAnnotation) =
    ((ones title + ones description + ones (Date.toString .utc createdAt) +
      (ones "owner" + ones "0001" +
      (BigInteger.digits ownerKey.publicKey).count '1') : ℕ) : Int) := by
  have hkey : ones (BigInteger.text ownerKey.publicKey) =
      (BigInteger.digits ownerKey.publicKey).count '1' := by
    rw [ones, BigInteger.text, String.toList_ofList]
  rw [CryptoParser.signedText_item, ← hkey]
  change ((ones (title ++ description ++ Date.toString .utc createdAt ++
    ("owner" ++ "0001" ++ BigInteger.text ownerKey.publicKey)) : ℕ) : Int) = _
  simp only [ones_append]

/-- The signature that the owner makes with the nonce 1. -/
def signature (i : Item) : Option ElGamalSignEntity :=
  (ElGamalSigner.sign hash ownerKey.privateKey 1
    (CryptoParser.signedText platform i Item.signatureAnnotation)).toOption

def signed (i : Item) : Item := { i with signature := signature i }

theorem signed_verifies (title description : String) (createdAt : Int) :
    CryptoParser.Verifies platform (signed (item title description createdAt)) := by
  obtain ⟨s, hs, hverify⟩ := @ElGamalSigner.sign_verify hash ownerKey 1 (by decide)
    (CryptoParser.signedText platform (item title description createdAt) Item.signatureAnnotation)
  refine ⟨s, some ownerKey.publicKey, ?_, rfl, ?_⟩
  · change (signature (item title description createdAt)).map FieldValue.signature = _
    rw [signature, hs]
    rfl
  · exact (hverify _).trans (congrArg Except.ok (decide_eq_true rfl))

end Sample

/-- Without a signature the check throws, which is logged, and the item is accepted. -/
theorem CryptoParser.unsigned_item_accepted :
    ¬ CryptoParser.FailsClosed Sample.platform (Sample.item "bicycle" "a red one" 0) := by
  intro hclosed
  obtain ⟨⟨s, publicKey, hs, -⟩, -⟩ := hclosed (by rfl)
  cases hs

/-- Moving the end of the title to the description changes nothing for the check. -/
theorem CryptoParser.moved_text_accepted :
    Function.Injective Sample.platform.hash ∧
      ¬ CryptoParser.CoversFields Sample.platform
        (Sample.signed (Sample.item "red bicycle" "cheap" 0))
        { Sample.item "red" " bicyclecheap" 0 with
          signature := Sample.signature (Sample.item "red bicycle" "cheap" 0) } := by
  refine ⟨Sample.hash_injective, fun hcovers => ?_⟩
  have hverifies := Sample.signed_verifies "red bicycle" "cheap" 0
  have hsame := hcovers ⟨rfl, rfl⟩ (accepted_iff.mpr (Or.inr hverifies))
    (accepted_iff.mpr (Or.inr (SameSigner.verifies ⟨rfl, rfl⟩ hverifies (by rfl))))
  have htitle := hsame Item.Field.title (List.mem_cons_self ..)
  revert htitle
  decide

/-- The milliseconds of a date are no part of its text. -/
theorem CryptoParser.coversFields_iff_milliseconds :
    ¬ CryptoParser.CoversFields Sample.platform
      (Sample.signed (Sample.item "red bicycle" "cheap" 0))
      { Sample.item "red bicycle" "cheap" 1 with
        signature := Sample.signature (Sample.item "red bicycle" "cheap" 0) } := by
  have htexts : signedTexts Sample.platform (Sample.signed (Sample.item "red bicycle" "cheap" 0)) =
      signedTexts Sample.platform { Sample.item "red bicycle" "cheap" 1 with
        signature := Sample.signature (Sample.item "red bicycle" "cheap" 0) } := by rfl
  rw [CryptoParser.coversFields_iff fun _ => congrArg String.join htexts, not_not]
  refine ⟨⟨rfl, rfl⟩, fun hagree => ?_, Or.inr ⟨Sample.signed_verifies _ _ _, Or.inl htexts⟩⟩
  have hsigned : Item.Field.createdAt ∈ Item.signatureAnnotation.signeWithFields := by decide
  have hdate := hagree _ hsigned
  revert hdate
  decide

end Sxp
