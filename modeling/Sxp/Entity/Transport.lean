-- SUMMARY: A signed item sent as JSON: the signature survives exactly if the date's text survives the day that the wire keeps.
import Sxp.Entity.Authenticity

/-!
# Transport

The sender writes `createdAt` with the pattern `dd-MM-yyyy`, in the zone of the mapper, and
all other fields faithfully. The receiver checks the item that it reads, with the date's text
in its own default time zone.
-/

namespace Sxp

namespace Item

/-- The item that is read from the JSON text of `i`. -/
def transport (i : Item) : Item := { i with createdAt := i.createdAt.map JsonFormat.day }

end Item

/-- The platform of a machine in another time zone. -/
def Platform.inZone (platform : Platform) (zone : TimeZone) : Platform := { platform with zone }

namespace CryptoParser

variable {platform : Platform} {zone : TimeZone} {key : OwnerKey} {k : Item.Field → Int}
  {i signed : Item}

/-- The date shows as the same text where it was read as where it was signed. -/
def DateSurvives (sender receiver : TimeZone) (i : Item) : Prop :=
  ∀ t, i.createdAt = some t → Date.toString receiver (JsonFormat.day t) = Date.toString sender t

theorem signedText_transport_iff :
    signedText (platform.inZone zone) i.transport Item.signatureAnnotation =
    signedText platform i Item.signatureAnnotation ↔ DateSurvives platform.zone zone i := by
  rw [signedText_item, signedText_item, DateSurvives]
  simp only [Item.transport, String.append_left_inj, String.append_right_inj]
  cases i.createdAt with
  | none => simp [FieldValue.text]
  | some t => simp [FieldValue.text, Platform.inZone]

/-- A signed item is checked with the text that it has where it arrives. -/
theorem accepted_transport (hkey : i.pbkey = some key.publicKey)
    (hsigned : signeFields platform (some key.entity) k i = .ok signed) :
    (checkSignature (platform.inZone zone) signed.transport).isSome = true ↔
      ElGamalSigner.SamePower platform.hash
        (signedText (platform.inZone zone) i.transport Item.signatureAnnotation)
        (signedText platform i Item.signatureAnnotation) := by
  obtain ⟨s, rfl, hmade⟩ := signeFields_made hkey hsigned
  have hsent : MadeFor (platform.inZone zone).hash key
      (signedText platform i Item.signatureAnnotation)
      (Item.transport { i with signature := some s }) := hmade
  exact hsent.accepted_iff

/-- An item that its owner signed is accepted where it arrives exactly if its date survives. -/
theorem transported_accepted_iff (hkey : i.pbkey = some key.publicKey)
    (hsigned : signeFields platform (some key.entity) k i = .ok signed)
    (hhash : ElGamalSigner.SamePower platform.hash
        (signedText (platform.inZone zone) i.transport Item.signatureAnnotation)
        (signedText platform i Item.signatureAnnotation) →
      signedText (platform.inZone zone) i.transport Item.signatureAnnotation =
        signedText platform i Item.signatureAnnotation) :
    (checkSignature (platform.inZone zone) signed.transport).isSome = true ↔
      DateSurvives platform.zone zone i := by
  rw [accepted_transport hkey hsigned, ← signedText_transport_iff]
  exact ⟨hhash, ElGamalSigner.SamePower.of_eq⟩

end CryptoParser

/-- An item that was signed at noon is rejected at its destination, in the same time zone. -/
theorem CryptoParser.noon_item_rejected :
    ∃ signed, signeFields Sample.countingPlatform (some Sample.ownerKey.entity) (fun _ => 1)
        (Sample.item "bicycle" "a red one" 43200000) = .ok signed ∧
      checkSignature (Sample.countingPlatform.inZone .utc) signed.transport = none := by
  obtain ⟨s, hsigned, -⟩ :=
    signeFields_eq (k := fun _ => 1) Sample.countingPlatform Sample.ownerKey (by decide)
    (Sample.item "bicycle" "a red one" 43200000)
  refine ⟨_, hsigned, Option.not_isSome_iff_eq_none.mp
    ((accepted_transport rfl hsigned).not.mpr ?_)⟩
  have hday : (Sample.item "bicycle" "a red one" 43200000).transport =
      Sample.item "bicycle" "a red one" 0 := by
    decide
  change ¬ ElGamalSigner.SamePower _ (signedText Sample.countingPlatform _ _) _
  rw [hday, ElGamalSigner.SamePower, Sample.hash_item, Sample.hash_item]
  decide +kernel

/-- An item that is signed in the first second of a day arrives as it was. -/
theorem CryptoParser.transported_accepted_iff_midnight :
    ∃ signed, signeFields Sample.platform (some Sample.ownerKey.entity) (fun _ => 1)
        (Sample.item "bicycle" "a red one" 999) = .ok signed ∧
      (checkSignature (Sample.platform.inZone .utc) signed.transport).isSome = true := by
  obtain ⟨_, hsigned, -⟩ :=
    signeFields_eq (k := fun _ => 1) Sample.platform Sample.ownerKey (by decide)
    (Sample.item "bicycle" "a red one" 999)
  have hsurvives : DateSurvives Sample.platform.zone .utc
      (Sample.item "bicycle" "a red one" 999) := by
    intro t ht
    obtain rfl := Option.some.inj ht
    decide
  exact ⟨_, hsigned, (CryptoParser.transported_accepted_iff rfl hsigned
    fun _ => signedText_transport_iff.mpr hsurvives).mpr hsurvives⟩

end Sxp
