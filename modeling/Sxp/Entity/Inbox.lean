-- SUMMARY: The messages a search delivers: what its listener gets are the readable ones, exactly if no message of the list makes the loop throw or cannot be checked.
import Sxp.Entity.MessageCrypto

/-!
# The inbox

`findAllByAttribute` decrypts and checks the messages that the next manager found. What a
decryption throws is not caught, unless it is an `IllegalArgumentException`, and ends the loop
before the listener is called.
-/

namespace Sxp

namespace CryptoParser

variable {E : Type} [Entity E] {platform : Platform} {e : E}

instance decidableVerifies (platform : Platform) (e : E) : Decidable (Verifies platform e) :=
  decidable_of_iff _ checkField_eq_ok

/-- What can be checked is kept if it verifies. -/
theorem checkSignature_of_checkable (h : Checkable e) :
    checkSignature platform e = if Verifies platform e then some e else none := by
  by_cases hverifies : Verifies platform e
  · rw [if_pos hverifies, hverifies.checkSignature]
  · rw [if_neg hverifies, ← Option.not_isSome_iff_eq_none, accepted_iff]
    exact fun haccepted => haccepted.elim (fun hnot => hnot h) hverifies

/-- What cannot be checked is kept. -/
theorem checkSignature_of_not_checkable (h : ¬ Checkable e) :
    checkSignature platform e = some e := by
  obtain ⟨e', he'⟩ := Option.isSome_iff_exists.mp (accepted_iff.mpr (Or.inl h))
  rw [he', (checkLoop_eq_some.mp he').1]

end CryptoParser

namespace CryptoMessageManagerDecorator

variable (platform : Platform) (suite : CipherSuite) (user : Option ElGamalKeyEntity)

/-- What the decryption makes of the content of a message. -/
def content (message : Message) : Except JavaException String :=
  CryptoParser.decryptField suite user message Message.contentAnnotation
    (FieldValue.text platform (message.messageContent.map .string))

/-- `findAllByAttribute` for what the next manager found: the list its listener is notified of. -/
def findAllByAttribute (results : List Message) : Except JavaException (List Message) :=
  results.filterMapM (found platform suite user)

/-! ## Readable messages -/

/-- What the user is to get of a message: null, if it cannot be decrypted or its signature does not
verify. -/
def readable (message : Message) : Option Message :=
  match content platform suite user message with
  | .ok data =>
      if CryptoParser.Verifies platform { message with messageContent := some data } then
        some { message with messageContent := some data }
      else none
  | .error _ => none

/-- The failures of a message stay its own: it is decrypted and can then be checked, or what its
decryption throws is logged, and its signature does not verify as it is. -/
def Confined (message : Message) : Prop :=
  match content platform suite user message with
  | .ok data => CryptoParser.Checkable { message with messageContent := some data }
  | .error x =>
      x.isIllegalArgument = true ∧ CryptoParser.Checkable message ∧
        ¬ CryptoParser.Verifies platform message

variable {platform suite user} {message : Message}

theorem found_eq : found platform suite user message =
    match content platform suite user message with
    | .ok data =>
        .ok (CryptoParser.checkSignature platform { message with messageContent := some data })
    | .error x =>
        if x.isIllegalArgument then .ok (CryptoParser.checkSignature platform message)
          else .error x := by
  have hdecrypt : CryptoParser.decryptFields platform suite user message =
      match content platform suite user message with
      | .ok data => .ok { message with messageContent := some data }
      | .error x => if x.isIllegalArgument then .ok message else .error x := rfl
  rw [found, hdecrypt]
  cases content platform suite user message with
  | ok data => rfl
  | error x => cases h : x.isIllegalArgument <;> simp [h]

theorem found_of_readable {message' : Message}
    (h : readable platform suite user message = some message') :
    found platform suite user message = .ok (some message') := by
  rw [found_eq]
  unfold readable at h
  split at h
  · split at h
    · rename_i hverifies
      rw [← h, hverifies.checkSignature]
    · cases h
  · cases h

/-- The body of the loop makes of a message what the user is to get if its failures stay its own,
and only then. -/
theorem found_eq_iff : found platform suite user message =
    .ok (readable platform suite user message) ↔ Confined platform suite user message := by
  rw [found_eq, Confined, readable]
  cases hcontent : content platform suite user message with
  | ok data =>
      dsimp only
      rw [Except.ok.injEq]
      by_cases hcheckable : CryptoParser.Checkable { message with messageContent := some data }
      · exact iff_of_true (CryptoParser.checkSignature_of_checkable hcheckable) hcheckable
      · rw [CryptoParser.checkSignature_of_not_checkable hcheckable,
          if_neg fun hverifies : CryptoParser.Verifies platform _ => hcheckable hverifies.checkable]
        exact iff_of_false (by simp) hcheckable
  | error x =>
      dsimp only
      cases hlogged : x.isIllegalArgument with
      | false => simp
      | true =>
          rw [if_pos rfl, Except.ok.injEq]
          by_cases hcheckable : CryptoParser.Checkable message
          · rw [CryptoParser.checkSignature_of_checkable hcheckable]
            simp [hcheckable]
          · rw [CryptoParser.checkSignature_of_not_checkable hcheckable]
            simp [hcheckable]

/-- The listener gets the readable messages in their order, and nothing else, if the failures of
every message stay its own, and only then. -/
theorem findAllByAttribute_iff (platform : Platform) (suite : CipherSuite)
    (user : Option ElGamalKeyEntity) (results : List Message) :
    findAllByAttribute platform suite user results =
      .ok (results.filterMap (readable platform suite user)) ↔
      ∀ message ∈ results, Confined platform suite user message := by
  rw [findAllByAttribute, List.filterMapM_eq_ok_iff fun _ _ => found_of_readable]
  exact forall₂_congr fun _ _ => found_eq_iff

end CryptoMessageManagerDecorator

/-- A message without a key, which could have been sent by anyone. -/
def Sample.keylessMessage : Message := { Sample.message with pbkey := none }

/-- One message without a key keeps the listener from being notified. -/
theorem CryptoMessageManagerDecorator.findAllByAttribute_keyless :
    ¬ findAllByAttribute Sample.platform Sample.suite (some Sample.receiverKey.entity)
      [Sample.keylessMessage] = .ok ([Sample.keylessMessage].filterMap
        (readable Sample.platform Sample.suite (some Sample.receiverKey.entity))) := by
  have hfound : found Sample.platform Sample.suite
      (some Sample.receiverKey.entity) Sample.keylessMessage =
      .error (.runtime "Check-key must be a BigInteger!") := rfl
  rw [findAllByAttribute, List.filterMapM_cons, hfound]
  exact fun h => by cases h

end Sxp
