-- SUMMARY: The messages of the save file: the text of a message, its parser, and which messages are restored.
import Sxp.Save.Records

/-!
# MessagesDecorator

The record of a message ends like that of an item, with the bracket of its signature and its own.
-/

namespace Sxp

open Text (between after)

instance ReceptionStatus.javaEnum : JavaEnum ReceptionStatus where
  canonicalName := "model.entity.Message.ReceptionStatus"
  values := [.DRAFT, .SENT, .RECEIVED]
  name
    | .DRAFT => "DRAFT"
    | .SENT => "SENT"
    | .RECEIVED => "RECEIVED"
  mem_values e := by cases e <;> decide
  name_injective e e' := by cases e <;> cases e' <;> decide
  name_plain e := by cases e <;> decide

namespace Message

def toString (zone : TimeZone) (m : Message) : String :=
  "Message [id=" ++ m.id.getD "null" ++ ", sendingDate=" ++ dateText zone m.sendingDate ++
    ", senderId=" ++
    m.senderId.getD "null" ++ ", senderName=" ++ m.senderName.getD "null" ++ ", receiverId=" ++
    m.receiverId.getD "null" ++ ", receiverName=" ++ m.receiverName.getD "null" ++
    ", messageContent=" ++
    m.messageContent.getD "null" ++ ", status=" ++ constantText m.status ++ ", pbkey=" ++
    numberText m.pbkey ++ ", signature=" ++ signText m.signature ++ "]"

/-- The fields before the signature. -/
def fields (zone : TimeZone) (m : Message) : List SavedField :=
  [dateField zone ", sendingDate=" m.sendingDate, stringField ", senderId=" m.senderId,
    stringField ", senderName=" m.senderName, stringField ", receiverId=" m.receiverId,
    stringField ", receiverName=" m.receiverName, stringField ", messageContent=" m.messageContent,
    constantField ", status=" m.status, numberField ", pbkey=" m.pbkey]

def lastField (m : Message) : SavedField := signatureField ", signature=" m.signature

end Message

namespace MessagesDecorator

def parseMessage (zone : TimeZone) (string : String) : Except JavaException (Option Message) := do
  let date ← between string ", sendingDate=" ", senderId="
  orNull (SimpleDateFormat.parse zone date) fun date => do
    let id ← between string ", senderId=" ", senderName="
    let name ← between string ", senderName=" ", receiverId="
    let idR ← between string ", receiverId=" ", receiverName="
    let nameR ← between string ", receiverName=" ", messageContent="
    let content ← between string ", messageContent=" ", status="
    let status ← between string ", status=" ", pbkey="
    let status ← JavaEnum.valueOf ReceptionStatus status
    let pbkey ← between string ", pbkey=" ", signature="
    let pbkey ← BigInteger.ofText pbkey
    let signature ← after string ", signature="
    let signature ← parseSignature signature
    return some {
      id := none, sendingDate := some date, senderId := some id, senderName := some name
      receiverId := some idR, receiverName := some nameR, messageContent := some content
      status := some status, pbkey := some pbkey, signature := some signature }

/-- What `read` makes of the first message in a text. -/
def readMessage (zone : TimeZone) (str : String) : Except JavaException (Option Message) := do
  let string ← between str "Message [" "]]"
  parseMessage zone string

theorem marked (zone : TimeZone) (m : Message) :
    SavedField.Marked (m.fields zone ++ [m.lastField]) := by
  refine SavedField.Marked.of_marks [", sendingDate=", ", senderId=", ", senderName=",
    ", receiverId=",
    ", receiverName=", ", messageContent=", ", status=", ", pbkey=", ", signature="] rfl ?_
  decide +kernel

/-- A message is parsed from a record exactly if all its fields are restored. -/
theorem parseMessage_eq_ok {zone : TimeZone} {string : String} {m : Message} :
    parseMessage zone string = .ok (some { m with id := none }) ↔
      Marks.Restores string.toList ((m.fields zone ++ [m.lastField]).map SavedField.slot) := by
  simp only [parseMessage, Message.fields, List.cons_append, List.nil_append,
    SavedField.restores_cons_cons,
    SavedField.restores_singleton, Except.bind_eq_ok, orNull_eq_ok_some, Except.pure_eq_ok,
    Option.some.injEq, Message.mk.injEq]
  constructor
  · rintro ⟨date, hdate, t, ht, id, hid, name, hname, idR, hidR, nameR, hnameR, content, hcontent,
      text, htext,
      status, hstatus, key, hkey, n, hn, text', htext', sign, hsign, -, h₁, h₂, h₃, h₄, h₅,
      h₆, h₇, h₈, h₉⟩
    exact ⟨⟨date, hdate, t, ht, h₁.symm⟩, ⟨id, hid, h₂.symm⟩, ⟨name, hname, h₃.symm⟩,
      ⟨idR, hidR, h₄.symm⟩,
      ⟨nameR, hnameR, h₅.symm⟩, ⟨content, hcontent, h₆.symm⟩,
      ⟨text, htext, status, hstatus, h₇.symm⟩,
      ⟨key, hkey, n, hn, h₈.symm⟩, ⟨text', htext', sign, hsign, h₉.symm⟩⟩
  · rintro ⟨⟨date, hdate, t, ht, h₁⟩, ⟨id, hid, h₂⟩, ⟨name, hname, h₃⟩, ⟨idR, hidR, h₄⟩,
      ⟨nameR, hnameR, h₅⟩,
      ⟨content, hcontent, h₆⟩, ⟨text, htext, status, hstatus, h₇⟩, ⟨key, hkey, n, hn, h₈⟩,
      ⟨text', htext', sign, hsign, h₉⟩⟩
    exact ⟨date, hdate, t, ht, id, hid, name, hname, idR, hidR, nameR, hnameR, content, hcontent,
      text, htext,
      status, hstatus, key, hkey, n, hn, text', htext', sign, hsign, trivial, h₁.symm, h₂.symm,
      h₃.symm, h₄.symm, h₅.symm, h₆.symm, h₇.symm, h₈.symm, h₉.symm⟩

theorem toString_eq (zone : TimeZone) (m : Message) :
    m.toString zone =
      recordText "Message [" m.id (m.fields zone) ++ ", signature=" ++
      signText m.signature ++ "]" := by
  have hstart : "Message [id=" = "Message [" ++ "id=" := by decide +kernel
  rw [recordText, ← hstart]
  rfl

/-- A message is restored exactly if its fields are readable, none holds the mark of a later one,
and none holds the end mark. -/
theorem readMessage_iff (zone : TimeZone) {m : Message} (hid : GeneratedId m.id) :
    readMessage zone (m.toString zone ++ "\n") = .ok (some { m with id := none }) ↔
      (∀ f ∈ m.fields zone ++ [m.lastField], f.readable) ∧
        SavedField.Separated (m.fields zone ++ [m.lastField]) ∧
        ∀ f ∈ m.fields zone, ¬ "]]".toList <:+: f.text.toList := by
  rw [readMessage, Except.bind_eq_ok]
  simp only [parseMessage_eq_ok]
  exact signed_record_iff (marked zone m) hid (by decide +kernel) (by rw [toString_eq])

end MessagesDecorator

end Sxp
