-- SUMMARY: The items of the save file: the text of an item, its parser, and which items are restored.
import Sxp.Save.Records

/-!
# ItemsDecorator

The record of an item ends with the bracket of its signature and its own.
-/

namespace Sxp

open Text (between after)

namespace Item

def toString (zone : TimeZone) (i : Item) : String :=
  "Item [id=" ++ i.id.getD "null" ++ ", title=" ++ i.title.getD "null" ++ ", description=" ++
    i.description.getD "null" ++ ", createdAt=" ++ dateText zone i.createdAt ++ ", pbkey=" ++
    numberText i.pbkey ++ ", username=" ++ i.username.getD "null" ++ ", userid=" ++
    i.userid.getD "null" ++ ", signature=" ++ signText i.signature ++ "]"

/-- The fields before the signature. -/
def fields (zone : TimeZone) (i : Item) : List SavedField :=
  [stringField ", title=" i.title, stringField ", description=" i.description,
    dateField zone ", createdAt=" i.createdAt, numberField ", pbkey=" i.pbkey,
    stringField ", username=" i.username, stringField ", userid=" i.userid]

def lastField (i : Item) : SavedField := signatureField ", signature=" i.signature

end Item

namespace ItemsDecorator

def parseItem (zone : TimeZone) (substring : String) : Except JavaException (Option Item) := do
  let title ← between substring ", title=" ", description="
  let description ← between substring ", description=" ", createdAt="
  let date ← between substring ", createdAt=" ", pbkey="
  orNull (SimpleDateFormat.parse zone date) fun date => do
    let key ← between substring ", pbkey=" ", username="
    let pbKey ← BigInteger.ofText key
    let username ← between substring ", username=" ", userid="
    let userId ← between substring ", userid=" ", signature="
    let signature ← after substring ", signature="
    let signature ← parseSignature signature
    return some {
      id := none, title := some title, description := some description, createdAt := some date
      pbkey := some pbKey, username := some username, userid := some userId, signature :=
        some signature }

/-- What `read` makes of the first item in a text. -/
def readItem (zone : TimeZone) (str : String) : Except JavaException (Option Item) := do
  let substring ← between str "Item [" "]]"
  parseItem zone substring

theorem marked (zone : TimeZone) (i : Item) :
    SavedField.Marked (i.fields zone ++ [i.lastField]) := by
  refine SavedField.Marked.of_marks [", title=", ", description=", ", createdAt=", ", pbkey=",
    ", username=", ", userid=", ", signature="] rfl ?_
  decide +kernel

/-- An item is parsed from a record exactly if all its fields are restored. -/
theorem parseItem_eq_ok {zone : TimeZone} {substring : String} {i : Item} :
    parseItem zone substring = .ok (some { i with id := none }) ↔
      Marks.Restores substring.toList ((i.fields zone ++ [i.lastField]).map SavedField.slot) := by
  simp only [parseItem, Item.fields, List.cons_append, List.nil_append,
    SavedField.restores_cons_cons,
    SavedField.restores_singleton, Except.bind_eq_ok, orNull_eq_ok_some, Except.pure_eq_ok,
    Option.some.injEq, Item.mk.injEq]
  constructor
  · rintro ⟨title, htitle, description, hdescription, date, hdate, t, ht, key, hkey, n, hn,
      username, husername, userId, huserId, text, htext, sign, hsign, -, h₁, h₂, h₃, h₄, h₅, h₆, h₇⟩
    exact ⟨⟨title, htitle, h₁.symm⟩, ⟨description, hdescription, h₂.symm⟩,
      ⟨date, hdate, t, ht, h₃.symm⟩,
      ⟨key, hkey, n, hn, h₄.symm⟩, ⟨username, husername, h₅.symm⟩, ⟨userId, huserId, h₆.symm⟩,
      ⟨text, htext, sign, hsign, h₇.symm⟩⟩
  · rintro ⟨⟨title, htitle, h₁⟩, ⟨description, hdescription, h₂⟩, ⟨date, hdate, t, ht, h₃⟩,
      ⟨key, hkey, n, hn, h₄⟩, ⟨username, husername, h₅⟩, ⟨userId, huserId, h₆⟩,
      ⟨text, htext, sign, hsign, h₇⟩⟩
    exact ⟨title, htitle, description, hdescription, date, hdate, t, ht, key, hkey, n, hn,
      username, husername,
      userId, huserId, text, htext, sign, hsign, trivial, h₁.symm, h₂.symm, h₃.symm, h₄.symm,
      h₅.symm, h₆.symm, h₇.symm⟩

theorem toString_eq (zone : TimeZone) (i : Item) :
    i.toString zone =
      recordText "Item [" i.id (i.fields zone) ++ ", signature=" ++
      signText i.signature ++ "]" := by
  have hstart : "Item [id=" = "Item [" ++ "id=" := by decide +kernel
  rw [recordText, ← hstart]
  rfl

/-- An item is restored exactly if its fields are readable, none holds the mark of a later one,
and none holds the end mark. -/
theorem readItem_iff (zone : TimeZone) {i : Item} (hid : GeneratedId i.id) :
    readItem zone (i.toString zone ++ "\n") = .ok (some { i with id := none }) ↔
      (∀ f ∈ i.fields zone ++ [i.lastField], f.readable) ∧
        SavedField.Separated (i.fields zone ++ [i.lastField]) ∧
        ∀ f ∈ i.fields zone, ¬ "]]".toList <:+: f.text.toList := by
  rw [readItem, Except.bind_eq_ok]
  simp only [parseItem_eq_ok]
  exact signed_record_iff (marked zone i) hid (by decide +kernel) (by rw [toString_eq])

end ItemsDecorator

end Sxp
