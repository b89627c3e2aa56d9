-- SUMMARY: The save as a stack of decorators over a dated header: what it writes, and the position that reading it returns.
import Sxp.Save.ReadLoop
import Sxp.Save.Restored

/-!
# Stacks of decorators

Every decorator writes its section behind what the save below it writes, and reads from the
position that the save below it returns. Of the stored entities it writes those that belong to
the user, by a comparison of the references of two texts; which these are comes with the entities.
-/

namespace Sxp

open Text (indexOf between after substring substringFrom)

namespace Text

variable {s b : String} {i j : Int}

theorem indexOf_add_le (h : b.toList <:+: s.toList) : indexOf s b + b.length ≤ s.length := by
  obtain ⟨p, hp⟩ := exists_firstAt h
  obtain ⟨r, rfl⟩ := eq_of_firstAt hp
  rw [indexOf_firstAt hp, String.length_append, String.length_append]
  omega

theorem substring_error (h : j < i) : substring s i j = .error .indexOutOfBounds := by
  rw [substring, Marks.slice, if_neg]
  omega

/-- A part that ends behind a text which is looked for does not depend on what follows. -/
theorem substring_upTo_append {a v : String} {k : Nat} (hk : k ≤ b.length) (hki : (k : Int) ≤ i)
    (h : indexOf (a ++ v) b = indexOf a b) :
    substring (a ++ v) i (indexOf (a ++ v) b + k) = substring a i (indexOf a b + k) := by
  rw [h]
  by_cases hfound : b.toList <:+: a.toList
  · have hle := indexOf_add_le hfound
    exact substring_append (by omega) v
  · rw [indexOf_eq_neg_one.mpr hfound, substring_error (by omega), substring_error (by omega)]

theorem between_error {c : String} (hb : 0 < b.length) (h : indexOf s c = -1) :
    between s b c = .error .indexOutOfBounds := by
  have hindex := neg_one_le_indexOf s b
  rw [between, h, substring_error (by omega)]

/-- What stands between two marks does not depend on what follows. -/
theorem between_append {a v c : String} (hb : 0 < b.length)
    (hbegin : indexOf (a ++ v) b = indexOf a b)
    (hend : indexOf (a ++ v) c = indexOf a c) : between (a ++ v) b c = between a b c := by
  have hindex := neg_one_le_indexOf a b
  have hsame := substring_upTo_append (i := indexOf a b + b.length) (k := 0) (Nat.zero_le _)
    (by omega) hend
  rw [Nat.cast_zero, add_zero, add_zero] at hsame
  rw [between, between, hbegin, hsame]

end Text

/-! ## Sections -/

/-- What the three decorators differ in. The mark that ends the section has nothing in common with
the marks of its entities, and is not the one that begins it. -/
structure SaveSection (E : Type) extends EntityReader E where
  sectionBegin : String
  sectionEnd : String
  text : E → String
  end_isMark : Marks.IsMark '<' '>' sectionEnd.toList
  end_begin : Marks.Cuts sectionEnd.toList entityBegin.toList
  end_end : Marks.Cuts sectionEnd.toList entityEnd.toList
  line : Marks.Cuts "\n".toList sectionEnd.toList
  begin_free : Text.Free sectionEnd ("\n" ++ sectionBegin)
  text_begin : ∀ e, ∃ r, text e = entityBegin ++ r

namespace SaveSection

variable {E : Type} (c : SaveSection E)

/-- The texts of the entities that are the user's, each in lines of its own. -/
def records (stored : List (E × Bool)) : String :=
  String.join ((stored.filter Prod.snd).map fun x => c.text x.1 ++ "\n")

/-- `write`, where the save below writes `below`. -/
def write (below : String) (stored : List (E × Bool)) : String :=
  below ++ "\n" ++ c.sectionBegin ++ "\n" ++ c.records stored ++ c.sectionEnd

/-- `read` as for contracts and messages, where the save below returns the position `a`. -/
def read (s : String) (a : Int) : Except JavaException (Int × List (Option E)) := do
  let str ← substringFrom s a
  let (entities, offset, str) ← c.readLoop str (indexOf str c.entityBegin)
  return (offset + indexOf str c.sectionEnd + c.sectionEnd.length, entities)

end SaveSection

namespace ContractsDecorator

variable {str a v : String}

theorem toString_begin (zone : TimeZone) (c : ContractEntity) :
    ∃ r, c.toString zone = "ContractEntity [" ++ r := by
  rw [toString_eq, recordText_eq]
  simp only [String.append_assoc]
  exact ⟨_, rfl⟩

theorem readContract_none (zone : TimeZone) (h : indexOf str "]\n" = -1) :
    ∃ e, readContract zone str = .error e := by
  have hindex := Text.neg_one_le_indexOf str "ContractEntity ["
  have hlength : ("ContractEntity [".length : Int) = 16 ∧ ("]\n".length : Int) = 2 := by decide
  refine ⟨.indexOutOfBounds, ?_⟩
  rw [readContract, h, Text.substring_error (by omega)]
  rfl

theorem readContract_append (zone : TimeZone)
    (hbegin : indexOf (a ++ v) "ContractEntity [" = indexOf a "ContractEntity [")
    (hend : indexOf (a ++ v) "]\n" = indexOf a "]\n") :
    readContract zone (a ++ v) = readContract zone a := by
  have hindex := Text.neg_one_le_indexOf a "ContractEntity ["
  have hlength : ("ContractEntity [".length : Int) = 16 ∧ ("]\n".length : Int) = 2 := by decide
  rw [readContract, readContract, hbegin, Text.substring_upTo_append (by decide) (by omega) hend]

def saveSection (zone : TimeZone) : SaveSection ContractEntity where
  entityBegin := "ContractEntity ["
  entityEnd := "]\n"
  readFirst := readContract zone
  sectionBegin := "<contracts>"
  sectionEnd := "</contracts>"
  text := ContractEntity.toString zone
  end_length := by decide
  begin_ne := by decide
  apart := List.forall_iff_forall_mem.mp (by decide)
  end_isMark := by decide
  end_begin := by decide
  end_end := by decide
  line := by decide
  begin_free := by decide
  text_begin := toString_begin zone
  readFirst_none _ := readContract_none zone
  readFirst_append _ _ := readContract_append zone

end ContractsDecorator

namespace ItemsDecorator

variable {str a v : String}

theorem toString_begin (zone : TimeZone) (i : Item) : ∃ r, i.toString zone = "Item [" ++ r := by
  rw [toString_eq, recordText_eq]
  simp only [String.append_assoc]
  exact ⟨_, rfl⟩

theorem readItem_none (zone : TimeZone) (h : indexOf str "]]" = -1) :
    ∃ e, readItem zone str = .error e := by
  refine ⟨.indexOutOfBounds, ?_⟩
  rw [readItem, Text.between_error (by decide) h]
  rfl

theorem readItem_append (zone : TimeZone) (hbegin : indexOf (a ++ v) "Item [" = indexOf a "Item [")
    (hend : indexOf (a ++ v) "]]" = indexOf a "]]") : readItem zone (a ++ v) = readItem zone a := by
  rw [readItem, readItem, Text.between_append (by decide) hbegin hend]

def saveSection (zone : TimeZone) : SaveSection Item where
  entityBegin := "Item ["
  entityEnd := "]]"
  readFirst := readItem zone
  sectionBegin := "<items>"
  sectionEnd := "</items>"
  text := Item.toString zone
  end_length := by decide
  begin_ne := by decide
  apart := List.forall_iff_forall_mem.mp (by decide)
  end_isMark := by decide
  end_begin := by decide
  end_end := by decide
  line := by decide
  begin_free := by decide
  text_begin := toString_begin zone
  readFirst_none _ := readItem_none zone
  readFirst_append _ _ := readItem_append zone

/-- `read`, which looks for the end of its section in the whole text. -/
def read (zone : TimeZone) (s : String) (offset : Int) :
    Except JavaException (Int × List (Option Item)) := do
  let str ← substringFrom s offset
  let (entities, _) ← (saveSection zone).readLoop str (indexOf str "Item [")
  return (indexOf s "</items>" + "</items>".length, entities)

end ItemsDecorator

namespace MessagesDecorator

variable {str a v : String}

theorem toString_begin (zone : TimeZone) (m : Message) :
    ∃ r, m.toString zone = "Message [" ++ r := by
  rw [toString_eq, recordText_eq]
  simp only [String.append_assoc]
  exact ⟨_, rfl⟩

theorem readMessage_none (zone : TimeZone) (h : indexOf str "]]" = -1) :
    ∃ e, readMessage zone str = .error e := by
  refine ⟨.indexOutOfBounds, ?_⟩
  rw [readMessage, Text.between_error (by decide) h]
  rfl

theorem readMessage_append (zone : TimeZone)
    (hbegin : indexOf (a ++ v) "Message [" = indexOf a "Message [")
    (hend : indexOf (a ++ v) "]]" = indexOf a "]]") :
    readMessage zone (a ++ v) = readMessage zone a := by
  rw [readMessage, readMessage, Text.between_append (by decide) hbegin hend]

def saveSection (zone : TimeZone) : SaveSection Message where
  entityBegin := "Message ["
  entityEnd := "]]"
  readFirst := readMessage zone
  sectionBegin := "<message>"
  sectionEnd := "</message>"
  text := Message.toString zone
  end_length := by decide
  begin_ne := by decide
  apart := List.forall_iff_forall_mem.mp (by decide)
  end_isMark := by decide
  end_begin := by decide
  end_end := by decide
  line := by decide
  begin_free := by decide
  text_begin := toString_begin zone
  readFirst_none _ := readMessage_none zone
  readFirst_append _ _ := readMessage_append zone

end MessagesDecorator

/-! ## The header -/

structure DatedHeader where
  nick : Option String
  id : Option String
  date : Int

namespace DatedHeader

def write (zone : TimeZone) (h : DatedHeader) : String :=
  "<Header>\n" ++ "User [username=" ++ h.nick.getD "null" ++ ", id=" ++ h.id.getD "null" ++
    "]" ++ "\n" ++ "Date [date=" ++ Date.toString zone h.date ++ "]" ++ "\n" ++ "</Header>"

/-- `read`: a date that cannot be parsed is left as it was. -/
def read (zone : TimeZone) (h : DatedHeader) (s : String) :
    Except JavaException (Int × DatedHeader) := do
  let id ← between s ", id=" "]\n"
  let nick ← between s "username=" ", id="
  let s2 ← after s "]\n"
  let date ← between s2 "Date [date=" "]\n"
  return (indexOf s "</Header>" + "</Header>".length,
    { nick := some nick, id := some id, date := (SimpleDateFormat.parse zone date).getD h.date })

end DatedHeader

/-! ## Stacks -/

/-- A save: the header, or a decorator of a save with the entities that its manager stores. -/
inductive Save where
  | header (h : DatedHeader)
  | contracts (save : Save) (stored : List (ContractEntity × Bool))
  | items (save : Save) (stored : List (Item × Bool))
  | messages (save : Save) (stored : List (Message × Bool))

/-- What reading a save leaves: the header, and the entities that the managers are given. -/
inductive Loaded where
  | header (h : DatedHeader)
  | contracts (save : Loaded) (entities : List (Option ContractEntity))
  | items (save : Loaded) (entities : List (Option Item))
  | messages (save : Loaded) (entities : List (Option Message))

namespace Save

def write (zone : TimeZone) : Save → String
  | header h => h.write zone
  | contracts save stored => (ContractsDecorator.saveSection zone).write (write zone save) stored
  | items save stored => (ItemsDecorator.saveSection zone).write (write zone save) stored
  | messages save stored => (MessagesDecorator.saveSection zone).write (write zone save) stored

def read (zone : TimeZone) : Save → String → Except JavaException (Int × Loaded)
  | header h, s => do
      let (a, h) ← h.read zone s
      return (a, .header h)
  | contracts save _, s => do
      let (a, loaded) ← read zone save s
      let (a, entities) ← (ContractsDecorator.saveSection zone).read s a
      return (a, .contracts loaded entities)
  | items save _, s => do
      let (a, loaded) ← read zone save s
      let (a, entities) ← ItemsDecorator.read zone s a
      return (a, .items loaded entities)
  | messages save _, s => do
      let (a, loaded) ← read zone save s
      let (a, entities) ← (MessagesDecorator.saveSection zone).read s a
      return (a, .messages loaded entities)

end Save

end Sxp
