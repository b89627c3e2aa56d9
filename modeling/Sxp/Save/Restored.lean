-- SUMMARY: Which contracts, items and messages the save file restores.
import Sxp.Save.ContractsDecorator
import Sxp.Save.ItemsDecorator
import Sxp.Save.MessagesDecorator

/-!
# What the save file restores

Contracts, items and messages are written by their `toString` and the end of the line, and the
three decorators read them back. The id is written but not read, since the database makes a new one.
-/

namespace Sxp

/-- An entity that the save file holds. -/
inductive SavedEntity where
  | contract (c : ContractEntity) (hid : GeneratedId c.id)
  | item (i : Item) (hid : GeneratedId i.id)
  | message (m : Message) (hid : GeneratedId m.id)

namespace SavedEntity

/-- Parsing the text written for the entity gives an entity with the same values in all the fields
that are read. -/
def Restored (zone : TimeZone) : SavedEntity → Prop
  | contract c _ =>
      ∃ c', ContractsDecorator.readContract zone (c.toString zone ++ "\n") = .ok (some c') ∧
        c'.id = none ∧ c'.SameFields c
  | item i _ =>
      ItemsDecorator.readItem zone (i.toString zone ++ "\n") = .ok (some { i with id := none })
  | message m _ =>
      MessagesDecorator.readMessage zone (m.toString zone ++ "\n") =
        .ok (some { m with id := none })

/-- The fields that are written before the last one. -/
def fields (zone : TimeZone) : SavedEntity → List SavedField
  | contract c _ => c.fields zone
  | item i _ => i.fields zone
  | message m _ => m.fields zone

def lastField : SavedEntity → SavedField
  | contract c _ => c.lastField
  | item i _ => i.lastField
  | message m _ => m.lastField

end SavedEntity

end Sxp
