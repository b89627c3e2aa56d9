-- SUMMARY: Which stored entities a save holds: the decorators select by the reference of an id, and miss those whose id is another object.
import Mathlib.Algebra.Order.BigOperators.Group.List
import Sxp.Save.Stack

/-!
# The user's entities

The three decorators compare ids with `==`. Two ids that were obtained in different ways, from
the store, from a session or from JSON, are different objects, also where their texts are equal.
-/

/-- A part of a list that weighs as much as the list is all of it. -/
theorem List.Sublist.eq_of_sum_le {α : Type} {w : α → Nat} {l l' : List α} (h : l.Sublist l')
    (hw : ∀ a, 0 < w a) (hsum : (l'.map w).sum ≤ (l.map w).sum) : l = l' := by
  induction h with
  | slnil => rfl
  | @cons l l' a h _ =>
      have hle := (h.map w).sum_le_sum fun _ _ => Nat.zero_le _
      have hpos := hw a
      rw [List.map_cons, List.sum_cons] at hsum
      omega
  | @cons_cons l l' a _ ih =>
      rw [List.map_cons, List.map_cons, List.sum_cons, List.sum_cons,
        Nat.add_le_add_iff_left] at hsum
      rw [ih hsum]

namespace Sxp

/-! ## References to texts -/

namespace JString

/-- `a == b` for references that can be null. -/
def sameRef (a b : Option JString) : Bool := decide (a = b)

/-- The references are to equal texts, or both null. -/
def sameText (a b : Option JString) : Bool := decide (a.map chars = b.map chars)

theorem sameText_of_sameRef {a b : Option JString} (h : sameRef a b = true) :
    sameText a b = true := by
  rw [sameRef, decide_eq_true_iff] at h
  rw [h, sameText, decide_eq_true_iff]

end JString

/-! ## Selecting -/

namespace SaveSection

variable {E S : Type} (c : SaveSection E)

/-- The text is a section with the written forms of the entities `es`, each once, in any order. -/
def Holds (below text : String) (es : List E) : Prop :=
  ∃ written : List E, written.Perm es ∧
    text = below ++ "\n" ++ c.sectionBegin ++ "\n" ++ String.join (written.map fun e =>
      c.text e ++ "\n") ++ c.sectionEnd

variable {c}

/-- Everything that is selected is meant, so all that is meant is written only if all of it is
selected. -/
theorem holds_write_iff {entity : S → E} {selected meant : S → Bool}
    (hmeant : ∀ x, selected x = true → meant x = true) (below : String) (stored : List S) :
    c.Holds below (c.write below (stored.map fun x => (entity x, selected x)))
      ((stored.filter meant).map entity) ↔ ∀ x ∈ stored, meant x = true → selected x = true := by
  have hrecords : c.records (stored.map fun x => (entity x, selected x)) =
      String.join (((stored.filter selected).map entity).map fun e => c.text e ++ "\n") := by
    rw [records, List.filter_map, List.map_map, List.map_map]
    rfl
  have hpart : (stored.filter selected).Sublist (stored.filter meant) :=
    List.monotone_filter_right stored hmeant
  rw [Holds, write, hrecords]
  constructor
  · rintro ⟨written, hperm, heq⟩
    have hcount : ∀ es : List E, (String.join (es.map fun e => c.text e ++ "\n")).length =
        (es.map fun e => (c.text e ++ "\n").length).sum := by
      intro es
      rw [String.length_join, List.map_map]
      rfl
    -- the two texts are of one length, and every record adds to it
    have hsum : (((stored.filter selected).map entity).map fun e => (c.text e ++ "\n").length).sum =
        (((stored.filter meant).map entity).map fun e => (c.text e ++ "\n").length).sum := by
      have hlength := congrArg String.length heq
      rw [String.length_append, String.length_append, String.length_append _ c.sectionEnd,
        String.length_append _ (String.join (written.map _)), hcount, hcount] at hlength
      rw [← (hperm.map fun e => (c.text e ++ "\n").length).sum_eq]
      exact Nat.add_left_cancel (Nat.add_right_cancel hlength)
    rw [List.map_map, List.map_map] at hsum
    have hpos : ∀ x, 0 < (c.text (entity x) ++ "\n").length := by
      intro x
      rw [String.length_append]
      exact Nat.add_pos_right _ (by decide)
    have hsame := hpart.eq_of_sum_le hpos hsum.ge
    intro x hx hmeantx
    have hmem := List.mem_filter.mpr ⟨hx, hmeantx⟩
    rw [← hsame] at hmem
    exact (List.mem_filter.mp hmem).2
  · intro h
    have hsame : stored.filter selected = stored.filter meant :=
      List.filter_congr fun x hx => Bool.eq_iff_iff.mpr ⟨hmeant x, h x hx⟩
    exact ⟨_, List.Perm.refl _, by rw [hsame]⟩

end SaveSection

/-! ## The decorators -/

/-- A stored entity, with the objects that the ids in it are; a message has two of them. -/
structure Stored (E : Type) where
  entity : E
  ownerRef : Nat
  otherRef : Nat := ownerRef

/-- What a field refers to. -/
def JString.ofField (text : Option String) (ref : Nat) : Option JString := text.map (⟨·, ref⟩)

namespace ContractsDecorator

variable (compare : Option JString → Option JString → Bool) (u : Option JString)

/-- The test of the loop, for a comparison of ids. -/
def isOwned (c : Stored ContractEntity) : Bool :=
  compare (JString.ofField c.entity.userid c.ownerRef) u

def write (zone : TimeZone) (below : String) (contracts : List (Stored ContractEntity)) : String :=
  (saveSection zone).write below (contracts.map fun c => (c.entity, isOwned JString.sameRef u c))

end ContractsDecorator

namespace ItemsDecorator

variable (compare : Option JString → Option JString → Bool) (u : Option JString)

def isOwned (i : Stored Item) : Bool := compare (JString.ofField i.entity.userid i.ownerRef) u

def write (zone : TimeZone) (below : String) (items : List (Stored Item)) : String :=
  (saveSection zone).write below (items.map fun i => (i.entity, isOwned JString.sameRef u i))

end ItemsDecorator

namespace MessagesDecorator

variable (compare : Option JString → Option JString → Bool) (u : Option JString)

/-- A message belongs to both of its ends. -/
def isOwned (m : Stored Message) : Bool :=
  compare (JString.ofField m.entity.receiverId m.ownerRef) u || compare
    (JString.ofField m.entity.senderId m.otherRef) u

def write (zone : TimeZone) (below : String) (messages : List (Stored Message)) : String :=
  (saveSection zone).write below (messages.map fun m => (m.entity, isOwned JString.sameRef u m))

end MessagesDecorator

namespace Save

/-- Each decorator writes exactly what is the user's if and only if every id with the text of
the user's id is that very object. -/
theorem write_holds_iff (zone : TimeZone) (u : Option JString) (below : String)
    (contracts : List (Stored ContractEntity)) (items : List (Stored Item))
    (messages : List (Stored Message)) :
    ((ContractsDecorator.saveSection zone).Holds below
        (ContractsDecorator.write u zone below contracts)
        ((contracts.filter (ContractsDecorator.isOwned JString.sameText u)).map Stored.entity) ↔
      ∀ c ∈ contracts, ContractsDecorator.isOwned JString.sameText u c = true →
        ContractsDecorator.isOwned JString.sameRef u c = true) ∧
    ((ItemsDecorator.saveSection zone).Holds below (ItemsDecorator.write u zone below items)
        ((items.filter (ItemsDecorator.isOwned JString.sameText u)).map Stored.entity) ↔
      ∀ i ∈ items, ItemsDecorator.isOwned JString.sameText u i = true →
        ItemsDecorator.isOwned JString.sameRef u i = true) ∧
    ((MessagesDecorator.saveSection zone).Holds below
        (MessagesDecorator.write u zone below messages)
        ((messages.filter (MessagesDecorator.isOwned JString.sameText u)).map Stored.entity) ↔
      ∀ m ∈ messages, MessagesDecorator.isOwned JString.sameText u m = true →
        MessagesDecorator.isOwned JString.sameRef u m = true) := by
  refine ⟨SaveSection.holds_write_iff ?_ below contracts,
    SaveSection.holds_write_iff ?_ below items, SaveSection.holds_write_iff ?_ below messages⟩
  · exact fun c h => JString.sameText_of_sameRef h
  · exact fun i h => JString.sameText_of_sameRef h
  · intro m h
    rw [MessagesDecorator.isOwned, Bool.or_eq_true] at h ⊢
    exact h.imp JString.sameText_of_sameRef JString.sameText_of_sameRef

end Save

namespace Sample

/-- An item of the user "0001", as the store returns it. -/
def ownItem : Stored Item where
  entity := {
    id := none, title := some "Book", description := some "Old", createdAt :=
      some 0, pbkey := some 5
    username := some "alice", userid := some "0001", signature := none }
  ownerRef := 1

end Sample

/-- The id of the session is another object than the one in the store. -/
theorem ItemsDecorator.write_misses :
    ¬ ∀ (zone : TimeZone) (u : Option JString) (items : List (Stored Item)),
      (saveSection zone).Holds "" (write u zone "" items)
      ((items.filter (isOwned JString.sameText u)).map Stored.entity) := by
  intro h
  have hmeant : ∀ i, isOwned JString.sameRef (some ⟨"0001", 2⟩) i = true →
      isOwned JString.sameText (some ⟨"0001", 2⟩) i = true :=
    fun i h => JString.sameText_of_sameRef h
  have hselected := (SaveSection.holds_write_iff hmeant "" [Sample.ownItem]).mp
    (h .utc (some ⟨"0001", 2⟩) [Sample.ownItem]) Sample.ownItem (by simp) (by decide)
  revert hselected
  decide

end Sxp
