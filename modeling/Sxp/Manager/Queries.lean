-- SUMMARY: Queries for the rows of a table whose column is equal to a value, where the database says which texts are equal.
import Mathlib.Data.List.DropRight

/-!
# Queries

The sync managers ask the database for the rows whose column is equal to a value. Which texts are
equal is for the database to say: Derby pads the shorter one with blanks. All that is used of its
comparison is that it is an equivalence. Nothing is equal to null.
-/

namespace Sxp

/-- The `=` of the database between texts. -/
structure Comparison where
  equal : String → String → Bool
  refl : ∀ s, equal s s = true
  symm : ∀ s t, equal s t = true → equal t s = true
  trans : ∀ s t u, equal s t = true → equal t u = true → equal s u = true

namespace Comparison

variable {E : Type} (db : Comparison)

/-- The condition `t.column = :value`. -/
def holds : Option String → Option String → Bool
  | some s, some t => db.equal s t
  | _, _ => false

/-- `findAllByAttribute`. The rows of the table stand in the order in which they are found. -/
def findAllByAttribute (column : E → Option String) (rows : List E)
    (value : Option String) : List E :=
  rows.filter fun e => db.holds (column e) value

/-- `findOneById`. -/
def findOneById (id : E → Option String) (rows : List E) (value : Option String) : Option E :=
  rows.find? fun e => db.holds (id e) value

/-- The query finds only rows that hold the very text it asks for. -/
def FindsOwn (column : E → Option String) (rows : List E) (value : String) : Prop :=
  ∀ e ∈ db.findAllByAttribute column rows (some value), column e = some value

variable {db} {column : E → Option String} {rows : List E} {e : E} {value : String}

theorem holds_some {s t : String} : db.holds (some s) (some t) = db.equal s t := rfl

theorem holds_eq_true {s t : Option String} :
    db.holds s t = true ↔ ∃ v w, s = some v ∧ t = some w ∧ db.equal v w = true := by
  constructor
  · intro h
    cases s with
    | none => cases h
    | some v =>
        cases t with
        | none => cases h
        | some w => exact ⟨v, w, rfl, rfl, h⟩
  · rintro ⟨v, w, rfl, rfl, h⟩
    exact h

theorem mem_findAllByAttribute {value : Option String} :
    e ∈ db.findAllByAttribute column rows value ↔ e ∈ rows ∧ db.holds (column e) value = true := by
  rw [findAllByAttribute, List.mem_filter]

/-- A row that holds the text is found. -/
theorem mem_findAllByAttribute_of_eq (he : e ∈ rows) (hcolumn : column e = some value) :
    e ∈ db.findAllByAttribute column rows (some value) := by
  rw [mem_findAllByAttribute, hcolumn]
  exact ⟨he, db.refl value⟩

theorem FindsOwn.mem_iff (h : db.FindsOwn column rows value) :
    e ∈ db.findAllByAttribute column rows (some value) ↔ e ∈ rows ∧ column e = some value := by
  constructor
  · intro he
    exact ⟨(mem_findAllByAttribute.mp he).1, h e he⟩
  · rintro ⟨he, hcolumn⟩
    exact mem_findAllByAttribute_of_eq he hcolumn

/-- Texts that are equal to the database find the same. -/
theorem holds_congr {s t : String} (h : db.equal s t = true) (v : Option String) :
    db.holds v (some s) = db.holds v (some t) := by
  cases v with
  | none => rfl
  | some v =>
      rw [holds_some, holds_some, Bool.eq_iff_iff]
      exact ⟨fun hs => db.trans v s t hs h, fun ht => db.trans v t s ht (db.symm s t h)⟩

/-- A row is found again under its own id. -/
theorem findOneById_self {id : E → Option String} {value : Option String}
    (h : db.findOneById id rows value = some e) : db.findOneById id rows (id e) = some e := by
  have hholds : db.holds (id e) value = true :=
    List.find?_some (p := fun e => db.holds (id e) value) h
  obtain ⟨v, w, hv, hw, hequal⟩ := holds_eq_true.mp hholds
  rw [findOneById, hw] at h
  rw [findOneById, hv, ← h]
  simp only [holds_congr hequal]

end Comparison

namespace Sample

/-- The comparison of Derby, to which blanks at the end do not matter. -/
def derby : Comparison where
  equal s t := s.toList.rdropWhile (· = ' ') = t.toList.rdropWhile (· = ' ')
  refl _ := decide_eq_true rfl
  symm _ _ h := decide_eq_true (of_decide_eq_true h).symm
  trans _ _ _ h h' := decide_eq_true ((of_decide_eq_true h).trans (of_decide_eq_true h'))

end Sample

/-- Two rows of a table are found under one name. -/
example : ¬ Sample.derby.FindsOwn some ["alice ", "bob", "alice"] "alice" := fun h =>
  absurd (h "alice " (by decide)) (by decide)

end Sxp
