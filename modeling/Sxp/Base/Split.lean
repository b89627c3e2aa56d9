-- SUMMARY: Splitting a sequence at a separator, with the empty parts at the end dropped, and the part that follows the first separator.
import Mathlib.Data.List.DropRight
import Mathlib.Tactic.Common

/-!
# Split sequences

A record is a sequence of fields, each a name and a value, with one separator between fields and
another between name and value. Splitting drops the empty parts at the end, so a field whose
value is empty has no value at all, and a value that holds a separator is cut at it.
-/

namespace Split

variable {α : Type} [DecidableEq α] {sep : α} {a p r s v : List α}

/-- The parts between the separators, without the empty ones at the end. A sequence without a
separator is its only part, also when it is empty. -/
def split (sep : α) (s : List α) : List (List α) :=
  if sep ∈ s then (s.splitOn sep).rdropWhile List.isEmpty else [s]

/-! ## The parts -/

theorem getElem?_splitOn_of_split {i : Nat} (h : (split sep s)[i]? = some p) :
    (s.splitOn sep)[i]? = some p := by
  rw [split] at h
  split at h
  · obtain ⟨dropped, hdropped⟩ := List.rdropWhile_prefix List.isEmpty (s.splitOn sep)
    obtain ⟨hi, -⟩ := List.getElem?_eq_some_iff.mp h
    rw [← hdropped, List.getElem?_append_left hi]
    exact h
  · rename_i hsep
    rw [List.splitOn_eq_singleton hsep]
    exact h

/-- Only empty parts are dropped. -/
theorem getElem?_split {i : Nat} (h : (s.splitOn sep)[i]? = some p) (hp : p ≠ []) :
    (split sep s)[i]? = some p := by
  rw [split]
  split
  · have hparts : (s.splitOn sep).rdropWhile List.isEmpty ++
        (s.splitOn sep).rtakeWhile List.isEmpty = s.splitOn sep :=
      List.rdropWhile_append_rtakeWhile
    rw [← hparts, List.getElem?_append] at h
    split at h
    · exact h
    · have hempty := List.mem_rtakeWhile_imp (List.mem_of_getElem? h)
      exact absurd (List.isEmpty_iff.mp hempty) hp
  · rename_i hsep
    rwa [List.splitOn_eq_singleton hsep] at h

theorem splitOn_all_empty : (∀ p ∈ s.splitOn sep, p = []) ↔ ∀ c ∈ s, c = sep := by
  induction s with
  | nil => simp
  | cons c s ih =>
      rw [List.splitOn_cons_eq_if_modifyHead, List.forall_mem_cons, ← ih]
      split
      · rename_i hc
        rw [List.forall_mem_cons, beq_iff_eq.mp hc]
        simp
      · rename_i hc
        obtain ⟨q, rest, hsplit⟩ := List.exists_cons_of_ne_nil (List.splitOn_ne_nil sep s)
        rw [hsplit, List.modifyHead_cons]
        simp only [List.forall_mem_cons, List.cons_ne_nil, false_and, false_iff, not_and]
        intro heq
        exact absurd (beq_iff_eq.mpr heq) hc

/-! ## The part behind the first separator -/

/-- What stands behind the first separator, up to the next one. It is there unless all that
stands there is separators. -/
def value (sep : α) (s : List α) : Option (List α) := (split sep s)[1]?

/-- From the first separator on, if there is one, there are only separators. -/
def NoValue (sep : α) (s : List α) : Prop := ∀ c ∈ s.dropWhile (· ≠ sep), c = sep

instance decidableNoValue (sep : α) (s : List α) : Decidable (NoValue sep s) :=
  inferInstanceAs (Decidable (∀ c ∈ _, c = sep))

theorem noValue_of_not_mem (h : sep ∉ s) : NoValue sep s := by
  have hnil : s.dropWhile (· ≠ sep) = [] := by
    rw [List.dropWhile_eq_nil_iff]
    intro c hc
    simpa using fun heq : c = sep => h (heq ▸ hc)
  rw [NoValue, hnil]
  exact List.forall_mem_nil _

theorem noValue_append (ha : sep ∉ a) : NoValue sep (a ++ sep :: r) ↔ ∀ c ∈ r, c = sep := by
  have hdrop : (a ++ sep :: r).dropWhile (· ≠ sep) = sep :: r := by
    rw [List.dropWhile_append_of_pos]
    · simp
    · intro c hc
      simpa using fun heq : c = sep => ha (heq ▸ hc)
  rw [NoValue, hdrop, List.forall_mem_cons]
  exact and_iff_right rfl

theorem value_append (ha : sep ∉ a) (hv : sep ∉ v) (hne : v ≠ []) :
    value sep (a ++ sep :: v) = some v := by
  refine getElem?_split ?_ hne
  rw [List.splitOn_append_cons_self_of_not_mem ha, List.splitOn_eq_singleton hv]
  rfl

omit [DecidableEq α] in
theorem getElem?_one_of_all_empty {ps : List (List α)} (h : ∀ p ∈ ps, p = []) :
    ((a :: ps).rdropWhile List.isEmpty)[1]? = none := by
  induction ps using List.reverseRecOn with
  | nil =>
      rw [List.rdropWhile_singleton]
      split <;> rfl
  | append_singleton ps p ih =>
      obtain rfl : p = [] := h p (by simp)
      rw [← List.cons_append, List.rdropWhile_concat_pos _ _ _ rfl]
      exact ih fun q hq => h q (List.mem_append_left _ hq)

theorem value_eq_none : value sep s = none ↔ NoValue sep s := by
  by_cases hsep : sep ∈ s
  · obtain ⟨a, r, rfl, ha⟩ := List.eq_append_cons_of_mem hsep
    have hparts : (a ++ sep :: r).splitOn sep = a :: r.splitOn sep :=
      List.splitOn_append_cons_self_of_not_mem ha r
    rw [noValue_append ha, ← splitOn_all_empty]
    constructor
    -- a part that is not empty is kept, and all before it are
    · intro hnone p hp
      by_contra hne
      obtain ⟨i, hi⟩ := List.getElem?_of_mem hp
      have hkept : (split sep (a ++ sep :: r))[i + 1]? = some p :=
        getElem?_split (by rw [hparts, List.getElem?_cons_succ, hi]) hne
      obtain ⟨hlength, -⟩ := List.getElem?_eq_some_iff.mp hkept
      have hshort := List.getElem?_eq_none_iff.mp hnone
      omega
    · intro hall
      rw [value, split, if_pos hsep, hparts]
      exact getElem?_one_of_all_empty hall
  · rw [value, split, if_neg hsep]
    exact iff_of_true rfl (noValue_of_not_mem hsep)

/-! ## Records -/

/-- The value of the `i`-th field. -/
def field (sep eq : α) (s : List α) (i : Nat) : Option (List α) := (split sep s)[i]?.bind (value eq)

/-- Fields, each a name and a value. -/
def record (sep eq : α) (fields : List (List α × List α)) : List α :=
  [sep].intercalate (fields.map fun f => f.1 ++ eq :: f.2)

variable {eq : α} {fields : List (List α × List α)} {f : List α × List α} {i : Nat}

theorem field_eq_none : field sep eq s i = none ↔ ∀ p, (s.splitOn sep)[i]? = some p →
    NoValue eq p := by
  rw [field, Option.bind_eq_none_iff]
  constructor
  · intro hnone p hp
    by_cases hempty : p = []
    · rw [hempty]
      exact noValue_of_not_mem List.not_mem_nil
    · exact value_eq_none.mp (hnone p (getElem?_split hp hempty))
  · intro hall p hp
    exact value_eq_none.mpr (hall p (getElem?_splitOn_of_split hp))

/-- Without separators in names and values, the fields are read back, except for an empty value. -/
theorem field_record (hne : sep ≠ eq) (hnames : ∀ f ∈ fields, sep ∉ f.1 ∧ eq ∉ f.1)
    (hvalues : ∀ f ∈ fields, sep ∉ f.2 ∧ eq ∉ f.2) (hf : fields[i]? = some f) :
    field sep eq (record sep eq fields) i = if f.2 = [] then none else some f.2 := by
  have hmem := List.mem_of_getElem? hf
  have hparts : (record sep eq fields).splitOn sep = fields.map fun f => f.1 ++ eq :: f.2 := by
    refine List.splitOn_intercalate sep ?_ ?_
    · simp only [List.forall_mem_map, List.mem_append, List.mem_cons, not_or]
      exact fun f hf => ⟨(hnames f hf).1, hne, (hvalues f hf).1⟩
    · simpa using List.ne_nil_of_mem hmem
  have hpart : ((record sep eq fields).splitOn sep)[i]? = some (f.1 ++ eq :: f.2) := by
    rw [hparts, List.getElem?_map, hf]
    rfl
  have hsplit := getElem?_split hpart (by simp)
  rw [field, hsplit, Option.bind_some]
  split
  · rename_i hempty
    rw [value_eq_none, noValue_append (hnames f hmem).2, hempty]
    exact List.forall_mem_nil _
  · rename_i hvalue
    exact value_append (hnames f hmem).2 (hvalues f hmem).2 hvalue

end Split
