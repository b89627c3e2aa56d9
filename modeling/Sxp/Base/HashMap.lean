-- SUMMARY: Hash maps as association lists, with lookup by a key equality that may identify distinct key objects.
import Mathlib.Data.List.Basic
import Mathlib.Data.List.Induction
import Mathlib.Data.Bool.Basic
import Mathlib.Tactic.Common

/-!
# Hash maps

A hash map is the list of its entries. Keys are compared with `==`, the probe on
the left, which need not be equality of objects: a map keeps the key object of
the first `put`, and a later `put` under an equal key replaces the value only.
The order of the list stands for the unspecified iteration order.
-/

/-- A map from keys `κ` to values `α`. -/
structure HashMap (κ α : Type*) where
  entries : List (κ × α) := []
deriving Repr, DecidableEq

namespace HashMap

variable {κ α : Type*}

/-- The map with one entry. -/
def singleton (k : κ) (v : α) : HashMap κ α := ⟨[(k, v)]⟩

def keySet (m : HashMap κ α) : List κ := m.entries.map Prod.fst

def size (m : HashMap κ α) : Nat := m.entries.length

variable [BEq κ]

def get (m : HashMap κ α) (k : κ) : Option α :=
  (m.entries.find? fun e => k == e.1).map Prod.snd

def containsKey (m : HashMap κ α) (k : κ) : Bool := (m.get k).isSome

def put (m : HashMap κ α) (k : κ) (v : α) : HashMap κ α :=
  if m.containsKey k then
    ⟨m.entries.map fun e => if k == e.1 then (e.1, v) else e⟩
  else ⟨(k, v) :: m.entries⟩

def remove (m : HashMap κ α) (k : κ) : HashMap κ α :=
  ⟨m.entries.filter fun e => !(k == e.1)⟩

/-- Equality of maps: as many entries, and every entry of one found in the other. -/
def equals [BEq α] (m m' : HashMap κ α) : Bool :=
  m.size == m'.size && m.entries.all fun e => m'.get e.1 == some e.2

@[simp] theorem get_singleton (k k' : κ) (v : α) :
    (singleton k v).get k' = if k' == k then some v else none := by
  by_cases h : k' == k <;> simp [singleton, get, h]

theorem containsKey_iff_get {m : HashMap κ α} {k : κ} :
    m.containsKey k = true ↔ ∃ v, m.get k = some v := by
  simp [containsKey, Option.isSome_iff_exists]

theorem containsKey_iff_mem {m : HashMap κ α} {k : κ} :
    m.containsKey k = true ↔ ∃ e ∈ m.entries, (k == e.1) = true := by
  simp [containsKey, get, List.find?_isSome]

theorem get_eq_none {m : HashMap κ α} {k : κ} :
    m.get k = none ↔ ∀ e ∈ m.entries, (k == e.1) = false := by
  simp [get, List.find?_eq_none]

theorem entries_remove (m : HashMap κ α) (k : κ) :
    (m.remove k).entries = m.entries.filter fun e => !(k == e.1) := rfl

/-! ## At most one entry -/

/-- A map with at most one entry. -/
def Small (m : HashMap κ α) : Prop := m.entries.length ≤ 1

omit [BEq κ] in
theorem small_singleton (k : κ) (v : α) : (singleton k v).Small := by
  simp [Small, singleton]

theorem Small.remove {m : HashMap κ α} (h : m.Small) (k : κ) : (m.remove k).Small :=
  Nat.le_trans (List.length_filter_le _ m.entries) h

/-! ## Reading back, for an equality of keys that is an equivalence -/

variable [EquivBEq κ]

theorem get_congr {k k' : κ} (h : (k == k') = true) (m : HashMap κ α) : m.get k = m.get k' := by
  have heq : (fun e : κ × α => k == e.1) = fun e => k' == e.1 := by
    funext e
    rw [Bool.eq_iff_iff]
    exact ⟨fun he => PartialEquivBEq.trans (PartialEquivBEq.symm h) he,
      fun he => PartialEquivBEq.trans h he⟩
  simp only [get, heq]

theorem get_remove (m : HashMap κ α) (k k' : κ) :
    (m.remove k).get k' = if k' == k then none else m.get k' := by
  by_cases h : k' == k
  -- an entry that is left has another key, in both directions of `==`
  · simp only [h, if_true, get_eq_none, entries_remove, List.mem_filter]
    rintro e ⟨-, he⟩
    by_contra hk
    have hke : (k' == e.1) = true := by simpa using hk
    have hkk : (k == e.1) = true := PartialEquivBEq.trans (PartialEquivBEq.symm h) hke
    simp [hkk] at he
  · have hfilter : ∀ e : κ × α, (k' == e.1) = true → (!(k == e.1)) = true := by
      intro e hke
      by_contra hk
      have hkk : (k == e.1) = true := by simpa using hk
      exact h (PartialEquivBEq.trans hke (PartialEquivBEq.symm hkk))
    simp only [h, Bool.false_eq_true, if_false, get, entries_remove, List.find?_filter]
    congr 2
    funext e
    by_cases hke : (k' == e.1) = true
    · simp [hke, hfilter e hke]
    · simp [hke]

theorem get_put (m : HashMap κ α) (k k' : κ) (v : α) :
    (m.put k v).get k' = if k' == k then some v else m.get k' := by
  have hsame : ∀ e : κ × α, (k' == k) = true → (k' == e.1) = (k == e.1) := by
    intro e h
    rw [Bool.eq_iff_iff]
    exact ⟨fun he => PartialEquivBEq.trans (PartialEquivBEq.symm h) he,
      fun he => PartialEquivBEq.trans h he⟩
  unfold put
  split
  · rename_i hmem
    by_cases h : (k' == k) = true
    · obtain ⟨e, he, hke⟩ := containsKey_iff_mem.mp hmem
      have hfind : ∃ e', (m.entries.find? fun e => k' == e.1) = some e' := by
        rw [← Option.isSome_iff_exists, List.find?_isSome]
        exact ⟨e, he, by rw [hsame e h]; exact hke⟩
      obtain ⟨e', he'⟩ := hfind
      have hk' : (k == e'.1) = true := by
        have := List.find?_some he'
        rwa [hsame e' h] at this
      simp only [get, List.find?_map, h, if_true]
      -- replacing values does not change which entry is found
      have hcomp : ((fun e : κ × α => k' == e.1) ∘
          fun e => if (k == e.1) = true then (e.1, v) else e) = fun e => k' == e.1 := by
        funext e
        by_cases hc : (k == e.1) = true <;> simp [hc]
      rw [hcomp, he']
      simp [hk']
    · have hcomp : ((fun e : κ × α => k' == e.1) ∘
          fun e => if (k == e.1) = true then (e.1, v) else e) = fun e => k' == e.1 := by
        funext e
        by_cases hc : (k == e.1) = true <;> simp [hc]
      simp only [get, List.find?_map, hcomp, h, Bool.false_eq_true, if_false]
      cases hfind : m.entries.find? fun e => k' == e.1 with
      | none => rfl
      | some e =>
          have hke : (k' == e.1) = true := by simpa using List.find?_some hfind
          have hne : (k == e.1) = false := by
            by_contra hc
            exact h (PartialEquivBEq.trans hke (PartialEquivBEq.symm (by simpa using hc)))
          simp [hne]
  · by_cases h : (k' == k) = true <;> simp [get, h]

theorem containsKey_put (m : HashMap κ α) (k k' : κ) (v : α) :
    (m.put k v).containsKey k' = (k' == k || m.containsKey k') := by
  by_cases h : k' == k <;> simp [containsKey, get_put, h]

/-! ## Maps put together entry by entry, for keys compared by equality -/

/-- The map that results from putting the entries one after the other. -/
def ofEntries (es : List (κ × α)) : HashMap κ α := es.foldl (fun m e => m.put e.1 e.2) {}

omit [EquivBEq κ] in
theorem ofEntries_concat (es : List (κ × α)) (e : κ × α) :
    ofEntries (es ++ [e]) = (ofEntries es).put e.1 e.2 := by
  rw [ofEntries, List.foldl_append, List.foldl_cons, List.foldl_nil, ofEntries]

section Lawful

omit [EquivBEq κ]

variable [LawfulBEq κ]

theorem nodup_put {m : HashMap κ α} (h : m.keySet.Nodup) (k : κ) (v : α) :
    (m.put k v).keySet.Nodup := by
  by_cases hmem : m.containsKey k = true
  -- replacing a value leaves the keys alone
  · rw [put, if_pos hmem, keySet, List.map_map]
    have hkeys : (Prod.fst ∘ fun e : κ × α => if (k == e.1) = true then (e.1, v) else e) =
        Prod.fst := by
      funext e
      rw [Function.comp_apply]
      split <;> rfl
    rw [hkeys]
    exact h
  · rw [put, if_neg hmem, keySet, List.map_cons, List.nodup_cons]
    refine ⟨fun hk => hmem ?_, h⟩
    obtain ⟨e, he, heq⟩ := List.mem_map.mp hk
    exact containsKey_iff_mem.mpr ⟨e, he, beq_iff_eq.mpr heq.symm⟩

theorem nodup_ofEntries (es : List (κ × α)) : (ofEntries es).keySet.Nodup := by
  induction es using List.reverseRecOn with
  | nil => exact List.nodup_nil
  | append_singleton es e ih =>
      rw [ofEntries_concat]
      exact nodup_put ih e.1 e.2

theorem get_ofEntries_concat (es : List (κ × α)) (e : κ × α) (k : κ) :
    (ofEntries (es ++ [e])).get k = if k == e.1 then some e.2 else (ofEntries es).get k := by
  rw [ofEntries_concat, get_put]

/-- The last value that was put for a key is found. -/
theorem get_ofEntries_of_last {es es' : List (κ × α)} {k k' : κ} {v : α} (hk : (k' == k) = true)
    (hes' : ∀ e ∈ es', (k' == e.1) = false) :
    (ofEntries (es ++ (k, v) :: es')).get k' = some v := by
  induction es' using List.reverseRecOn with
  | nil => rw [get_ofEntries_concat, if_pos hk]
  | append_singleton es' e ih =>
      have he : (k' == e.1) = false := hes' e (List.mem_append_right _ (List.mem_singleton_self e))
      rw [← List.cons_append, ← List.append_assoc, get_ofEntries_concat, he]
      exact ih fun e' he' => hes' e' (List.mem_append_left _ he')

/-- What is written for each of some things under different keys is found under its key. -/
theorem get_ofEntries_map {β : Type*} {xs : List β} {key : β → κ} (val : β → α)
    (h : (xs.map key).Nodup)
    {x : β} (hx : x ∈ xs) : (ofEntries (xs.map fun x => (key x, val x))).get (key x) =
    some (val x) := by
  obtain ⟨before, after, rfl⟩ := List.append_of_mem hx
  rw [List.map_append, List.map_cons, List.nodup_append, List.nodup_cons] at h
  rw [List.map_append, List.map_cons]
  refine get_ofEntries_of_last BEq.rfl fun e he => ?_
  obtain ⟨y, hy, rfl⟩ := List.mem_map.mp he
  exact beq_false_of_ne fun heq => h.2.1.1 (heq ▸ List.mem_map_of_mem hy)

/-- Only what was put is found. -/
theorem mem_of_get_ofEntries {es : List (κ × α)} {k : κ} {v : α}
    (h : (ofEntries es).get k = some v) : (k, v) ∈ es := by
  induction es using List.reverseRecOn with
  | nil => cases h
  | append_singleton es e ih =>
      rw [get_ofEntries_concat] at h
      split at h
      · rename_i hk
        cases h
        rw [beq_iff_eq.mp hk]
        exact List.mem_append_right _ (List.mem_singleton_self e)
      · exact List.mem_append_left _ (ih h)

/-- Whatever was put last, something is found under a key that was put. -/
theorem exists_get_ofEntries {es : List (κ × α)} {k : κ} (h : k ∈ es.map Prod.fst) :
    ∃ v, (ofEntries es).get k = some v := by
  induction es using List.reverseRecOn with
  | nil => cases h
  | append_singleton es e ih =>
      rw [get_ofEntries_concat]
      split
      · exact ⟨e.2, rfl⟩
      · rename_i hne
        rw [List.map_append, List.mem_append] at h
        refine ih (h.resolve_right fun hlast => hne ?_)
        rw [List.map_singleton, List.mem_singleton] at hlast
        exact beq_iff_eq.mpr hlast

/-- What is found is an entry. -/
theorem mem_of_get {m : HashMap κ α} {k : κ} {v : α} (h : m.get k = some v) :
    (k, v) ∈ m.entries := by
  obtain ⟨e, he, rfl⟩ := Option.map_eq_some_iff.mp h
  have hk : k = e.1 := by simpa using List.find?_some he
  exact hk ▸ List.mem_of_find?_eq_some he

/-- In a map whose keys are different every entry is found. -/
theorem get_of_mem {m : HashMap κ α} (h : m.keySet.Nodup) {k : κ} {v : α}
    (hmem : (k, v) ∈ m.entries) : m.get k = some v := by
  obtain ⟨es⟩ := m
  simp only [keySet] at h
  induction es with
  | nil => cases hmem
  | cons e es ih =>
      rw [List.map_cons, List.nodup_cons] at h
      rcases List.mem_cons.mp hmem with rfl | hrest
      · simp [get]
      · have hne : k ≠ e.1 := fun heq => h.1 (List.mem_map.mpr ⟨(k, v), hrest, heq⟩)
        have hget := ih h.2 hrest
        simp only [get, List.find?_cons, beq_false_of_ne hne] at hget ⊢
        exact hget

/-- Entries with different keys are all found after they were put. -/
theorem get_ofEntries {m : HashMap κ α} (h : m.keySet.Nodup) (k : κ) :
    (ofEntries m.entries).get k = m.get k := by
  obtain ⟨es⟩ := m
  induction es using List.reverseRecOn with
  | nil => rfl
  | append_singleton es e ih =>
      rw [keySet, List.map_append, List.map_singleton, List.nodup_append] at h
      obtain ⟨hes, -, hdisjoint⟩ := h
      rw [get_ofEntries_concat, ih hes]
      simp only [get, List.find?_append]
      split
      · rename_i hk
        have hnone : es.find? (fun e' => k == e'.1) = none := by
          rw [List.find?_eq_none]
          intro e' he' heq
          refine hdisjoint e'.1 (List.mem_map_of_mem he') e.1 (List.mem_singleton_self e.1) ?_
          rw [← beq_iff_eq.mp heq, beq_iff_eq.mp hk]
        simp [hnone, hk]
      · rename_i hk
        have hlast : [e].find? (fun e' => k == e'.1) = none := by simp [hk]
        rw [hlast, Option.or_none]

end Lawful

end HashMap
