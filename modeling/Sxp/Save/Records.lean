-- SUMMARY: Saved records: the fields of an entity one after the other, and when all of them are read back from the record.
import Sxp.Save.Fields

/-!
# Saved records

A record is the name of its class and a bracket, the id, the fields, and an end mark that starts
with the closing bracket. Reading cuts the record out up to the first end mark and every field
up to the first mark of the next. The id is made by the database and holds neither a comma nor
a bracket; it is not read back.
-/

namespace Sxp

open Text (between after upTo)

namespace SavedField

/-- The field as a part of a record. -/
def slot (f : SavedField) : Marks.Slot Char where
  mark := f.mark.toList
  text := f.text.toList
  good v := f.reads (String.ofList v)

/-- The fields one after the other, each behind its mark. -/
def texts (fields : List SavedField) : String := String.join (fields.map fun f => f.mark ++ f.text)

theorem toList_texts (fields : List SavedField) :
    (texts fields).toList = Marks.texts (fields.map slot) := by
  rw [texts, String.toList_join, List.flatMap_map, Marks.texts, List.flatMap_map]
  congr 1
  funext f
  exact String.toList_append

/-- No field holds the mark of a later one. -/
def Separated (fields : List SavedField) : Prop :=
  fields.Pairwise fun f g => ¬ g.mark.toList <:+: f.text.toList

/-- The fields have marks of their own, without the bracket that ends a record. -/
structure Marked (fields : List SavedField) : Prop where
  fieldMark : ∀ f ∈ fields, FieldMark f.mark.toList ∧ ']' ∉ f.mark.toList
  nodup : (fields.map SavedField.mark).Nodup

theorem Marked.of_marks {fields : List SavedField} (marks : List String)
    (h : fields.map SavedField.mark = marks)
    (hmarks : (∀ b ∈ marks, FieldMark b.toList ∧ ']' ∉ b.toList) ∧ marks.Nodup) :
    Marked fields where
  fieldMark f hf := hmarks.1 f.mark (by rw [← h]; exact List.mem_map_of_mem hf)
  nodup := by
    rw [h]
    exact hmarks.2

theorem slot_good (f : SavedField) (x : String) : f.slot.good x.toList ↔ f.reads x := by
  change f.reads (String.ofList x.toList) ↔ f.reads x
  rw [String.ofList_toList]

/-- The part that is read for a field, in terms of the texts of the code. -/
theorem restores_cons_cons {s : String} {f g : SavedField} {fields : List SavedField} :
    Marks.Restores s.toList ((f :: g :: fields).map slot) ↔
      (∃ x, between s f.mark g.mark = .ok x ∧ f.reads x) ∧
      Marks.Restores s.toList ((g :: fields).map slot) := by
  rw [List.map_cons, List.map_cons, Marks.Restores]
  refine and_congr_left fun _ => ?_
  constructor
  · rintro ⟨v, hv, hgood⟩
    exact ⟨String.ofList v, Text.between_eq_ok.mpr (by rwa [@String.toList_ofList v]), hgood⟩
  · rintro ⟨x, hx, hreads⟩
    exact ⟨x.toList, Text.between_eq_ok.mp hx, f.slot_good x |>.mpr hreads⟩

theorem restores_singleton {s : String} {f : SavedField} :
    Marks.Restores s.toList ([f].map slot) ↔ ∃ x, after s f.mark = .ok x ∧ f.reads x := by
  rw [List.map_singleton, Marks.Restores]
  constructor
  · rintro ⟨v, hv, hgood⟩
    exact ⟨String.ofList v, Text.after_eq_ok.mpr (by rwa [@String.toList_ofList v]), hgood⟩
  · rintro ⟨x, hx, hreads⟩
    exact ⟨x.toList, Text.after_eq_ok.mp hx, f.slot_good x |>.mpr hreads⟩

theorem Marked.layout {fields : List SavedField} (h : Marked fields) :
    Marks.Layout ',' '=' (fields.map slot) where
  marks := by
    rw [List.forall_mem_map]
    exact fun f hf => (h.fieldMark f hf).1.isMark
  nodup := by
    have hmap : (fields.map slot).map Marks.Slot.mark =
        (fields.map SavedField.mark).map String.toList := by
      rw [List.map_map, List.map_map]
      rfl
    rw [hmap]
    exact h.nodup.map fun _ _ => String.toList_inj.mp
  fragile := by
    rw [List.forall_mem_map]
    intro f _ y hy v r htext hgood
    obtain ⟨g, hg, rfl⟩ := List.mem_map.mp hy
    refine f.not_reads_break (h.fieldMark g hg).1 (r := r) ?_ hgood
    rw [@String.toList_ofList v]
    exact htext

end SavedField

open SavedField

/-! ## The record of an entity -/

/-- An entity as it is stored has no id, or one that the database made. -/
def GeneratedId (id : Option String) : Prop := ∀ s ∈ id, Plain s

theorem GeneratedId.none : GeneratedId none := fun _ h => absurd h (by simp)

theorem GeneratedId.plain {id : Option String} (h : GeneratedId id) :
    Plain ("id=" ++ id.getD "null") := by
  have hstart : Plain "id=" := by decide
  cases id with
  | none => exact hstart.append null_plain
  | some s => exact hstart.append (h s rfl)

/-- A text followed by a field. -/
def SavedField.append (s : String) (f : SavedField) : String := s ++ f.mark ++ f.text

theorem foldl_append (a : String) (fields : List SavedField) :
    fields.foldl SavedField.append a = a ++ texts fields := by
  induction fields generalizing a with
  | nil => exact (String.append_empty).symm
  | cons f fields ih =>
      rw [List.foldl_cons, ih, SavedField.append, texts, texts, List.map_cons, String.join_cons]
      simp only [String.append_assoc]

/-- The text of an entity up to its last field: its class, its id, and its fields. -/
def recordText (b : String) (id : Option String) (fields : List SavedField) : String :=
  fields.foldl SavedField.append (b ++ "id=" ++ id.getD "null")

theorem recordText_eq (b : String) (id : Option String) (fields : List SavedField) :
    recordText b id fields = b ++ "id=" ++ id.getD "null" ++ texts fields := foldl_append _ fields

/-- A record does not hold what is in none of its parts. -/
theorem recordText_free {b m : String} {id : Option String} {fields : List SavedField}
    (hb : Marks.Cuts (b ++ "id=").toList m.toList)
    (hmarks : ∀ f ∈ fields, Marks.Cuts f.mark.toList m.toList)
    (hid : Text.Free m (id.getD "null")) (hfields : ∀ f ∈ fields, Text.Free m f.text) :
    Text.Free m (recordText b id fields) := by
  rw [recordText]
  generalize hstart : b ++ "id=" ++ id.getD "null" = a
  have ha : Text.Free m a := hstart ▸ hid.append_left hb
  clear hstart
  induction fields generalizing a with
  | nil => exact ha
  | cons f fields ih =>
      rw [List.forall_mem_cons] at hmarks hfields
      rw [List.foldl_cons]
      exact ih hmarks.2 hfields.2 _ (ha.append hmarks.1 hfields.1)

theorem toList_recordText (b : String) (id : Option String) (fields : List SavedField)
    (m data e t : String) : (recordText b id fields ++ m ++ data ++ e ++ t).toList =
      b.toList ++ ("id=" ++ id.getD "null").toList ++ Marks.texts (fields.map slot) ++ m.toList ++
        data.toList ++ e.toList ++ t.toList := by
  rw [recordText_eq, @String.append_assoc b "id="]
  generalize "id=" ++ id.getD "null" = a
  simp only [String.toList_append, toList_texts]

/-- A record is restored exactly if every field is readable, none holds the mark of a later one
and none but the last holds the end mark. The text of the last field stands for `data` and the
first `k` characters of the end mark, which the record is cut out with. -/
theorem record_iff {b e t data : String} {k : Nat} {id : Option String} {fields : List SavedField}
    {last : SavedField} (h : Marked (fields ++ [last])) (hid : GeneratedId id) (hb : ']' ∉ b.toList)
    (he : e.toList.head? = some ']') (hcomma : ',' ∉ e.toList) (hk : k ≤ e.toList.length)
    (hdata : ']' ∉ data.toList)
    (htext : last.text.toList = data.toList ++ e.toList.take k) {s : String}
    (hs : s = recordText b id fields ++ last.mark ++ data ++ e ++ t) :
    (∃ r, Text.substring s (Text.indexOf s b + b.length) (Text.indexOf s e + k) = .ok r ∧
        Marks.Restores r.toList ((fields ++ [last]).map slot)) ↔
      (∀ f ∈ fields ++ [last], f.readable) ∧ Separated (fields ++ [last]) ∧
        ∀ f ∈ fields, ¬ e.toList <:+: f.text.toList := by
  have hplain := hid.plain
  have hfree : ∀ x ∈ fields.map slot ++ [last.slot], ']' ∉ x.mark ∧
      ¬ x.mark <:+: ("id=" ++ id.getD "null").toList := by
    rw [← List.map_singleton, ← List.map_append, List.forall_mem_map]
    exact fun g hg => ⟨(h.fieldMark g hg).2, not_infix_of_plain hplain (h.fieldMark g hg).1⟩
  have hlayout : Marks.Layout ',' '=' (fields.map slot ++ [last.slot]) := by
    rw [← List.map_singleton, ← List.map_append]
    exact h.layout
  have hrecord := Marks.record_restores_iff (fun hmem =>
    hcomma (List.mem_of_mem_tail hmem)) he hlayout hk hfree hb
    (fun hmem => (hplain ']' hmem).2 rfl) hdata htext (t := t.toList)
  have hslot : last.slot.mark = last.mark.toList := rfl
  rw [hslot, ← toList_recordText, ← hs, ← List.map_singleton, ← List.map_append] at hrecord
  have hcut : (∃ r, Text.substring s (Text.indexOf s b + b.length) (Text.indexOf s e + k) = .ok r ∧
      Marks.Restores r.toList ((fields ++ [last]).map slot)) ↔
      ∃ r, Marks.record b.toList e.toList k s.toList = some r ∧
      Marks.Restores r ((fields ++ [last]).map slot) := by
    simp only [Text.substring_eq_ok, Marks.record, Text.indexOf, String.length_toList]
    constructor
    · rintro ⟨r, hr, hrestores⟩
      exact ⟨r.toList, hr, hrestores⟩
    · rintro ⟨r, hr, hrestores⟩
      exact ⟨String.ofList r, by rwa [@String.toList_ofList r], by rwa [@String.toList_ofList r]⟩
  have hgoods : (∀ x ∈ (fields ++ [last]).map slot, x.good x.text) ↔
      ∀ f ∈ fields ++ [last], f.readable := by
    rw [List.forall_mem_map]
    exact forall₂_congr fun f _ => (f.slot_good f.text).trans f.reads_text
  have hends : (∀ x ∈ fields.map slot, ¬ e.toList <:+: x.text) ↔
      ∀ f ∈ fields, ¬ e.toList <:+: f.text.toList :=
    List.forall_mem_map
  rw [hcut, hrecord, hgoods, hends, List.pairwise_map]
  constructor
  · intro h
    exact ⟨h.2.1, h.2.2, h.1⟩
  · intro h
    exact ⟨h.2.2, h.1, h.2.1⟩

/-- A field of a record that is restored was read. -/
theorem exists_reads_last {r : String} {fields : List SavedField} {last : SavedField}
    (h : Marks.Restores r.toList ((fields ++ [last]).map slot)) : ∃ x, last.reads x := by
  rw [List.map_append, List.map_singleton] at h
  obtain ⟨v, hv⟩ := h.exists_last
  exact ⟨String.ofList v, hv⟩

/-! ## Records that end with a signature -/

/-- `String.valueOf(signature)`. -/
def signText : Option ElGamalSignEntity → String
  | none => "null"
  | some sign => sign.toString

/-- The closing bracket of a signature and that of the entity are the end mark of the record. -/
theorem signText_append (a : String) (sign : ElGamalSignEntity) :
    a ++ signText (some sign) ++ "]" ++ "\n" = a ++ signatureText (some sign) ++ "]]" ++ "\n" := by
  have hstop : "]]" = "]" ++ "]" := by decide
  have hlast : signText (some sign) = signatureText (some sign) ++ "]" := rfl
  rw [hlast, hstop]
  simp only [String.append_assoc]

/-- A record that ends with a signature is restored exactly if every field is readable, none
holds the mark of a later one and none but the signature holds two closing brackets. -/
theorem signed_record_iff {b : String} {id : Option String} {fields : List SavedField}
    {sign : Option ElGamalSignEntity} (h : Marked (fields ++ [signatureField ", signature=" sign]))
    (hid : GeneratedId id) (hb : ']' ∉ b.toList) {s : String}
    (hs : s = recordText b id fields ++ ", signature=" ++ signText sign ++ "]" ++ "\n") :
    (∃ r, between s b "]]" = .ok r ∧
      Marks.Restores r.toList ((fields ++ [signatureField ", signature=" sign]).map slot)) ↔
      (∀ f ∈ fields ++ [signatureField ", signature=" sign], f.readable) ∧
        Separated (fields ++ [signatureField ", signature=" sign]) ∧
        ∀ f ∈ fields, ¬ "]]".toList <:+: f.text.toList := by
  cases sign with
  | none =>
      refine iff_of_false ?_ ?_
      · rintro ⟨r, -, hrestores⟩
        obtain ⟨x, sign, -, hsign⟩ := exists_reads_last hrestores
        cases hsign
      · rintro ⟨hreadable, -⟩
        obtain ⟨r, s, hsign⟩ := hreadable (signatureField ", signature=" none) (by simp)
        cases hsign
  | some sign =>
      rw [signText_append] at hs
      have hrecord := record_iff (k := 0) h hid hb (by decide) (by decide) (Nat.zero_le _)
        (signatureText_not_bracket sign) (List.append_nil _).symm hs
      rw [Nat.cast_zero, add_zero] at hrecord
      exact hrecord

/-! ## Parsers -/

/-- A date is parsed and the rest of a method follows, which returns null after a
`ParseException`. -/
def orNull {α β : Type} (x : Option α) (rest : α → Except JavaException (Option β)) :
    Except JavaException (Option β) :=
  match x with
  | none => .ok none
  | some a => rest a

@[simp] theorem orNull_eq_ok_some {α β : Type} {x : Option α}
    {rest : α → Except JavaException (Option β)} {b : β} :
    orNull x rest = .ok (some b) ↔ ∃ a, x = some a ∧ rest a = .ok (some b) := by
  cases x <;> simp [orNull]

end Sxp
