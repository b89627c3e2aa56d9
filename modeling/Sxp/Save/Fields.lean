-- SUMMARY: The fields of a saved entity: their texts, how they are parsed, and which values are read back from their texts.
import Sxp.Contract.SigmaContract
import Sxp.Entity.Entities
import Sxp.Java.DateText
import Sxp.Save.Collections

/-!
# Saved fields

A field is written behind a mark, a comma and a blank and its name and the equals sign, and a
null is written as `null`. Nothing is escaped. For each type of field there is the condition
under which its value is read back from its own text; and whatever the value is, it is never
read back from a text that breaks off where another mark stands inside it.
-/

namespace Sxp

open Text (between after)

/-- The mark of a field: `, name=`. -/
structure FieldMark (b : List Char) : Prop where
  isMark : Marks.IsMark ',' '=' b
  delimiter : ", ".toList <+: b

instance FieldMark.decidable (b : List Char) : Decidable (FieldMark b) :=
  decidable_of_iff (Marks.IsMark ',' '=' b ∧ ", ".toList <+: b) ⟨fun ⟨h, h'⟩ => ⟨h, h'⟩,
    fun ⟨h, h'⟩ => ⟨h, h'⟩⟩

theorem FieldMark.comma_mem {b : List Char} (h : FieldMark b) : ',' ∈ b :=
  List.mem_of_mem_head? h.isMark.opens

/-- A field of an entity: the text written for it, the texts that are parsed as its value, and
the condition under which its own text is one of these. -/
structure SavedField where
  mark : String
  text : String
  reads : String → Prop
  readable : Prop
  reads_text : reads text ↔ readable
  not_reads_break : ∀ {v : String} {b r : List Char}, FieldMark b →
    text.toList = v.toList ++ b ++ r → ¬ reads v

/-- A text without a comma holds no mark. -/
theorem not_break_of_plain {s v : String} {b r : List Char} (h : Plain s) (hb : FieldMark b) :
    s.toList ≠ v.toList ++ b ++ r := by
  intro hs
  refine (h ',' ?_).1 rfl
  rw [hs]
  simp [hb.comma_mem]

theorem not_infix_of_plain {s : String} {b : List Char} (h : Plain s) (hb : FieldMark b) :
    ¬ b <:+: s.toList :=
  fun hfound => (h ',' (hfound.subset hb.comma_mem)).1 rfl

theorem null_plain : Plain "null" := by decide

/-! ## Strings -/

def stringField (mark : String) (s : Option String) : SavedField where
  mark
  text := s.getD "null"
  reads x := s = some x
  readable := s ≠ none
  reads_text := by cases s <;> simp
  not_reads_break := by
    rintro v b r hb htext rfl
    have hlength := congrArg List.length htext
    have hpos := List.length_pos_of_mem hb.comma_mem
    simp only [Option.getD_some, List.length_append] at hlength
    omega

/-! ## Dates, numbers and constants -/

/-- A field whose text is plain. -/
def plainField (mark text : String) (reads : String → Prop) (readable : Prop)
    (hreads : reads text ↔ readable) (hplain : Plain text) : SavedField where
  mark
  text
  reads
  readable
  reads_text := hreads
  not_reads_break hb htext _ := not_break_of_plain hplain hb htext

/-- `String.valueOf(date)`. -/
def dateText (zone : TimeZone) : Option Int → String
  | none => "null"
  | some t => Date.toString zone t

def dateField (zone : TimeZone) (mark : String) (date : Option Int) : SavedField :=
  plainField mark (dateText zone date) (fun x => ∃ t, SimpleDateFormat.parse zone x = some t ∧
    date = some t) (∃ t, date = some t ∧ Date.Readable zone t) (by
      cases date with
      | none => simp
      | some t =>
          simp only [dateText, Option.some.injEq, ← Date.parse_toString_iff zone, exists_eq_left']
          constructor
          · rintro ⟨t', h, rfl⟩
            exact h
          · exact fun h => ⟨t, h, rfl⟩)
    (by
      cases date with
      | none => exact null_plain
      | some t => exact Date.toString_plain zone t)

def numberField (mark : String) (n : Option Int) : SavedField :=
  plainField mark (numberText n) (fun x => ∃ m, BigInteger.ofText x = .ok m ∧ n = some m) (n ≠ none)
    (by
      cases n with
      | none => simp
      | some n => simp [numberText, BigInteger.ofText_text])
    (by
      cases n with
      | none => exact null_plain
      | some n => exact Plain.text n)

/-- `String.valueOf(e)` of a constant. -/
def constantText {ε : Type} [JavaEnum ε] : Option ε → String
  | none => "null"
  | some e => JavaEnum.name e

def constantField {ε : Type} [JavaEnum ε] (mark : String) (e : Option ε) : SavedField :=
  plainField mark (constantText e) (fun x => ∃ e', JavaEnum.valueOf ε x = .ok e' ∧
    e = some e') (e ≠ none) (by
      cases e with
      | none => simp
      | some e => simp [constantText, JavaEnum.valueOf_eq_ok])
    (by
      cases e with
      | none => exact null_plain
      | some e => exact JavaEnum.name_plain e)

/-! ## Lists and maps -/

open ContractsDecorator (parseArrayList parseHashMap ListReadable MapReadable)

/-- `String.valueOf(list)`. -/
def listText : Option (List (Option String)) → String
  | none => "null"
  | some l => listToString l

def listField (mark : String) (l : Option (List (Option String))) : SavedField where
  mark
  text := listText l
  reads x := ∃ r, parseArrayList x = .ok r ∧ l = some (r.map some)
  readable := ∃ l', l = some l' ∧ ListReadable l'
  reads_text := by
    cases l with
    | none => simp
    | some l =>
        simp only [listText, Option.some.injEq, exists_eq_left, @eq_comm _ l]
        exact ContractsDecorator.parse_listToString l
  not_reads_break := by
    rintro v b r hb htext ⟨l', hparse, rfl⟩
    obtain ⟨name, hname⟩ := hb.delimiter
    refine ContractsDecorator.parse_listToString_break (w := name ++ r) ?_ hparse rfl
    rw [← hname] at htext
    simpa only [listText, List.append_assoc] using htext

/-- `String.valueOf(map)`. -/
def mapText : Option StringMap → String
  | none => "null"
  | some m => m.toString

def mapField (mark : String) (m : Option StringMap) : SavedField where
  mark
  text := mapText m
  reads x := ∃ m', parseHashMap x = .ok m' ∧ StringMap.Same (some m') m
  readable := ∃ m', m = some m' ∧ MapReadable m'
  reads_text := by
    cases m with
    | none => simp [StringMap.Same]
    | some m =>
        simp only [mapText, Option.some.injEq, exists_eq_left']
        exact ContractsDecorator.parse_mapToString m
  not_reads_break := by
    rintro v b r hb htext ⟨m', hparse, hsame⟩
    obtain ⟨name, hname⟩ := hb.delimiter
    cases m with
    | none => exact hsame
    | some m =>
        refine ContractsDecorator.parse_mapToString_break (w := name ++ r) ?_ hparse hsame
        rw [← hname] at htext
        simpa only [mapText, List.append_assoc] using htext

/-! ## Signatures -/

/-- `parseSignature` of the decorators of items and of messages. -/
def parseSignature (substring : String) : Except JavaException ElGamalSignEntity := do
  let r ← between substring "ElGamalSignEntity [r=" ", s="
  let r ← BigInteger.ofText r
  let s ← after substring ", s="
  let s ← BigInteger.ofText s
  return { r := some r, s := some s }

/-- The text of a signature without its closing bracket, which is part of the end of a record. -/
def signatureText : Option ElGamalSignEntity → String
  | none => "null"
  | some sign => "ElGamalSignEntity [r=" ++ numberText sign.r ++ ", s=" ++ numberText sign.s

theorem ElGamalSignEntity.toString_eq (sign : ElGamalSignEntity) :
    sign.toString = signatureText (some sign) ++ "]" :=
  rfl

theorem numberText_plain (n : Option Int) : Plain (numberText n) := by
  cases n with
  | none => exact null_plain
  | some n => exact Plain.text n

theorem s_fieldMark : FieldMark ", s=".toList := by decide

theorem signatureText_split (sign : ElGamalSignEntity) :
    (signatureText (some sign)).toList =
      ("ElGamalSignEntity [r=" ++ numberText sign.r).toList ++ ", s=".toList ++
      (numberText sign.s).toList :=
  Text.toList_append₃ _ _ _ _

theorem signatureStart_plain (sign : ElGamalSignEntity) :
    Plain ("ElGamalSignEntity [r=" ++ numberText sign.r) := by
  have hstart : Plain "ElGamalSignEntity [r=" := by decide +kernel
  exact hstart.append (numberText_plain sign.r)

theorem signatureText_not_bracket (sign : ElGamalSignEntity) :
    ']' ∉ (signatureText (some sign)).toList := by
  rw [signatureText_split, List.mem_append, List.mem_append, not_or, not_or]
  exact ⟨⟨fun h => (signatureStart_plain sign _ h).2 rfl, by decide⟩,
    fun h => (numberText_plain sign.s _ h).2 rfl⟩

/-- The parts of a signature are found in its text. -/
theorem parse_signatureText (sign : ElGamalSignEntity) :
    parseSignature (signatureText (some sign)) = do
      let r ← BigInteger.ofText (numberText sign.r)
      let s ← BigInteger.ofText (numberText sign.s)
      return { r := some r, s := some s } := by
  have hs : Marks.FirstAt ", s=".toList ("ElGamalSignEntity [r=" ++ numberText sign.r).toList
      (signatureText (some sign)).toList := by
    rw [signatureText_split]
    exact s_fieldMark.isMark.firstAt (not_infix_of_plain (signatureStart_plain sign) s_fieldMark)
  have hr : Marks.FirstAt "ElGamalSignEntity [r=".toList [] (signatureText (some sign)).toList := by
    rw [signatureText_split, String.toList_append, List.append_assoc, List.append_assoc]
    exact Marks.FirstAt.start
  have hbetween : between (signatureText (some sign)) "ElGamalSignEntity [r=" ", s=" =
      .ok (numberText sign.r) := by
    rw [Text.between_eq_ok, Marks.between_eq_some hr, List.nil_append, ← String.toList_append]
    exact hs
  have hafter : after (signatureText (some sign)) ", s=" = .ok (numberText sign.s) := by
    rw [signatureText_split] at hs
    rw [Text.after_eq_ok, signatureText_split]
    exact Marks.after_eq hs
  rw [parseSignature, hbetween, Except.ok_bind, hafter]
  rfl

def signatureField (mark : String) (sign : Option ElGamalSignEntity) : SavedField where
  mark
  text := signatureText sign
  reads x := ∃ sign', parseSignature x = .ok sign' ∧ sign = some sign'
  readable := ∃ r s, sign = some { r := some r, s := some s }
  reads_text := by
    constructor
    · rintro ⟨sign', hparse, rfl⟩
      rw [parse_signatureText] at hparse
      simp only [Except.bind_eq_ok, Except.pure_eq_ok] at hparse
      obtain ⟨r, -, s, -, rfl⟩ := hparse
      exact ⟨r, s, rfl⟩
    · rintro ⟨r, s, rfl⟩
      refine ⟨_, ?_, rfl⟩
      rw [parse_signatureText]
      simp only [numberText, BigInteger.ofText_text]
      rfl
  not_reads_break := by
    rintro v b r hb htext ⟨sign', hparse, rfl⟩
    simp only [parseSignature, Except.bind_eq_ok] at hparse
    obtain ⟨x, hx, -⟩ := hparse
    have hv := Text.infix_of_between hx
    -- the text holds one comma
    have hcount := congrArg (List.count ',') htext
    rw [signatureText_split] at hcount
    have hplain : ∀ {s : String}, Plain s → s.toList.count ',' = 0 := fun h =>
      List.count_eq_zero.mpr fun hmem => (h ',' hmem).1 rfl
    have hvpos := List.count_pos_iff.mpr (hv.subset s_fieldMark.comma_mem)
    have hbpos := List.count_pos_iff.mpr hb.comma_mem
    rw [List.count_append, List.count_append, List.count_append, List.count_append,
      hplain (signatureStart_plain sign'), hplain (numberText_plain sign'.s)] at hcount
    have hmark : ", s=".toList.count ',' = 1 := by decide
    omega

end Sxp
