-- SUMMARY: indexOf, substring and split of java.lang.String, the part of a text between two marks, and the constants of an enumeration by name.
import Sxp.Base.Except
import Sxp.Base.Marks
import Sxp.Base.Split
import Sxp.Java.Lang

/-!
# Searching texts

A text is a sequence of characters, and a position is the number of characters before it. A
search that finds nothing answers -1, which the code adds to and cuts at like any other position.
-/

namespace Sxp

namespace Text

/-- `s.indexOf(b)`. -/
def indexOf (s b : String) : Int := Marks.indexOf b.toList s.toList

/-- `s.substring(i, j)`. -/
def substring (s : String) (i j : Int) : Except JavaException String :=
  match Marks.slice i j s.toList with
  | some v => .ok (String.ofList v)
  | none => .error .indexOutOfBounds

/-- `s.substring(i)`. -/
def substringFrom (s : String) (i : Int) : Except JavaException String := substring s i s.length

/-- `s.split(c)` for a character that has no other meaning in a pattern. -/
def split (s : String) (c : Char) : List String := (Split.split c s.toList).map String.ofList

/-- `s.substring(s.indexOf(b) + b.length(), s.indexOf(c))`. -/
def between (s b c : String) : Except JavaException String :=
  substring s (indexOf s b + b.length) (indexOf s c)

/-- `s.substring(s.indexOf(b) + b.length())`. -/
def after (s b : String) : Except JavaException String := substringFrom s (indexOf s b + b.length)

/-- `s.substring(0, s.indexOf(b))`. -/
def upTo (s b : String) : Except JavaException String := substring s 0 (indexOf s b)

theorem indexOf_eq_neg_one {s b : String} : indexOf s b = -1 ↔ ¬ b.toList <:+: s.toList :=
  Marks.indexOf_eq_neg_one

theorem toList_append₃ (a b c d : String) :
    (a ++ b ++ c ++ d).toList = (a ++ b).toList ++ c.toList ++ d.toList := by
  rw [String.toList_append, String.toList_append]

theorem exists_firstAt {s b : String} (h : b.toList <:+: s.toList) :
    ∃ p : String, Marks.FirstAt b.toList p.toList s.toList := by
  obtain ⟨p, hp⟩ := Marks.exists_firstAt h
  exact ⟨String.ofList p, by rwa [@String.toList_ofList p]⟩

theorem eq_of_firstAt {s b p : String} (h : Marks.FirstAt b.toList p.toList s.toList) :
    ∃ r, s = p ++ b ++ r := by
  obtain ⟨r, hr⟩ := h.1
  refine ⟨String.ofList r, ?_⟩
  rw [← String.toList_inj, hr, String.toList_append, String.toList_append, @String.toList_ofList r]

/-- The text does not hold `b`. -/
def Free (b s : String) : Prop := ¬ b.toList <:+: s.toList

instance Free.decidable (b s : String) : Decidable (Free b s) := inferInstanceAs (Decidable (¬ _))

/-- Parts that do not hold `b` are put one after the other with a text that has no end in common
with `b`. -/
theorem Free.append {s t w b : String} (hs : Free b s) (hw : Marks.Cuts w.toList b.toList)
    (ht : Free b t) : Free b (s ++ w ++ t) := by
  rw [Free, String.toList_append, String.toList_append, hw.infix_iff]
  exact not_or_intro hs ht

theorem Free.empty {w b : String} (hw : Marks.Cuts w.toList b.toList) : Free b "" :=
  fun h => hw.2.1 (List.infix_nil.mp h)

theorem Free.append_right {s w b : String} (hs : Free b s) (hw : Marks.Cuts w.toList b.toList) :
    Free b (s ++ w) := by
  simpa only [String.append_empty] using hs.append hw (Free.empty hw)

theorem Free.append_left {t w b : String} (ht : Free b t) (hw : Marks.Cuts w.toList b.toList) :
    Free b (w ++ t) := by
  simpa only [String.empty_append] using (Free.empty hw).append hw ht

theorem firstAt_of_free {b p r : String} {o c : Char} (hb : Marks.IsMark o c b.toList)
    (hp : Free b p) : Marks.FirstAt b.toList p.toList (p ++ b ++ r).toList := by
  rw [String.toList_append, String.toList_append]
  exact hb.firstAt hp

theorem neg_one_le_indexOf (s b : String) : -1 ≤ indexOf s b := by
  rw [indexOf]
  rcases Marks.indexOf_cases b.toList s.toList with ⟨hnone, -⟩ | ⟨p, -, heq⟩ <;> omega

theorem substring_eq_ok {s v : String} {i j : Int} :
    substring s i j = .ok v ↔ Marks.slice i j s.toList = some v.toList := by
  rw [substring]
  cases h : Marks.slice i j s.toList with
  | none => simp
  | some w => simp [String.ext_iff]

theorem between_eq_ok {s b c v : String} :
    between s b c = .ok v ↔ Marks.between b.toList c.toList s.toList = some v.toList := by
  rw [between, substring_eq_ok, Marks.between, indexOf, indexOf, String.length_toList]

/-- A part that is cut out ends at a mark that is there. -/
theorem infix_of_between {s b c v : String} (h : between s b c = .ok v) : c.toList <:+:
    s.toList := by
  rw [between, substring_eq_ok, Marks.slice_eq_some] at h
  obtain ⟨p, r, -, -, hindex⟩ := h
  by_contra hnone
  rw [indexOf_eq_neg_one.mpr hnone] at hindex
  omega

theorem after_eq_ok {s b v : String} :
    after s b = .ok v ↔ Marks.after b.toList s.toList = some v.toList := by
  rw [after, substringFrom, substring_eq_ok, Marks.after, indexOf, String.length_toList,
    String.length_toList]

theorem upTo_eq_ok {s b v : String} : upTo s b = .ok v ↔
    Marks.FirstAt b.toList v.toList s.toList := by
  rw [upTo, substring_eq_ok, Marks.slice_eq_some, indexOf]
  constructor
  · rintro ⟨p, r, hs, hp, hindex⟩
    have hnil : p = [] := List.length_eq_zero_iff.mp (by omega)
    subst hnil
    rcases Marks.indexOf_cases b.toList s.toList with ⟨hnone, -⟩ | ⟨q, hq, heq⟩
    · rw [hnone] at hindex
      omega
    · obtain ⟨r', hr'⟩ := hq.1
      rw [hs, List.nil_append, List.append_assoc] at hr'
      rw [heq, List.nil_append] at hindex
      rw [(List.append_inj hr' (by omega)).1]
      exact hq
  · intro h
    obtain ⟨r, hr⟩ := h.1
    exact ⟨[], b.toList ++ r, by rw [hr, List.nil_append, List.append_assoc], rfl, h.indexOf⟩

theorem upTo_not_infix {s b v : String} {o c : Char} (hb : Marks.IsMark o c b.toList)
    (h : upTo s b = .ok v) : ¬ b.toList <:+: v.toList := by
  have hfirst := upTo_eq_ok.mp h
  obtain ⟨r, rfl⟩ := eq_of_firstAt hfirst
  rw [String.toList_append, String.toList_append] at hfirst
  exact hb.firstAt_iff.mp hfirst

theorem upTo_append {b v : String} {o c : Char} (hb : Marks.IsMark o c b.toList)
    (h : ¬ b.toList <:+: v.toList) (r : String) : upTo (v ++ b ++ r) b = .ok v := by
  rw [upTo_eq_ok, String.toList_append, String.toList_append]
  exact hb.firstAt h

/-- What is cut off from a position on has all that was before it in front. -/
theorem substringFrom_eq_ok {s v : String} {i : Int} :
    substringFrom s i = .ok v ↔ ∃ p : String, s = p ++ v ∧ i = p.length := by
  rw [substringFrom, substring_eq_ok, Marks.slice_eq_some]
  constructor
  · rintro ⟨p, r, hs, hi, hj⟩
    have hr : r = [] := by
      rw [← String.length_toList, hs] at hj
      simp only [List.length_append] at hj
      exact List.length_eq_zero_iff.mp (by omega)
    refine ⟨String.ofList p, ?_, ?_⟩
    · rw [← String.toList_inj, hs, hr, String.toList_append, String.toList_ofList, List.append_nil]
    · rw [hi, String.length_ofList]
  · rintro ⟨p, rfl, rfl⟩
    refine ⟨p.toList, [], ?_, by rw [String.length_toList], ?_⟩
    · rw [String.toList_append, List.append_nil]
    · rw [← String.toList_append, String.length_toList]

/-- A text is joined with what follows as its last part is. -/
theorem intercalate_concat_append (d : String) (ys : List String) (z t : String) :
    d.intercalate (ys ++ [z]) ++ t = d.intercalate (ys ++ [z ++ t]) := by
  induction ys with
  | nil => simp only [List.nil_append, String.intercalate_singleton]
  | cons y ys ih =>
      rw [List.cons_append, List.cons_append, String.intercalate_cons_of_ne_nil (by simp),
        String.intercalate_cons_of_ne_nil (by simp), String.append_assoc, ih]

end Text

/-! ## Enumerations -/

/-- The canonical name of an enumeration, its constants, and their names, which are identifiers. -/
class JavaEnum (ε : Type) where
  canonicalName : String
  values : List ε
  name : ε → String
  mem_values : ∀ e, e ∈ values
  name_injective : Function.Injective name
  name_plain : ∀ e, Plain (name e)

namespace JavaEnum

variable {ε : Type} [JavaEnum ε]

/-- `valueOf(s)` of the enumeration. -/
def valueOf (ε : Type) [JavaEnum ε] (s : String) : Except JavaException ε :=
  match (values : List ε).find? fun e => name e == s with
  | some e => .ok e
  | none => .error (.illegalArgument ("No enum constant " ++ canonicalName ε ++ "." ++ s))

theorem valueOf_eq_ok {s : String} {e : ε} : valueOf ε s = .ok e ↔ name e = s := by
  rw [valueOf]
  constructor
  · intro h
    cases hfind : (values : List ε).find? fun e => name e == s with
    | none =>
        rw [hfind] at h
        cases h
    | some e' =>
        rw [hfind] at h
        cases h
        have hname := List.find?_some hfind
        exact beq_iff_eq.mp hname
  · rintro rfl
    cases hfind : (values : List ε).find? fun e' => name e' == name e with
    | none =>
        rw [List.find?_eq_none] at hfind
        exact absurd (beq_self_eq_true (name e)) (hfind e (mem_values e))
    | some e' =>
        have hname := List.find?_some hfind
        rw [name_injective (beq_iff_eq.mp hname)]

end JavaEnum

end Sxp
