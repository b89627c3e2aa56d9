-- SUMMARY: The loop with which the decorators of a save read their entities: what text behind a section does to it, and when it throws.
import Sxp.Java.Search

/-!
# The loop of a read

A decorator reads one entity after the other, as long as the mark that begins one is found, and
cuts the text behind the mark that ends it. Both marks are looked for in all of the text that is
left, also behind the section of the decorator.
-/

namespace Sxp

open Text (indexOf substring substringFrom)

namespace Text

variable {s v b : String} {i j : Int}

theorem substring_append (h : j ≤ s.length) (t : String) :
    substring (s ++ t) i j = substring s i j := by
  rw [substring, substring, String.toList_append, Marks.slice_append]
  rwa [String.length_toList]

/-- The position of a text that is found. -/
theorem indexOf_firstAt {p : String} (h : Marks.FirstAt b.toList p.toList s.toList) :
    indexOf s b = p.length := by
  rw [indexOf, h.indexOf, String.length_toList]

theorem substringFrom_firstAt {p r : String} (h : Marks.FirstAt b.toList p.toList s.toList)
    (hs : s = p ++ b ++ r) : substringFrom s (indexOf s b + b.length) = .ok r := by
  rw [substringFrom_eq_ok, indexOf_firstAt h]
  exact ⟨p ++ b, hs, by rw [String.length_append]; omega⟩

end Text

/-- What the loops of the decorators differ in: the marks, which have no character in common, and
the reading of the first entity in a text, which throws if the end mark is missing and otherwise
depends on what stands up to the end mark alone. -/
structure EntityReader (E : Type) where
  entityBegin : String
  entityEnd : String
  readFirst : String → Except JavaException (Option E)
  end_length : 2 ≤ entityEnd.length
  begin_ne : entityBegin ≠ ""
  apart : ∀ c ∈ entityEnd.toList, c ∉ entityBegin.toList
  readFirst_none : ∀ str, indexOf str entityEnd = -1 → ∃ e, readFirst str = .error e
  readFirst_append : ∀ a v, indexOf (a ++ v) entityBegin = indexOf a entityBegin →
    indexOf (a ++ v) entityEnd = indexOf a entityEnd → readFirst (a ++ v) = readFirst a

namespace EntityReader

variable {E : Type} (reader : EntityReader E)

/-- The loop, from the text `str` and the number `offset` on: the entities, the number that is
reached, and the text that is left. -/
def readLoop (str : String) (offset : Int) :
    Except JavaException (List (Option E) × Int × String) :=
  if indexOf str reader.entityBegin ≠ -1 then
    match reader.readFirst str with
    | .error x => .error x
    | .ok entity =>
        match _ : substringFrom str (indexOf str reader.entityEnd + reader.entityEnd.length) with
        | .error x => .error x
        | .ok rest =>
            match readLoop rest
                (offset + (indexOf str reader.entityEnd + reader.entityEnd.length)) with
            | .error x => .error x
            | .ok (entities, offset, rest) => .ok (entity :: entities, offset, rest)
  else .ok ([], offset, str)
termination_by str.length
decreasing_by
  rename_i h
  obtain ⟨p, hp, hlength⟩ := Text.substringFrom_eq_ok.mp h
  have hend := reader.end_length
  have hindex := Text.neg_one_le_indexOf str reader.entityEnd
  rw [hp, String.length_append]
  omega

variable {reader} {str rest a v : String} {entity : Option E} {offset : Int}

theorem readLoop_done (h : indexOf str reader.entityBegin = -1) :
    reader.readLoop str offset = .ok ([], offset, str) := by
  rw [readLoop, if_neg (by simpa using h)]

theorem readLoop_error {x : JavaException} (h : indexOf str reader.entityBegin ≠ -1)
    (hfirst : reader.readFirst str = .error x) : reader.readLoop str offset = .error x := by
  rw [readLoop, if_pos h, hfirst]

theorem readLoop_step (h : indexOf str reader.entityBegin ≠ -1)
    (hfirst : reader.readFirst str = .ok entity)
    (hcut : substringFrom str (indexOf str reader.entityEnd + reader.entityEnd.length) = .ok rest) :
    reader.readLoop str offset =
      (reader.readLoop rest (offset + (indexOf str reader.entityEnd + reader.entityEnd.length))).map
        fun r => (entity :: r.1, r.2.1, r.2.2) := by
  rw [readLoop, if_pos h, hfirst]
  dsimp only
  split
  · rename_i x hx
    rw [hcut] at hx
    cases hx
  · rename_i rest' hrest'
    obtain rfl : rest = rest' := Except.ok.inj (hcut.symm.trans hrest')
    cases reader.readLoop rest
        (offset + (indexOf str reader.entityEnd + reader.entityEnd.length)) with
    | error x => rfl
    | ok r => rfl

variable (reader) in
theorem exists_last : ∃ c, reader.entityEnd.toList.getLast? = some c := by
  have hne : reader.entityEnd.toList ≠ [] := by
    intro hnil
    have hend := reader.end_length
    rw [← String.length_toList, hnil] at hend
    exact absurd hend (by decide)
  exact ⟨_, List.getLast?_eq_some_getLast hne⟩

/-- An entity that is read ends with an end mark, behind which the loop goes on. -/
theorem exists_cut (hfirst : reader.readFirst str = .ok entity) :
    ∃ p rest, Marks.FirstAt reader.entityEnd.toList p.toList str.toList ∧
    str = p ++ reader.entityEnd ++ rest := by
  have hfound : reader.entityEnd.toList <:+: str.toList := by
    by_contra hnone
    obtain ⟨e, he⟩ := reader.readFirst_none str (Text.indexOf_eq_neg_one.mpr hnone)
    rw [hfirst] at he
    cases he
  obtain ⟨p, hp⟩ := Text.exists_firstAt hfound
  obtain ⟨rest, hrest⟩ := Text.eq_of_firstAt hp
  exact ⟨p, rest, hp, hrest⟩

variable (reader) in
/-- The rounds of the loop: there is no entity left, or it cannot be read, or it is cut off. -/
theorem round_induction {P : String → Prop}
    (hdone : ∀ str, indexOf str reader.entityBegin = -1 → P str)
    (herror : ∀ str x, indexOf str reader.entityBegin ≠ -1 →
      reader.readFirst str = .error x → P str)
    (hstep : ∀ p rest entity, indexOf (p ++ reader.entityEnd ++ rest) reader.entityBegin ≠ -1 →
      reader.readFirst (p ++ reader.entityEnd ++ rest) = .ok entity →
      Marks.FirstAt reader.entityEnd.toList p.toList (p ++ reader.entityEnd ++ rest).toList →
      P rest → P (p ++ reader.entityEnd ++ rest)) (str : String) : P str := by
  induction hn : str.length using Nat.strong_induction_on generalizing str with
  | _ n ih =>
      by_cases hbegin : indexOf str reader.entityBegin = -1
      · exact hdone str hbegin
      · cases hfirst : reader.readFirst str with
        | error x => exact herror str x hbegin hfirst
        | ok entity =>
            obtain ⟨p, rest, hp, rfl⟩ := exists_cut hfirst
            have hend := reader.end_length
            refine hstep p rest entity hbegin hfirst hp (ih rest.length ?_ rest rfl)
            rw [← hn, String.length_append, String.length_append]
            omega

theorem readLoop_round {p : String}
    (hbegin : indexOf (p ++ reader.entityEnd ++ rest) reader.entityBegin ≠ -1)
    (hfirst : reader.readFirst (p ++ reader.entityEnd ++ rest) = .ok entity)
    (hp : Marks.FirstAt reader.entityEnd.toList p.toList (p ++ reader.entityEnd ++ rest).toList)
    (offset : Int) : reader.readLoop (p ++ reader.entityEnd ++ rest) offset =
      (reader.readLoop rest (offset + (p ++ reader.entityEnd).length)).map fun r =>
      (entity :: r.1, r.2.1, r.2.2) := by
  have hlength : ((p ++ reader.entityEnd).length : Int) = p.length + reader.entityEnd.length := by
    rw [String.length_append, Nat.cast_add]
  rw [readLoop_step hbegin hfirst (Text.substringFrom_firstAt hp rfl),
    Text.indexOf_firstAt hp, hlength]

/-! ## Text behind the section -/

variable (reader) in
/-- The text holds none of the marks, nor the end of one. -/
def Foreign (v : String) : Prop :=
  ∀ a, indexOf (a ++ v) reader.entityBegin = indexOf a reader.entityBegin ∧
    indexOf (a ++ v) reader.entityEnd = indexOf a reader.entityEnd

/-- Foreign text behind the section is left over, and changes nothing else. -/
theorem readLoop_append (hv : reader.Foreign v) (a : String) (offset : Int) :
    reader.readLoop (a ++ v) offset =
      (reader.readLoop a offset).map fun r => (r.1, r.2.1, r.2.2 ++ v) := by
  induction a using reader.round_induction generalizing offset with
  | hdone a hbegin =>
      rw [readLoop_done hbegin, readLoop_done ((hv a).1.trans hbegin)]
      rfl
  | herror a x hbegin hfirst =>
      have hfirst' : reader.readFirst (a ++ v) = .error x := by
        rw [reader.readFirst_append a v (hv a).1 (hv a).2, hfirst]
      rw [readLoop_error hbegin hfirst, readLoop_error (by rwa [(hv a).1]) hfirst']
      rfl
  | hstep p rest entity hbegin hfirst hp ih =>
      obtain ⟨hsame, hsameEnd⟩ := hv (p ++ reader.entityEnd ++ rest)
      have hfirst' : reader.readFirst (p ++ reader.entityEnd ++ rest ++ v) = .ok entity := by
        rw [reader.readFirst_append _ v hsame hsameEnd, hfirst]
      have hcut : substringFrom (p ++ reader.entityEnd ++ rest ++ v)
          (indexOf (p ++ reader.entityEnd ++ rest ++ v) reader.entityEnd +
            reader.entityEnd.length) = .ok (rest ++ v) := by
        rw [hsameEnd, Text.indexOf_firstAt hp, Text.substringFrom_eq_ok]
        exact ⟨p ++ reader.entityEnd,
          String.append_assoc, by rw [String.length_append, Nat.cast_add]⟩
      rw [readLoop_step (by rwa [hsame]) hfirst' hcut, ih, hsameEnd,
        readLoop_round hbegin hfirst hp,
        Text.indexOf_firstAt hp, String.length_append, Nat.cast_add]
      cases reader.readLoop rest (offset + (p.length + reader.entityEnd.length)) with
      | error x => rfl
      | ok r => rfl

/-- The loop leaves an end of the text, and counts what is before it. -/
theorem readLoop_eq_ok {entities : List (Option E)} {offset' : Int}
    (h : reader.readLoop str offset = .ok (entities, offset', rest)) :
    ∃ p, str = p ++ rest ∧ offset' = offset + p.length := by
  induction str using reader.round_induction generalizing offset entities with
  | hdone str hbegin =>
      rw [readLoop_done hbegin] at h
      cases h
      exact ⟨"", by rw [String.empty_append], by simp⟩
  | herror str x hbegin hfirst =>
      rw [readLoop_error hbegin hfirst] at h
      cases h
  | hstep p rest' entity hbegin hfirst hp ih =>
      rw [readLoop_round hbegin hfirst hp] at h
      cases hloop : reader.readLoop rest' (offset + (p ++ reader.entityEnd).length) with
      | error x =>
          rw [hloop] at h
          cases h
      | ok r =>
          rw [hloop] at h
          cases h
          obtain ⟨q, hq, hoffset⟩ := ih hloop
          refine ⟨p ++ reader.entityEnd ++ q, ?_, ?_⟩
          · rw [hq]
            simp only [String.append_assoc]
          · rw [hoffset, String.length_append (p ++ reader.entityEnd), Nat.cast_add, add_assoc]

/-- The loop throws where the text ends with a mark that begins an entity. -/
theorem readLoop_begin (a : String) (offset : Int) :
    ∃ x, reader.readLoop (a ++ reader.entityBegin) offset = .error x := by
  generalize hstr : a ++ reader.entityBegin = str
  induction str using reader.round_induction generalizing a offset with
  | hdone str hbegin =>
      rw [← hstr, Text.indexOf_eq_neg_one, String.toList_append] at hbegin
      exact absurd (List.suffix_append _ _).isInfix hbegin
  | herror str x hbegin hfirst => exact ⟨x, readLoop_error hbegin hfirst⟩
  | hstep p rest entity hbegin hfirst hp ih =>
      -- the end mark ends before the mark at the end of the text
      obtain ⟨a', ha'⟩ : ∃ a', rest = a' ++ reader.entityBegin := by
        have hlists : a.toList ++ reader.entityBegin.toList = p.toList ++ reader.entityEnd.toList ++
            rest.toList := by
          rw [← String.toList_append, hstr, String.toList_append, String.toList_append]
        obtain ⟨c, hc⟩ := reader.exists_last
        obtain ⟨r, hr⟩ := Marks.append_eq_of_last hc
          (reader.apart c (List.mem_of_getLast? hc)) hlists
        exact ⟨String.ofList r, by rw [← String.toList_inj, hr, String.toList_append,
          String.toList_ofList]⟩
      obtain ⟨x, hx⟩ := ih a' (offset + (p ++ reader.entityEnd).length) ha'.symm
      rw [readLoop_round hbegin hfirst hp, hx]
      exact ⟨x, rfl⟩

end EntityReader

end Sxp
