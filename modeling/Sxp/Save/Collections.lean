-- SUMMARY: The texts of lists and maps in a saved contract, their parsers, and which lists and maps are read back from their texts.
import Sxp.Base.HashMap
import Sxp.Base.Joined
import Sxp.Java.Search

/-!
# Lists and maps of a saved contract

`ArrayList` and `HashMap` write their parts with a comma and a blank between them, and the
parsers cut at every such delimiter. What is read back is known from three facts about their
common loop: how many parts it reads, what each of them cannot hold, and that it reads parts
without the delimiter one by one.
-/

namespace Sxp

/-- A `HashMap<String, String>`, in which keys and values can be null. -/
structure StringMap where
  map : HashMap (Option String) (Option String) := {}
  nodup : map.keySet.Nodup := by decide
deriving DecidableEq

namespace StringMap

/-- Two maps, of which each can be null, have the same entries. -/
def Same : Option StringMap → Option StringMap → Prop
  | none, none => True
  | some m, some m' => ∀ k, m.map.get k = m'.map.get k
  | _, _ => False

/-- The map that results from putting the entries one after the other. -/
def ofEntries (es : List (String × String)) : StringMap where
  map := HashMap.ofEntries (es.map fun e => (some e.1, some e.2))
  nodup := HashMap.nodup_ofEntries _

theorem map_ofEntries (es : List (String × String)) :
    (ofEntries es).map = HashMap.ofEntries (es.map fun e => (some e.1, some e.2)) := rfl

/-- `map.toString()`. -/
def toString (m : StringMap) : String :=
  "\x7b" ++ ", ".intercalate (m.map.entries.map fun e =>
    e.1.getD "null" ++ "=" ++ e.2.getD "null") ++ "\x7d"

end StringMap

/-- `list.toString()` of an `ArrayList<String>`. -/
def listToString (l : List (Option String)) : String :=
  "[" ++ ", ".intercalate (l.map fun s => s.getD "null") ++ "]"

namespace ContractsDecorator

open Text (indexOf substringFrom between upTo)

/-- The loop of the two parsers: while the text holds the delimiter, `body` reads what stands
before it and the text is cut behind it; `last` reads the rest. -/
def eachPiece {β : Type} (body last : String → Except JavaException β) (string : String) :
    Except JavaException (List β) :=
  if indexOf string ", " = -1 then do
    let x ← last string
    return [x]
  else do
    let x ← body string
    match _h : substringFrom string (indexOf string ", " + ", ".length) with
    | .error e => throw e
    | .ok rest => do
        let xs ← eachPiece body last rest
        return x :: xs
termination_by string.length
decreasing_by
  obtain ⟨p, hs, hp⟩ := Text.substringFrom_eq_ok.mp _h
  have hindex := Text.neg_one_le_indexOf string ", "
  have hdelimiter : ", ".length = 2 := by decide
  rw [hs, String.length_append]
  omega

def parseArrayList (string : String) : Except JavaException (List String) := do
  let string ← substringFrom string 1
  eachPiece (fun string => upTo string ", ") (fun string => upTo string "]") string

/-- An entry at the start of the text, whose value ends before `stop`. -/
def parseEntry (stop string : String) : Except JavaException (String × String) := do
  let key ← upTo string "="
  let value ← between string "=" stop
  return (key, value)

def parseHashMap (string : String) : Except JavaException StringMap := do
  let string ← substringFrom string 1
  let entries ← eachPiece (parseEntry ", ") (parseEntry "\x7d") string
  return StringMap.ofEntries entries

/-! ## The loop -/

theorem delimiter_isMark : Marks.IsMark ',' ' ' ", ".toList := by decide

section Loop

variable {β : Type} {body last : String → Except JavaException β} {p r s t : String} {xs : List β}

theorem eachPiece_last (h : ¬ ", ".toList <:+: s.toList) :
    eachPiece body last s = (last s).map fun x => [x] := by
  rw [eachPiece, if_pos (Text.indexOf_eq_neg_one.mpr h)]
  cases last s <;> rfl

theorem eachPiece_next (h : ¬ ", ".toList <:+: p.toList) :
    eachPiece body last (p ++ ", " ++ r) = do
      let x ← body (p ++ ", " ++ r)
      let xs ← eachPiece body last r
      return x :: xs := by
  have hfirst : Marks.FirstAt ", ".toList p.toList (p ++ ", " ++ r).toList := by
    rw [String.toList_append, String.toList_append]
    exact delimiter_isMark.firstAt h
  have hindex : indexOf (p ++ ", " ++ r) ", " = p.length := by
    rw [indexOf, hfirst.indexOf, String.length_toList]
  have hrest : substringFrom (p ++ ", " ++ r) (indexOf (p ++ ", " ++ r) ", " + ", ".length) =
      .ok r := by
    refine Text.substringFrom_eq_ok.mpr ⟨p ++ ", ", rfl, ?_⟩
    rw [hindex, String.length_append]
    omega
  rw [eachPiece, if_neg (by rw [hindex]; omega)]
  congr 1
  funext x
  split
  · rename_i e heq
    rw [hrest] at heq
    cases heq
  · rename_i rest heq
    rw [hrest] at heq
    cases heq
    rfl

/-- A text is a piece without the delimiter, or such a piece with the delimiter and a text behind
it. -/
theorem pieces_induction {P : String → Prop} (last : ∀ s, ¬ ", ".toList <:+: s.toList → P s)
    (next : ∀ p r, ¬ ", ".toList <:+: p.toList → P r → P (p ++ ", " ++ r)) (s : String) : P s := by
  induction hn : s.length using Nat.strong_induction_on generalizing s with
  | _ n ih =>
      by_cases hs : ", ".toList <:+: s.toList
      · obtain ⟨p, hp⟩ := Text.exists_firstAt hs
        obtain ⟨r, rfl⟩ := Text.eq_of_firstAt hp
        have hdelimiter : ", ".length = 2 := by decide
        rw [String.length_append, String.length_append, hdelimiter] at hn
        rw [String.toList_append, String.toList_append, delimiter_isMark.firstAt_iff] at hp
        exact next p r hp (ih r.length (by omega) r rfl)
      · exact last s hs

/-- What the loop reads: one part for each delimiter by `body`, and the last one by `last`. -/
theorem eachPiece_eq_ok (h : eachPiece body last s = .ok xs) :
    ∃ ys z, xs = ys ++ [z] ∧ ys.length = Marks.occurrences ", ".toList s.toList ∧
      (∀ y ∈ ys, ∃ p r, ¬ ", ".toList <:+: p.toList ∧ body (p ++ ", " ++ r) = .ok y) ∧
      ∃ t, ¬ ", ".toList <:+: t.toList ∧ last t = .ok z := by
  induction s using pieces_induction generalizing xs with
  | last s hs =>
      rw [eachPiece_last hs] at h
      cases hlast : last s with
      | error e =>
          rw [hlast] at h
          cases h
      | ok z =>
          rw [hlast] at h
          cases h
          refine ⟨[], z, rfl, ?_, fun y hy => absurd hy List.not_mem_nil, s, hs, hlast⟩
          rw [Marks.occurrences_eq_zero hs, List.length_nil]
  | next p r hp ih =>
      rw [eachPiece_next hp] at h
      simp only [Except.bind_eq_ok, Except.pure_eq_ok] at h
      obtain ⟨x, hx, rest, hrest, rfl⟩ := h
      obtain ⟨ys, z, rfl, hlength, hys, hz⟩ := ih hrest
      refine ⟨x :: ys, z, rfl, ?_, ?_, hz⟩
      · rw [String.toList_append, String.toList_append, delimiter_isMark.occurrences_append,
          Marks.occurrences_eq_zero hp, List.length_cons, hlength]
        omega
      · rw [List.forall_mem_cons]
        exact ⟨⟨p, r, hp, hx⟩, hys⟩

/-- A text that breaks off at a delimiter has fewer parts than were joined. -/
theorem eachPiece_length_lt {ts : List String} {w : List Char} (h : eachPiece body last s = .ok xs)
    (hts : ∀ t ∈ ts, ¬ ", ".toList <:+: t.toList) (hne : ts ≠ [])
    (hs : (", ".intercalate ts).toList = s.toList ++ ", ".toList ++ w) : xs.length < ts.length := by
  obtain ⟨ys, z, rfl, hlength, -⟩ := eachPiece_eq_ok h
  have hclean : ∀ t ∈ ts.map String.toList, ¬ ", ".toList <:+: t := List.forall_mem_map.mpr hts
  have hcount := delimiter_isMark.occurrences_intercalate hclean (by simpa using hne)
  rw [← String.toList_intercalate, hs, delimiter_isMark.occurrences_append,
    List.length_map] at hcount
  rw [List.length_append, List.length_singleton, hlength]
  omega

variable (body last) in
/-- Parts without the delimiter are read one by one. -/
theorem eachPiece_join (text : β → String) {ys : List β}
    (hclean : ∀ y ∈ ys, ¬ ", ".toList <:+: (text y).toList)
    (hbody : ∀ y ∈ ys, ∀ r, body (text y ++ ", " ++ r) = .ok y) (ht : ¬ ", ".toList <:+: t.toList) :
    eachPiece body last (", ".intercalate (ys.map text ++ [t])) = (last t).map fun z =>
    ys ++ [z] := by
  induction ys with
  | nil =>
      rw [List.map_nil, List.nil_append, String.intercalate_singleton, eachPiece_last ht]
      rfl
  | cons y ys ih =>
      rw [List.forall_mem_cons] at hclean hbody
      have hcut : ", ".intercalate ((y :: ys).map text ++ [t]) =
          text y ++ ", " ++ ", ".intercalate (ys.map text ++ [t]) := by
        rw [List.map_cons, List.cons_append, String.intercalate_cons_of_ne_nil (by simp)]
      rw [hcut, eachPiece_next hclean.1, hbody.1, ih hclean.2 hbody.2]
      cases last t <;> rfl

/-- A closing character leaves the parts without the delimiter. -/
theorem clean_close {b : String} {ts : List String} (hb : ' ' ∉ b.toList)
    (h : ∀ y ∈ ts ++ [t], ¬ ", ".toList <:+: y.toList) : ∀ y ∈ ts ++ [t ++ b], ¬ ", ".toList <:+:
    y.toList := by
  intro y hy
  rcases List.mem_append.mp hy with hmem | hmem
  · exact h y (List.mem_append_left _ hmem)
  · rw [List.mem_singleton.mp hmem, String.toList_append,
      Marks.infix_append_skip delimiter_isMark.closes hb]
    exact h t (List.mem_append_right _ (List.mem_singleton_self t))

/-- A text that is read behind its first character stands in a longer text behind the same. -/
theorem substringFrom_one_append {b : String} {w : List Char} (hb : b.length = 1)
    (h : substringFrom s 1 = .ok r) (ht : (b ++ t).toList = s.toList ++ w) :
    t.toList = r.toList ++ w := by
  obtain ⟨p, rfl, hp⟩ := Text.substringFrom_eq_ok.mp h
  rw [String.toList_append, String.toList_append, List.append_assoc] at ht
  refine (List.append_inj ht ?_).2
  rw [String.length_toList, String.length_toList]
  omega

end Loop

/-! ## Lists -/

/-- The lists that are read back: not empty, without null, no element with the delimiter in it,
and no bracket in the last one. -/
structure ListReadable (l : List (Option String)) : Prop where
  nonempty : l ≠ []
  element : ∀ s ∈ l, ∃ v, s = some v ∧ ¬ ", ".toList <:+: v.toList
  last : ∀ v, l.getLast? = some (some v) → ']' ∉ v.toList

theorem bracket_isMark : Marks.IsMark ']' ']' "]".toList := by decide

/-- What the parser of a list reads, as a condition on the list. -/
theorem listReadable_of_parse {string : String} {r : List String}
    (h : parseArrayList string = .ok r) : ListReadable (r.map some) := by
  simp only [parseArrayList, Except.bind_eq_ok] at h
  obtain ⟨s, -, h⟩ := h
  obtain ⟨ys, z, rfl, -, hys, t, ht, hz⟩ := eachPiece_eq_ok h
  have hzclean : ¬ ", ".toList <:+: z.toList := by
    obtain ⟨r, rfl⟩ := Text.eq_of_firstAt (Text.upTo_eq_ok.mp hz)
    refine fun hfound => ht (hfound.trans ?_)
    rw [String.toList_append, String.toList_append, List.append_assoc]
    exact List.infix_append_left
  refine ⟨by simp, ?_, ?_⟩
  · intro s hs
    obtain ⟨v, hv, rfl⟩ := List.mem_map.mp hs
    refine ⟨v, rfl, ?_⟩
    rcases List.mem_append.mp hv with hmem | hmem
    · obtain ⟨p, r, -, hbody⟩ := hys v hmem
      exact Text.upTo_not_infix delimiter_isMark hbody
    · rw [List.mem_singleton.mp hmem]
      exact hzclean
  · intro v hv
    have hlast : v = z := by simpa using hv.symm
    rw [hlast, ← List.singleton_infix_iff]
    exact Text.upTo_not_infix bracket_isMark hz

theorem listToString_concat (ys : List String) (z : String) :
    listToString ((ys ++ [z]).map some) = "[" ++ ", ".intercalate (ys ++ [z ++ "]"]) := by
  have hmap : ((ys ++ [z]).map some).map (fun s : Option String => s.getD "null") = ys ++ [z] := by
    rw [List.map_map]
    exact List.map_id _
  rw [listToString, hmap, String.append_assoc, Text.intercalate_concat_append]

/-- A readable list is given by its strings, and without its last one is one of pieces. -/
theorem ListReadable.exists_strings {l : List (Option String)} (h : ListReadable l) :
    ∃ ys z, l = (ys ++ [z]).map some ∧ (∀ y ∈ ys ++ [z], ¬ ", ".toList <:+: y.toList) ∧
      ']' ∉ z.toList := by
  obtain ⟨ss, rfl⟩ : ∃ ss : List String, l = ss.map some := by
    refine ⟨l.map fun s => s.getD "", ?_⟩
    rw [List.map_map]
    refine (List.map_id l).symm.trans (List.map_congr_left fun s hs => ?_)
    obtain ⟨v, rfl, -⟩ := h.element s hs
    rfl
  cases ss using List.reverseRecOn with
  | nil => exact absurd rfl h.nonempty
  | append_singleton ys z =>
      refine ⟨ys, z, rfl, fun y hy => ?_, h.last z (by simp)⟩
      obtain ⟨v, hv, hclean⟩ := h.element (some y) (List.mem_map_of_mem hy)
      cases hv
      exact hclean

theorem parse_listToString (l : List (Option String)) :
    (∃ r, parseArrayList (listToString l) = .ok r ∧ r.map some = l) ↔ ListReadable l := by
  constructor
  · rintro ⟨r, hr, rfl⟩
    exact listReadable_of_parse hr
  · intro h
    obtain ⟨ys, z, rfl, hclean, hz⟩ := h.exists_strings
    refine ⟨ys ++ [z], ?_, rfl⟩
    have hstart : substringFrom (listToString ((ys ++ [z]).map some)) 1 =
        .ok (", ".intercalate (ys ++ [z ++ "]"])) :=
      Text.substringFrom_eq_ok.mpr ⟨"[", listToString_concat ys z, by decide⟩
    have hbody : ∀ y ∈ ys, ∀ r, upTo (y ++ ", " ++ r) ", " = .ok y := fun y hy r =>
      Text.upTo_append delimiter_isMark (hclean y (List.mem_append_left _ hy)) r
    have hclosed := clean_close (b := "]") (by decide) hclean
    have hlast := hclosed (z ++ "]") (List.mem_append_right _ (List.mem_singleton_self _))
    have hread : upTo (z ++ "]") "]" = .ok z := by
      have happend := Text.upTo_append bracket_isMark
        (mt (List.singleton_infix_iff ']' z.toList).mp hz) ""
      rwa [String.append_empty] at happend
    have hjoin := eachPiece_join (fun string => upTo string ", ") (fun string => upTo string "]") id
      (fun y hy => hclean y (List.mem_append_left _ hy)) hbody hlast
    rw [List.map_id, hread] at hjoin
    rw [parseArrayList, hstart, Except.ok_bind, hjoin]
    rfl

/-- A list is not read from a text that breaks off at a delimiter. -/
theorem parse_listToString_break {l : List (Option String)} {string : String} {w : List Char}
    {r : List String} (htext : (listToString l).toList = string.toList ++ ", ".toList ++ w)
    (h : parseArrayList string = .ok r) : r.map some ≠ l := by
  rintro rfl
  obtain ⟨ys, z, hlist, hclean, -⟩ := (listReadable_of_parse h).exists_strings
  have hstrings : r = ys ++ [z] := List.map_injective_iff.mpr (Option.some_injective String) hlist
  subst hstrings
  simp only [parseArrayList, Except.bind_eq_ok] at h
  obtain ⟨s, hs, h⟩ := h
  rw [listToString_concat, List.append_assoc] at htext
  have hbody := substringFrom_one_append (by decide) hs htext
  rw [← List.append_assoc] at hbody
  have hlt := eachPiece_length_lt h (clean_close (by decide) hclean) (by simp) hbody
  simp at hlt

/-! ## Maps -/

/-- The maps that are read back: not empty, without null, no key with the equals sign or the
delimiter in it, no value with the delimiter in it, and no brace in the entry that is written
last. -/
structure MapReadable (m : StringMap) : Prop where
  nonempty : m.map.entries ≠ []
  entry : ∀ e ∈ m.map.entries, ∃ k v, e = (some k, some v) ∧ '=' ∉ k.toList ∧
    ¬ ", ".toList <:+: k.toList ∧ ¬ ", ".toList <:+: v.toList
  last : ∀ k v, m.map.entries.getLast? = some (some k, some v) → '}' ∉ k.toList ∧ '}' ∉ v.toList

theorem equals_isMark : Marks.IsMark '=' '=' "=".toList := by decide

theorem brace_isMark : Marks.IsMark '}' '}' "\x7d".toList := by decide

/-- The text of an entry. -/
def entryText (e : String × String) : String := e.1 ++ "=" ++ e.2

theorem parseEntry_eq_ok {stop s : String} {e : String × String} :
    parseEntry stop s = .ok e ↔ Marks.FirstAt "=".toList e.1.toList s.toList ∧
      Marks.FirstAt stop.toList (entryText e).toList s.toList := by
  obtain ⟨k, v⟩ := e
  simp only [parseEntry, Except.bind_eq_ok, Except.pure_eq_ok, Prod.mk.injEq, entryText]
  constructor
  · rintro ⟨key, hkey, value, hvalue, rfl, rfl⟩
    rw [Text.upTo_eq_ok] at hkey
    rw [Text.between_eq_ok, Marks.between_eq_some hkey] at hvalue
    rw [String.toList_append, String.toList_append]
    exact ⟨hkey, hvalue⟩
  · rintro ⟨hkey, hvalue⟩
    rw [String.toList_append, String.toList_append] at hvalue
    exact ⟨k, Text.upTo_eq_ok.mpr hkey,
      v, by rwa [Text.between_eq_ok, Marks.between_eq_some hkey], rfl, rfl⟩

/-- What is read as an entry, with whatever stop. -/
theorem parseEntry_clean {stop s : String} {e : String × String} {o c : Char}
    (hstop : Marks.IsMark o c stop.toList)
    (h : parseEntry stop s = .ok e) : '=' ∉ e.1.toList ∧ ¬ stop.toList <:+:
    (entryText e).toList := by
  obtain ⟨hkey, hvalue⟩ := parseEntry_eq_ok.mp h
  constructor
  · have hnone := Text.upTo_not_infix equals_isMark (Text.upTo_eq_ok.mpr hkey)
    exact mt (List.singleton_infix_iff '=' _).mpr hnone
  · exact Text.upTo_not_infix hstop (Text.upTo_eq_ok.mpr hvalue)

theorem firstAt_key {e : String × String} (h : '=' ∉ e.1.toList) (r : String) :
    Marks.FirstAt "=".toList e.1.toList (entryText e ++ r).toList := by
  have hcut : (entryText e ++ r).toList = e.1.toList ++ "=".toList ++ (e.2.toList ++ r.toList) := by
    simp only [entryText, String.toList_append, List.append_assoc]
  rw [hcut]
  exact equals_isMark.firstAt (mt (List.singleton_infix_iff '=' _).mp h)

theorem mem_entryText {e : String × String} {c : Char} :
    c ∈ (entryText e).toList ↔ c ∈ e.1.toList ∨ c = '=' ∨ c ∈ e.2.toList := by
  have hequals : "=".toList = ['='] := by decide
  rw [entryText, String.toList_append, String.toList_append, hequals, List.mem_append,
    List.mem_append, List.mem_singleton, or_assoc]

/-- A key and a value without the delimiter make an entry without it. -/
theorem entryText_clean {e : String × String} :
    ¬ ", ".toList <:+: (entryText e).toList ↔ ¬ ", ".toList <:+: e.1.toList ∧ ¬ ", ".toList <:+:
    e.2.toList := by
  have hcut : (entryText e).toList = e.1.toList ++ '=' :: e.2.toList := by
    rw [entryText, String.toList_append, String.toList_append, List.append_assoc]
    rfl
  have hskip : ", ".toList <:+: '=' :: e.2.toList ↔ ", ".toList <:+: e.2.toList :=
    Marks.infix_skip (w := ['=']) delimiter_isMark.opens (by decide)
  rw [hcut, Marks.infix_append_cons (by decide), hskip, not_or]

/-- What the parser of a map puts: at least one entry, none with the delimiter or with an equals
sign in its key. -/
theorem parseHashMap_eq_ok {string : String} {m : StringMap} (h : parseHashMap string = .ok m) :
    ∃ s es, substringFrom string 1 = .ok s ∧
      eachPiece (parseEntry ", ") (parseEntry "\x7d") s = .ok es ∧
      m = StringMap.ofEntries es ∧ es ≠ [] ∧
      ∀ e ∈ es, '=' ∉ e.1.toList ∧ ¬ ", ".toList <:+: (entryText e).toList := by
  simp only [parseHashMap, Except.bind_eq_ok, Except.pure_eq_ok] at h
  obtain ⟨s, hs, es, hes, rfl⟩ := h
  obtain ⟨ys, z, rfl, -, hys, t, ht, hz⟩ := eachPiece_eq_ok hes
  refine ⟨s, ys ++ [z], hs, hes, rfl, by simp, fun e he => ?_⟩
  rcases List.mem_append.mp he with hmem | hmem
  · obtain ⟨p, r, -, hbody⟩ := hys e hmem
    exact parseEntry_clean delimiter_isMark hbody
  · rw [List.mem_singleton.mp hmem]
    refine ⟨(parseEntry_clean brace_isMark hz).1, fun hfound => ht ?_⟩
    obtain ⟨r, hr⟩ := (parseEntry_eq_ok.mp hz).2.1
    rw [hr, List.append_assoc]
    exact hfound.trans List.infix_append_left

/-- What is found in a map that was put together was put. -/
theorem mem_of_same {es : List (String × String)} {m : StringMap}
    (h : StringMap.Same (some (StringMap.ofEntries es)) (some m)) :
    ∀ e ∈ m.map.entries, ∃ e' ∈ es, e = (some e'.1, some e'.2) := by
  rintro ⟨k, v⟩ he
  have hget := HashMap.get_of_mem m.nodup he
  rw [← h k] at hget
  obtain ⟨e', he', heq⟩ := List.mem_map.mp (HashMap.mem_of_get_ofEntries hget)
  exact ⟨e', he', heq.symm⟩

/-- The entry that is put last is found. -/
theorem get_ofEntries_last (ys : List (String × String)) (z : String × String) :
    (StringMap.ofEntries (ys ++ [z])).map.get (some z.1) = some (some z.2) := by
  rw [StringMap.map_ofEntries, List.map_append, List.map_singleton,
    HashMap.get_ofEntries_concat, if_pos]
  exact beq_self_eq_true _

/-- The entries of a map that the parser put together, as texts. -/
theorem exists_entries {es : List (String × String)} {m : StringMap} (hne : es ≠ [])
    (h : StringMap.Same (some (StringMap.ofEntries es)) (some m)) :
    ∃ ys z, m.map.entries = (ys ++ [z]).map (fun e => (some e.1, some e.2)) ∧
      (∀ e ∈ ys ++ [z], e ∈ es) ∧ (ys ++ [z]).length ≤ es.length := by
  have hmem := mem_of_same h
  obtain ⟨es', hes'⟩ : ∃ es' : List (String × String), m.map.entries = es'.map fun e =>
      (some e.1, some e.2) := by
    refine ⟨m.map.entries.map fun e => (e.1.getD "", e.2.getD ""), ?_⟩
    rw [List.map_map]
    refine (List.map_id _).symm.trans (List.map_congr_left fun e he => ?_)
    obtain ⟨e', -, rfl⟩ := hmem e he
    rfl
  have hsubset : es' ⊆ es := by
    intro e he
    obtain ⟨e', he', heq⟩ := hmem (some e.1, some e.2) (by rw [hes']; exact List.mem_map_of_mem he)
    simp only [Prod.mk.injEq, Option.some.injEq] at heq
    rw [Prod.ext heq.1 heq.2]
    exact he'
  have hnodup : es'.Nodup := by
    have hkeys := m.nodup
    rw [HashMap.keySet, hes'] at hkeys
    exact (List.Nodup.of_map _ hkeys).of_map _
  have hle := (List.subperm_of_subset hnodup hsubset).length_le
  cases es' using List.reverseRecOn with
  | nil =>
      -- the map holds the entry that was put last
      obtain ⟨init, e, rfl⟩ := (List.eq_nil_or_concat' es).resolve_left hne
      have hget := h (some e.1)
      rw [get_ofEntries_last, HashMap.get, hes'] at hget
      cases hget
  | append_singleton ys z => exact ⟨ys, z, hes', hsubset, hle⟩

theorem toString_concat {m : StringMap} {ys : List (String × String)} {z : String × String}
    (h : m.map.entries = (ys ++ [z]).map fun e => (some e.1, some e.2)) :
    m.toString = "\x7b" ++ ", ".intercalate (ys.map entryText ++ [entryText z ++ "\x7d"]) := by
  have hmap : m.map.entries.map (fun e => e.1.getD "null" ++ "=" ++ e.2.getD "null") =
      ys.map entryText ++ [entryText z] := by
    rw [h, List.map_map, List.map_append, List.map_singleton]
    rfl
  rw [StringMap.toString, hmap, String.append_assoc, Text.intercalate_concat_append]

/-- What the parser reads in the text of a map without the delimiter in its entries. -/
theorem parseHashMap_toString {m : StringMap} {ys : List (String × String)} {z : String × String}
    (h : m.map.entries = (ys ++ [z]).map fun e => (some e.1, some e.2))
    (hclean : ∀ e ∈ ys ++ [z], '=' ∉ e.1.toList ∧ ¬ ", ".toList <:+: (entryText e).toList) :
    parseHashMap m.toString =
      (parseEntry "\x7d" (entryText z ++ "\x7d")).map fun e => StringMap.ofEntries (ys ++ [e]) := by
  have hstart : substringFrom m.toString 1 =
      .ok (", ".intercalate (ys.map entryText ++ [entryText z ++ "\x7d"])) :=
    Text.substringFrom_eq_ok.mpr ⟨"\x7b", toString_concat h, by decide⟩
  have htexts : ∀ t ∈ ys.map entryText ++ [entryText z], ¬ ", ".toList <:+: t.toList := by
    intro t ht
    rw [← List.map_singleton, ← List.map_append] at ht
    obtain ⟨e, he, rfl⟩ := List.mem_map.mp ht
    exact (hclean e he).2
  have hbody : ∀ e ∈ ys, ∀ r, parseEntry ", " (entryText e ++ ", " ++ r) = .ok e := by
    intro e he r
    obtain ⟨hkey, htext⟩ := hclean e (List.mem_append_left _ he)
    rw [parseEntry_eq_ok]
    constructor
    · rw [String.append_assoc]
      exact firstAt_key hkey (", " ++ r)
    · rw [String.toList_append, String.toList_append]
      exact delimiter_isMark.firstAt htext
  have hjoin := eachPiece_join (parseEntry ", ") (parseEntry "\x7d") entryText
    (fun e he => (hclean e (List.mem_append_left _ he)).2) hbody
    (clean_close (b := "\x7d") (by decide) htexts _
      (List.mem_append_right _ (List.mem_singleton_self _)))
  rw [parseHashMap, hstart, Except.ok_bind, hjoin]
  cases parseEntry "\x7d" (entryText z ++ "\x7d") <;> rfl

/-- A readable map is given by the texts of its entries. -/
theorem MapReadable.exists_strings {m : StringMap} (h : MapReadable m) :
    ∃ ys z, m.map.entries = (ys ++ [z]).map (fun e => (some e.1, some e.2)) ∧
      (∀ e ∈ ys ++ [z], '=' ∉ e.1.toList ∧ ¬ ", ".toList <:+: (entryText e).toList) ∧
      '}' ∉ z.1.toList ∧ '}' ∉ z.2.toList := by
  obtain ⟨es, hes⟩ : ∃ es : List (String × String), m.map.entries = es.map fun e =>
      (some e.1, some e.2) := by
    refine ⟨m.map.entries.map fun e => (e.1.getD "", e.2.getD ""), ?_⟩
    rw [List.map_map]
    refine (List.map_id _).symm.trans (List.map_congr_left fun e he => ?_)
    obtain ⟨k, v, rfl, -⟩ := h.entry e he
    rfl
  obtain ⟨ys, z, rfl⟩ := (List.eq_nil_or_concat' es).resolve_left (by
    rintro rfl
    exact h.nonempty hes)
  refine ⟨ys, z, hes, fun e he => ?_, h.last z.1 z.2 (by simp [hes])⟩
  obtain ⟨k, v, heq, hkey, hk, hv⟩ :=
    h.entry (some e.1, some e.2) (by rw [hes]; exact List.mem_map_of_mem he)
  simp only [Prod.mk.injEq, Option.some.injEq] at heq
  rw [← heq.1] at hkey hk
  rw [← heq.2] at hv
  exact ⟨hkey, entryText_clean.mpr ⟨hk, hv⟩⟩

theorem parse_mapToString (m : StringMap) :
    (∃ m', parseHashMap m.toString = .ok m' ∧ StringMap.Same (some m') (some m)) ↔
    MapReadable m := by
  constructor
  · rintro ⟨m', hparse, hsame⟩
    obtain ⟨s, es, -, -, rfl, hne, hclean⟩ := parseHashMap_eq_ok hparse
    obtain ⟨ys, z, hentries, hmem, -⟩ := exists_entries hne hsame
    have hfree := fun e he => hclean e (hmem e he)
    rw [parseHashMap_toString hentries hfree] at hparse
    cases hlast : parseEntry "\x7d" (entryText z ++ "\x7d") with
    | error e =>
        rw [hlast] at hparse
        cases hparse
    | ok z' =>
        rw [hlast] at hparse
        have hmap : StringMap.ofEntries (ys ++ [z']) = StringMap.ofEntries es :=
          Except.ok.inj hparse
        -- what is read last has the key of the last entry, and its value is the one that is found
        have hkey : z'.1 = z.1 := String.toList_inj.mp
          ((parseEntry_eq_ok.mp hlast).1.unique (firstAt_key (hfree z (by simp)).1 "\x7d"))
        have hvalue : z'.2 = z.2 := by
          have hget := hsame (some z'.1)
          rw [← hmap, get_ofEntries_last, hkey,
            HashMap.get_of_mem m.nodup (v := some z.2) (by simp [hentries])] at hget
          exact Option.some.inj (Option.some.inj hget)
        obtain rfl : z' = z := Prod.ext hkey hvalue
        have hbrace := mt (List.singleton_infix_iff '}' _).mpr
          (parseEntry_clean brace_isMark hlast).2
        rw [mem_entryText, not_or, not_or] at hbrace
        refine ⟨by simp [hentries], fun e he => ?_, fun k v he => ?_⟩
        · rw [hentries] at he
          obtain ⟨e', he', rfl⟩ := List.mem_map.mp he
          obtain ⟨hequals, htext⟩ := hfree e' he'
          exact ⟨e'.1, e'.2, rfl, hequals, entryText_clean.mp htext⟩
        · have heq : z'.1 = k ∧ z'.2 = v := by simpa [hentries] using he
          rw [← heq.1, ← heq.2]
          exact ⟨hbrace.1, hbrace.2.2⟩
  · intro h
    obtain ⟨ys, z, hentries, hclean, hkey, hvalue⟩ := h.exists_strings
    have hbrace : '}' ∉ (entryText z).toList := by
      rw [mem_entryText, not_or, not_or]
      exact ⟨hkey, by decide, hvalue⟩
    have hlast : parseEntry "\x7d" (entryText z ++ "\x7d") = .ok z := by
      refine parseEntry_eq_ok.mpr ⟨firstAt_key (hclean z (by simp)).1 "\x7d", ?_⟩
      have hfirst := brace_isMark.firstAt (mt (List.singleton_infix_iff '}' _).mp hbrace) (r := [])
      rwa [List.append_nil, ← String.toList_append] at hfirst
    refine ⟨StringMap.ofEntries (ys ++ [z]), ?_, fun k => ?_⟩
    · rw [parseHashMap_toString hentries hclean, hlast]
      rfl
    · rw [StringMap.map_ofEntries, ← hentries]
      exact HashMap.get_ofEntries m.nodup k

/-- A map is not read from a text that breaks off at a delimiter. -/
theorem parse_mapToString_break {m m' : StringMap} {string : String} {w : List Char}
    (htext : m.toString.toList = string.toList ++ ", ".toList ++ w)
    (h : parseHashMap string = .ok m') : ¬ StringMap.Same (some m') (some m) := by
  intro hsame
  obtain ⟨s, es, hs, hes, rfl, hne, hclean⟩ := parseHashMap_eq_ok h
  obtain ⟨ys, z, hentries, hmem, hlength⟩ := exists_entries hne hsame
  rw [toString_concat hentries, List.append_assoc] at htext
  have hbody := substringFrom_one_append (by decide) hs htext
  rw [← List.append_assoc] at hbody
  have htexts : ∀ t ∈ ys.map entryText ++ [entryText z], ¬ ", ".toList <:+: t.toList := by
    intro t ht
    rw [← List.map_singleton, ← List.map_append] at ht
    obtain ⟨e, he, rfl⟩ := List.mem_map.mp ht
    exact (hclean e (hmem e he)).2
  have hlt := eachPiece_length_lt hes (clean_close (by decide) htexts) (by simp) hbody
  simp only [List.length_append, List.length_map, List.length_singleton] at hlt hlength
  omega

end ContractsDecorator

end Sxp
