-- SUMMARY: The positions that reading returns: of the header the one behind its own text, of a section one counted from its start.
import Sxp.Save.Stack

/-!
# Positions

The header returns the position behind its own text. The decorators of contracts and of messages
return a position counted from where their section starts, with the position of the first entity
added to it once more, and the decorator of items looks for its end in the whole text.
-/

namespace Sxp

open Text (Free indexOf between after substringFrom)

namespace Text

variable {s b c p r w : String}

theorem infix_append (p b r : String) : b.toList <:+: (p ++ b ++ r).toList := by
  rw [String.toList_append, String.toList_append]
  exact List.infix_append _ _ _

theorem indexOf_le (hs : s = p ++ b ++ r) : indexOf s b ≤ p.length := by
  have hlists : s.toList = p.toList ++ b.toList ++ r.toList := by
    rw [hs, String.toList_append, String.toList_append]
  obtain ⟨q, hq⟩ := exists_firstAt (s := s) (b := b) ⟨p.toList, r.toList, hlists.symm⟩
  have hfirst := hq.2 p.toList r.toList hlists
  rw [String.length_toList, String.length_toList] at hfirst
  rw [indexOf_firstAt hq]
  exact_mod_cast hfirst

/-- A text whose first character is not among those in front is found behind them. -/
theorem le_indexOf {u : Char} (hu : b.toList.head? = some u) (hw : u ∉ w.toList)
    (h : b.toList <:+: s.toList) : (w.length : Int) ≤ indexOf (w ++ s) b := by
  obtain ⟨q, hq⟩ := exists_firstAt h
  have hskip := hq.skip hu hw
  rw [← String.toList_append, ← String.toList_append] at hskip
  rw [indexOf_firstAt hskip, String.length_append]
  omega

theorem exists_between (hb : b ≠ "") (h : indexOf s b + b.length ≤ indexOf s c) :
    ∃ v, between s b c = .ok v := by
  have hindex := neg_one_le_indexOf s b
  have hlength : 0 < b.length := by
    rw [Nat.pos_iff_ne_zero, ne_eq, ← String.length_toList, List.length_eq_zero_iff,
      String.toList_eq_nil_iff]
    exact hb
  have hle : indexOf s c ≤ s.length := by
    by_cases hfound : c.toList <:+: s.toList
    · have := indexOf_add_le hfound
      omega
    · rw [indexOf_eq_neg_one.mpr hfound]
      omega
  rw [between, substring, Marks.slice, if_pos ⟨by omega, h, by rwa [String.length_toList]⟩]
  exact ⟨_, rfl⟩

end Text

/-! ## The header -/

namespace Save

/-- The marks of the header, of the sections and of the entities. -/
def marks : List String :=
  ["</Header>", "<contracts>", "</contracts>", "<items>", "</items>", "<message>", "</message>",
    "ContractEntity [", "]\n", "Item [", "Message [", "]]"]

/-- The text holds none of the marks. -/
def CleanText (s : String) : Prop := ∀ b ∈ marks, Free b s

instance CleanText.decidable (s : String) : Decidable (CleanText s) :=
  inferInstanceAs (Decidable (∀ _ ∈ _, _))

end Save

namespace DatedHeader

variable {zone : TimeZone} {h : DatedHeader}

structure Clean (zone : TimeZone) (h : DatedHeader) : Prop where
  nick : Save.CleanText (h.nick.getD "null")
  id : Save.CleanText (h.id.getD "null")
  date : Save.CleanText (Date.toString zone h.date)

/-- The header up to its end. -/
def front (zone : TimeZone) (h : DatedHeader) : String :=
  "<Header>\n" ++ "User [username=" ++ h.nick.getD "null" ++ ", id=" ++ h.id.getD "null" ++
    "]" ++ "\n" ++ "Date [date=" ++ Date.toString zone h.date ++ "]" ++ "\n"

theorem write_eq : h.write zone = h.front zone ++ "</Header>" := rfl

/-- The header holds no mark that ends a section, and its own end once. -/
theorem front_free (hclean : h.Clean zone) {b : String}
    (hb : b ∈ ["</Header>", "</contracts>", "</items>", "</message>"]) : Free b (h.front zone) := by
  have hmarks : ∀ b ∈ ["</Header>", "</contracts>", "</items>", "</message>"],
      b ∈ Save.marks ∧ Free b "<Header>\n" ∧
        ∀ w ∈ ["User [username=", ", id=", "]", "\n", "Date [date="],
        Marks.Cuts w.toList b.toList := by decide +kernel
  obtain ⟨hmem, hfree, hcuts⟩ := hmarks b hb
  have huser := (hfree.append (hcuts "User [username=" (by simp)) (hclean.nick b hmem)).append
    (hcuts ", id=" (by simp)) (hclean.id b hmem)
  have hline : ∀ {s : String}, Free b s → Free b (s ++ "]" ++ "\n") := fun hs =>
    (hs.append_right (hcuts "]" (by simp))).append_right (hcuts "\n" (by simp))
  exact hline ((hline huser).append (hcuts "Date [date=" (by simp)) (hclean.date b hmem))

theorem append_lines (f m d r : String) :
    f ++ "]" ++ "\n" ++ m ++ d ++ "]" ++ "\n" ++ r = f ++ "]\n" ++ (m ++ d ++ "]\n" ++ r) := by
  have hline : "]\n" = "]" ++ "\n" := by decide
  rw [hline]
  simp only [String.append_assoc]

/-- Between the first `]` at the end of a line and the marks in front of it there is a text. -/
theorem read_lines {nick id date : String} (hnick : Free "]\n" nick) (hid : Free "]\n" id)
    (r : String) {s : String}
    (hs : s = "<Header>\n" ++ "User [username=" ++ nick ++ ", id=" ++ id ++ "]" ++ "\n" ++
      "Date [date=" ++ date ++ "]" ++ "\n" ++ r) :
    (∃ v, between s ", id=" "]\n" = .ok v) ∧ (∃ v, between s "username=" ", id=" = .ok v) ∧
      ∃ s2, after s "]\n" = .ok s2 ∧ ∃ v, between s2 "Date [date=" "]\n" = .ok v := by
  rw [append_lines] at hs
  have hbracket : Marks.IsMark ']' '\n' "]\n".toList := by decide
  have hfree : Free "]\n" ("<Header>\n" ++ "User [username=" ++ nick ++ ", id=" ++ id) := by
    have hstart : Free "]\n" "<Header>\n" := by decide
    exact (hstart.append (by decide) hnick).append (by decide) hid
  have hend : Marks.FirstAt "]\n".toList ("<Header>\n" ++ "User [username=" ++ nick ++ ", id=" ++
    id).toList s.toList := by
    rw [hs]
    exact Text.firstAt_of_free hbracket hfree
  refine ⟨?_, ?_, ?_⟩
  · have hle : indexOf s ", id=" ≤ ("<Header>\n" ++ "User [username=" ++ nick).length := by
      refine Text.indexOf_le (r := id ++ "]\n" ++ ("Date [date=" ++ date ++ "]\n" ++ r)) ?_
      rw [hs]
      simp only [String.append_assoc]
    refine Text.exists_between (by decide) ?_
    rw [Text.indexOf_firstAt hend, String.length_append _ id, String.length_append _ ", id="]
    omega
  · have hle : indexOf s "username=" ≤ ("<Header>\n" ++ "User [").length := by
      have hsplit : "User [username=" = "User [" ++ "username=" := by decide
      refine Text.indexOf_le (r := nick ++ ", id=" ++ id ++ "]\n" ++
        ("Date [date=" ++ date ++ "]\n" ++ r)) ?_
      rw [hs, hsplit]
      simp only [String.append_assoc]
    have hge : (("<Header>\n" ++ "User [username=").length : Int) ≤ indexOf s ", id=" := by
      have hfound := Text.infix_append nick ", id="
        (id ++ "]\n" ++ ("Date [date=" ++ date ++ "]\n" ++ r))
      have hindex := Text.le_indexOf (u := ',') (by decide) (w := "<Header>\n" ++ "User [username=")
        (by decide) hfound
      rw [hs]
      simpa only [String.append_assoc] using hindex
    have hlength : ("<Header>\n" ++ "User [").length + "username=".length =
        ("<Header>\n" ++ "User [username=").length := by
      decide
    exact Text.exists_between (by decide) (by omega)
  · refine ⟨"Date [date=" ++ date ++ "]\n" ++ r, Text.substringFrom_firstAt hend hs, ?_⟩
    have hle : indexOf ("Date [date=" ++ date ++ "]\n" ++ r) "Date [date=" ≤ "".length :=
      Text.indexOf_le (r := date ++ "]\n" ++ r) (by
        simp only [String.append_assoc, String.empty_append])
    have hge : ("Date [date=".length : Int) ≤
        indexOf ("Date [date=" ++ date ++ "]\n" ++ r) "]\n" := by
      have hfound := Text.infix_append date "]\n" r
      have hindex := Text.le_indexOf (u := ']') (by decide) (w := "Date [date=") (by decide) hfound
      simpa only [String.append_assoc] using hindex
    have hempty : "".length = 0 := rfl
    exact Text.exists_between (by decide) (by omega)

/-- The header reads what it wrote, whatever follows. -/
theorem read_append (hclean : h.Clean zone) (t : String) :
    ∃ h', h.read zone (h.write zone ++ t) = .ok ((h.write zone).length, h') := by
  have hmark : Marks.IsMark '<' '>' "</Header>".toList := by decide
  have hend := Text.firstAt_of_free (r := t) hmark (front_free hclean (by decide))
  rw [← write_eq] at hend
  have hsplit : h.write zone ++ t = h.front zone ++ ("</Header>" ++ t) := String.append_assoc
  obtain ⟨⟨id, hid⟩, ⟨nick, hnick⟩, s2, hs2, date, hdate⟩ :=
    read_lines (hclean.nick "]\n" (by decide)) (hclean.id "]\n" (by decide))
      ("</Header>" ++ t) hsplit
  refine ⟨{ nick := some nick, id := some id,
            date := (SimpleDateFormat.parse zone date).getD h.date }, ?_⟩
  rw [read, hid, Except.ok_bind, hnick, Except.ok_bind, hs2, Except.ok_bind, hdate, Except.ok_bind,
    Text.indexOf_firstAt hend, write_eq, String.length_append, Nat.cast_add]
  rfl

end DatedHeader

/-! ## Sections -/

namespace SaveSection

variable {E : Type} (c : SaveSection E) {stored : List (E × Bool)} {below t : String}

/-- The section up to its end. -/
def body (stored : List (E × Bool)) : String := "\n" ++ c.sectionBegin ++ "\n" ++ c.records stored

theorem write_eq (below : String) (stored : List (E × Bool)) :
    c.write below stored = below ++ (c.body stored ++ c.sectionEnd) := by
  rw [write, body]
  simp only [String.append_assoc]

theorem write_append (below : String) (stored : List (E × Bool)) (t : String) :
    c.write below stored ++ t = below ++ (c.body stored ++ (c.sectionEnd ++ t)) := by
  rw [write_eq, String.append_assoc, String.append_assoc]

/-- The loop of the section gets through the entities that are written. -/
def Parsed (stored : List (E × Bool)) : Prop :=
  ∃ r, c.readLoop (c.body stored) (indexOf (c.body stored) c.entityBegin) = .ok r

theorem lines_free {m s : String} {ts : List String} (hline : Marks.Cuts "\n".toList m.toList)
    (hs : Free m s)
    (hts : ∀ t ∈ ts, Free m t) : Free m (s ++ "\n" ++ String.join (ts.map fun t => t ++ "\n")) := by
  induction ts generalizing s with
  | nil =>
      rw [List.map_nil, String.join_nil, String.append_empty]
      exact hs.append_right hline
  | cons t ts ih =>
      rw [List.forall_mem_cons] at hts
      have hrest := ih (hs.append hline hts.1) hts.2
      rw [List.map_cons, String.join_cons]
      simpa only [String.append_assoc] using hrest

/-- The section does not hold its end before the end. -/
theorem body_free (hstored : ∀ x ∈ stored, Free c.sectionEnd (c.text x.1)) :
    Free c.sectionEnd (c.body stored) := by
  have hrecords : c.records stored =
      String.join (((stored.filter Prod.snd).map fun x => c.text x.1).map fun t => t ++ "\n") := by
    rw [List.map_map]
    rfl
  rw [body, hrecords]
  refine lines_free c.line c.begin_free ?_
  rw [List.forall_mem_map]
  exact fun x hx => hstored x (List.mem_of_mem_filter hx)

/-- The first entity stands right behind the begin of the section. -/
theorem first_le (stored : List (E × Bool)) :
    indexOf (c.body stored) c.entityBegin ≤ ("\n" ++ c.sectionBegin ++ "\n").length := by
  rw [body, records]
  cases stored.filter Prod.snd with
  | nil =>
      rw [List.map_nil, String.join_nil, String.append_empty]
      by_cases hfound : c.entityBegin.toList <:+: ("\n" ++ c.sectionBegin ++ "\n").toList
      · have hle := Text.indexOf_add_le hfound
        omega
      · rw [Text.indexOf_eq_neg_one.mpr hfound]
        omega
  | cons x xs =>
      obtain ⟨r, hr⟩ := c.text_begin x.1
      refine Text.indexOf_le (r := r ++ "\n" ++ String.join (xs.map fun x => c.text x.1 ++ "\n")) ?_
      rw [List.map_cons, String.join_cons, hr]
      simp only [String.append_assoc]

/-- The end of the section and a text without the marks of the entities change nothing in the
loop. -/
theorem foreign (hbegin : Free c.entityBegin t) (hend : Free c.entityEnd t) :
    c.Foreign (c.sectionEnd ++ t) := by
  intro a
  simp only [indexOf, String.toList_append]
  exact ⟨c.end_begin.indexOf_append hbegin _, c.end_end.indexOf_append hend _⟩

theorem substringFrom_append (below s : String) :
    substringFrom (below ++ s) below.length = .ok s := by
  rw [Text.substringFrom_eq_ok]
  exact ⟨below, rfl, rfl⟩

/-- The loop on a section whose entities are read, and what it leaves in front of the end. -/
theorem readLoop_body (hbegin : Free c.entityBegin t) (hend : Free c.entityEnd t)
    (stored : List (E × Bool)) :
    c.readLoop (c.body stored ++ (c.sectionEnd ++ t))
      (indexOf (c.body stored ++ (c.sectionEnd ++ t)) c.entityBegin) =
      (c.readLoop (c.body stored) (indexOf (c.body stored) c.entityBegin)).map
        fun r => (r.1, r.2.1, r.2.2 ++ (c.sectionEnd ++ t)) := by
  have hforeign := c.foreign hbegin hend
  rw [(hforeign _).1, EntityReader.readLoop_append hforeign]

/-- Reading the section behind `below` adds the position of the first entity to its length. -/
theorem read_section (hbegin : Free c.entityBegin t) (hend : Free c.entityEnd t)
    (hfree : Free c.sectionEnd (c.body stored)) {r : Int × List (Option E)}
    (h : c.read (below ++ (c.body stored ++ (c.sectionEnd ++ t))) below.length = .ok r) :
    r.1 = indexOf (c.body stored) c.entityBegin + (c.body stored ++ c.sectionEnd).length := by
  rw [read, substringFrom_append, Except.ok_bind, c.readLoop_body hbegin hend] at h
  cases hloop : c.readLoop (c.body stored) (indexOf (c.body stored) c.entityBegin) with
  | error x =>
      rw [hloop] at h
      cases h
  | ok found =>
      obtain ⟨entities, offset, rest⟩ := found
      obtain ⟨p, hp, hoffset⟩ := EntityReader.readLoop_eq_ok hloop
      rw [hloop] at h
      cases h
      have hrest : Free c.sectionEnd rest := by
        rw [hp] at hfree
        intro hfound
        refine hfree (hfound.trans ?_)
        rw [String.toList_append]
        exact List.infix_append_right
      have hindex := Text.indexOf_firstAt (Text.firstAt_of_free (r := t) c.end_isMark hrest)
      rw [String.append_assoc] at hindex
      dsimp only
      rw [hindex, hoffset, String.length_append, hp, String.length_append]
      omega

/-- The position is never the one behind the section, since the save below wrote more than the
begin of a section. -/
theorem read_ne (hbegin : Free c.entityBegin t) (hend : Free c.entityEnd t)
    (hfree : Free c.sectionEnd (c.body stored))
    (hbelow : ("\n" ++ c.sectionBegin ++ "\n").length < below.length)
    {r : Int × List (Option E)} (h : c.read (c.write below stored ++ t) below.length = .ok r) :
    r.1 ≠ (c.write below stored).length := by
  rw [write_append] at h
  have hposition := c.read_section hbegin hend hfree h
  have hfirst := c.first_le stored
  rw [hposition, write_eq, String.length_append below]
  omega

/-- The loop throws where a mark that begins an entity stands at the end of the text. -/
theorem read_begin (below x : String) :
    ∃ e, c.read (below ++ (x ++ c.entityBegin)) below.length = .error e := by
  obtain ⟨e, he⟩ := @EntityReader.readLoop_begin E c.toEntityReader x
    (indexOf (x ++ c.entityBegin) c.entityBegin)
  refine ⟨e, ?_⟩
  rw [read, substringFrom_append, Except.ok_bind, he]
  rfl

end SaveSection

namespace ItemsDecorator

variable {zone : TimeZone} {stored : List (Item × Bool)} {below s t : String} {offset : Int}

/-- The position is that of the first end of items in the whole text. -/
theorem read_eq_ok {r : Int × List (Option Item)} (h : read zone s offset = .ok r) :
    r.1 = indexOf s "</items>" + "</items>".length := by
  simp only [read, Except.bind_eq_ok, Except.pure_eq_ok] at h
  obtain ⟨str, -, found, -, rfl⟩ := h
  rfl

theorem exists_read_iff (hbegin : Free "Item [" t) (hend : Free "]]" t) :
    (∃ r, read zone (below ++ ((saveSection zone).body stored ++ ("</items>" ++ t))) below.length =
      .ok r) ↔ (saveSection zone).Parsed stored := by
  have hloop : (saveSection zone).readLoop ((saveSection zone).body stored ++ ("</items>" ++ t))
      (indexOf ((saveSection zone).body stored ++ ("</items>" ++ t)) "Item [") = _ :=
    (saveSection zone).readLoop_body hbegin hend stored
  rw [read, SaveSection.substringFrom_append, Except.ok_bind, hloop, SaveSection.Parsed]
  cases (saveSection zone).readLoop ((saveSection zone).body stored)
      (indexOf ((saveSection zone).body stored) (saveSection zone).entityBegin) with
  | error x => exact iff_of_false (by rintro ⟨r, hr⟩; cases hr) (by rintro ⟨r, hr⟩; cases hr)
  | ok found => exact iff_of_true ⟨_, rfl⟩ ⟨_, rfl⟩

theorem read_begin (below x : String) :
    ∃ e, read zone (below ++ (x ++ "Item [")) below.length = .error e := by
  obtain ⟨e, he⟩ := @EntityReader.readLoop_begin Item (saveSection zone).toEntityReader x
    (indexOf (x ++ "Item [") "Item [")
  refine ⟨e, ?_⟩
  rw [read, SaveSection.substringFrom_append, Except.ok_bind]
  exact congrArg (fun r => r >>= _) he

end ItemsDecorator

end Sxp
