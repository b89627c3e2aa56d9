-- SUMMARY: A backup that is saved to the file and loaded again: what the managers are given, in spite of the positions.
import Sxp.Save.Layers
import Sxp.Save.Restored

/-!
# Backups

The position that the decorator of contracts returns lies in front of the items, and so do the marks
which that of the items looks for. A load therefore gives the managers what was written, as long as
the texts in between hold none of the marks.
-/

namespace Sxp

open Text (Free indexOf between substring substringFrom)

namespace Text

variable {b c s w : String} {i j : Int}

theorem substring_append_left (hi : 0 ≤ i) :
    substring (w ++ s) (w.length + i) (w.length + j) = substring s i j := by
  have hslice : Marks.slice (w.length + i) (w.length + j) (w ++ s).toList =
      Marks.slice i j s.toList := by
    rw [Marks.slice, Marks.slice, String.toList_append, List.length_append, String.length_toList]
    by_cases h : 0 ≤ i ∧ i ≤ j ∧ j ≤ s.toList.length
    · have hbounds : (0 : Int) ≤ w.length + i ∧ (w.length + i : Int) ≤ w.length + j ∧
          (w.length + j : Int) ≤ (w.length + s.toList.length : Nat) := by
        rw [Nat.cast_add]
        omega
      have hi' : (w.length + i : Int).toNat = w.toList.length + i.toNat := by
        rw [String.length_toList]
        omega
      have hj' : (w.length + j : Int).toNat = w.toList.length + j.toNat := by
        rw [String.length_toList]
        omega
      rw [if_pos h, if_pos hbounds, hi', hj', List.take_length_add_append,
        List.drop_length_add_append]
    · have hbounds : ¬ ((0 : Int) ≤ w.length + i ∧ (w.length + i : Int) ≤ w.length + j ∧
          (w.length + j : Int) ≤ (w.length + s.toList.length : Nat)) := by
        rw [Nat.cast_add]
        omega
      rw [if_neg h, if_neg hbounds]
  rw [substring, substring, hslice]

/-- The first `b` behind `w` is the first one of what follows. -/
def Skips (b w : String) : Prop :=
  ∀ p s : String, Marks.FirstAt b.toList p.toList s.toList →
    Marks.FirstAt b.toList (w ++ p).toList (w ++ s).toList

theorem skips_of_head {u : Char} (hu : b.toList.head? = some u) (hw : u ∉ w.toList) :
    Skips b w := by
  intro p s h
  rw [String.toList_append, String.toList_append]
  exact h.skip hu hw

/-- The end of a line cuts off what is in front of it. -/
theorem skips_line (hb : '\n' ∉ b.toList) (hne : b.toList ≠ []) (hw : Free b w) :
    Skips b (w ++ "\n") := by
  intro p s h
  obtain ⟨u, t, hu⟩ := List.exists_cons_of_ne_nil hne
  have hline : Marks.FirstAt b.toList ('\n' :: p.toList) ('\n' :: s.toList) := by
    refine h.skip (w := ['\n']) (u := u) (by rw [hu]; rfl) ?_
    rintro hmem
    obtain rfl := List.mem_singleton.mp hmem
    exact hb (by rw [hu]; exact List.mem_cons_self)
  have hcut := hline.append_left (fun hmem => hb (List.mem_of_mem_tail hmem)) hw
  have hnewline : "\n".toList = ['\n'] := by decide
  simpa only [String.toList_append, hnewline, List.append_assoc, List.singleton_append] using hcut

theorem Skips.indexOf (h : Skips b w) (hfound : b.toList <:+: s.toList) :
    Text.indexOf (w ++ s) b = w.length + Text.indexOf s b := by
  obtain ⟨p, hp⟩ := exists_firstAt hfound
  rw [indexOf_firstAt (h p s hp), indexOf_firstAt hp, String.length_append, Nat.cast_add]

theorem zero_le_indexOf (hfound : b.toList <:+: s.toList) : 0 ≤ Text.indexOf s b := by
  obtain ⟨p, hp⟩ := exists_firstAt hfound
  rw [indexOf_firstAt hp]
  exact Int.natCast_nonneg _

/-- What stands between two marks behind `w` is what stands between them in the text that
follows. -/
theorem substring_skip {k l : Nat} (hb : Skips b w) (hc : Skips c w)
    (hfound : b.toList <:+: s.toList) (hfound' : c.toList <:+: s.toList) :
    substring (w ++ s) (Text.indexOf (w ++ s) b + k) (Text.indexOf (w ++ s) c + l) =
      substring s (Text.indexOf s b + k) (Text.indexOf s c + l) := by
  have hindex := zero_le_indexOf hfound
  rw [hb.indexOf hfound, hc.indexOf hfound', add_assoc, add_assoc, substring_append_left (by omega)]

theorem between_skip (hb : Skips b w) (hc : Skips c w) (hfound : b.toList <:+: s.toList)
    (hfound' : c.toList <:+: s.toList) : between (w ++ s) b c = between s b c := by
  have hsubstring := substring_skip (k := b.length) (l := 0) hb hc hfound hfound'
  rwa [Nat.cast_zero, add_zero, add_zero] at hsubstring

end Text

/-! ## Reading the lines of a section -/

/-- The entities that are written. -/
def written {E : Type} (stored : List (E × Bool)) : List E := (stored.filter Prod.snd).map Prod.fst

namespace SaveSection

variable {E : Type} (c : SaveSection E)

/-- The texts of the entities, each with the end of its line. -/
def lines (es : List E) : String := String.join (es.map fun e => c.text e ++ "\n")

theorem records_eq (stored : List (E × Bool)) : c.records stored = c.lines (written stored) := by
  rw [records, lines, written, List.map_map]
  rfl

theorem body_eq (stored : List (E × Bool)) :
    c.body stored = "\n" ++ c.sectionBegin ++ "\n" ++ c.lines (written stored) := by
  rw [body, records_eq]

/-- The line of the entity holds the end mark where it closes, and not before. -/
def Closes (e : E) : Prop :=
  ∃ p r, c.text e ++ "\n" = p ++ c.entityEnd ++ r ∧ (r = "" ∨ r = "\n") ∧
    Marks.FirstAt c.entityEnd.toList p.toList (c.text e ++ "\n").toList

/-- The reading of an entity is the same with the text in front of it. -/
structure PassesOver (w : String) : Prop where
  free : Free c.entityBegin w
  cut : Text.Skips c.entityEnd w
  first : ∀ s, c.entityBegin.toList <:+: s.toList → c.entityEnd.toList <:+: s.toList →
    c.readFirst (w ++ s) = c.readFirst s

variable {c} {e : E} {es : List E} {w r t : String}

theorem passesOver_empty : c.PassesOver "" where
  free := by
    rw [Free, String.toList_empty, List.infix_nil, String.toList_eq_nil_iff]
    exact c.begin_ne
  cut _ _ h := by rwa [String.empty_append, String.empty_append]
  first _ _ _ := by rw [String.empty_append]

theorem lines_cons (e : E) (es : List E) : c.lines (e :: es) = c.text e ++ "\n" ++ c.lines es := by
  rw [lines, List.map_cons, String.join_cons, ← lines]

/-- An entity is read from its line, whatever stands behind it and whatever is passed over in front
of it. -/
theorem PassesOver.readFirst (hw : c.PassesOver w) (he : c.Closes e) (v : String) :
    c.readFirst (w ++ (c.text e ++ "\n" ++ v)) = c.readFirst (c.text e ++ "\n") := by
  obtain ⟨b, hbegin⟩ := c.text_begin e
  obtain ⟨p, r, hsplit, -, hp⟩ := he
  have hstart : ∀ v, Marks.FirstAt c.entityBegin.toList "".toList
      (c.text e ++ "\n" ++ v).toList := by
    intro v
    rw [hbegin, String.toList_empty]
    simp only [String.toList_append, List.append_assoc]
    exact Marks.FirstAt.start
  have hclose := hp.extend v.toList
  rw [← String.toList_append] at hclose
  rw [hw.first _ (hstart v).isInfix hclose.isInfix]
  refine c.readFirst_append _ v ?_ ?_
  · have hline := hstart ""
    rw [String.append_empty] at hline
    rw [Text.indexOf_firstAt (hstart v), Text.indexOf_firstAt hline]
  · rw [Text.indexOf_firstAt hclose, Text.indexOf_firstAt hp]

/-- The loop reads every line by itself, and leaves what is behind the last end mark. -/
theorem readLoop_lines (hes : ∀ e ∈ es, c.Closes e) (hline : c.PassesOver "\n")
    (hw : c.PassesOver w) (ht : Free c.entityBegin t) (offset : Int) :
    ∃ q r, w ++ c.lines es = q ++ r ∧ (r = w ∨ r = "" ∨ r = "\n") ∧
      c.readLoop (w ++ c.lines es ++ (c.sectionEnd ++ t)) offset =
        (es.mapM fun e => c.readFirst (c.text e ++ "\n")).map
          fun found => (found, offset + q.length, r ++ (c.sectionEnd ++ t)) := by
  induction es generalizing w offset with
  | nil =>
      have hempty : w ++ c.lines [] = w := String.append_empty
      refine ⟨"", w, by rw [hempty, String.empty_append], Or.inl rfl, ?_⟩
      have hdone : indexOf (w ++ (c.sectionEnd ++ t)) c.entityBegin = -1 := by
        rw [Text.indexOf_eq_neg_one, ← String.append_assoc]
        exact hw.free.append c.end_begin ht
      rw [hempty, EntityReader.readLoop_done hdone, List.mapM_nil]
      exact congrArg (fun n => Except.ok ([], n, w ++ (c.sectionEnd ++ t))) (add_zero offset).symm
  | cons e es ih =>
      rw [List.forall_mem_cons] at hes
      obtain ⟨p, r, hsplit, hr, hp⟩ := id hes.1
      have hrest : c.PassesOver r := by
        rcases hr with rfl | rfl
        · exact passesOver_empty
        · exact hline
      obtain ⟨q', r', hq', hr', hloop⟩ := ih hes.2 hrest (offset + (w ++ p ++ c.entityEnd).length)
      have hleft : r' = w ∨ r' = "" ∨ r' = "\n" := by
        rcases hr' with rfl | hr'
        · exact Or.inr hr
        · exact Or.inr hr'
      have hlines : w ++ c.lines (e :: es) = w ++ p ++ c.entityEnd ++ (r ++ c.lines es) := by
        rw [lines_cons, hsplit]
        simp only [String.append_assoc]
      refine ⟨w ++ p ++ c.entityEnd ++ q',
        r', by rw [hlines, hq', ← String.append_assoc], hleft, ?_⟩
      -- the text as a line with what follows, and as it is cut behind the end mark
      have hline' : w ++ c.lines (e :: es) ++ (c.sectionEnd ++ t) =
          w ++ (c.text e ++ "\n" ++ (c.lines es ++ (c.sectionEnd ++ t))) := by
        rw [lines_cons]
        simp only [String.append_assoc]
      have hcut : w ++ c.lines (e :: es) ++ (c.sectionEnd ++ t) =
          w ++ p ++ c.entityEnd ++ (r ++ c.lines es ++ (c.sectionEnd ++ t)) := by
        rw [hlines]
        simp only [String.append_assoc]
      have hread := hw.readFirst hes.1 (c.lines es ++ (c.sectionEnd ++ t))
      rw [← hline'] at hread
      have hbegin : indexOf (w ++ c.lines (e :: es) ++ (c.sectionEnd ++ t)) c.entityBegin ≠ -1 := by
        obtain ⟨b, hb⟩ := c.text_begin e
        rw [ne_eq, Text.indexOf_eq_neg_one, not_not, hline', hb]
        simp only [String.toList_append, List.append_assoc]
        exact (List.prefix_append _ _).isInfix.trans (List.suffix_append _ _).isInfix
      have hclose : Marks.FirstAt c.entityEnd.toList (w ++ p).toList
          (w ++ c.lines (e :: es) ++ (c.sectionEnd ++ t)).toList := by
        rw [hline']
        refine hw.cut p _ ?_
        rw [String.toList_append]
        exact hp.extend _
      rw [List.mapM_cons]
      cases hfirst : c.readFirst (c.text e ++ "\n") with
      | error x =>
          rw [EntityReader.readLoop_error hbegin (hread.trans hfirst)]
          rfl
      | ok entity =>
          rw [hfirst] at hread
          rw [hcut] at hbegin hclose hread ⊢
          rw [EntityReader.readLoop_round hbegin hread hclose, hloop]
          cases es.mapM fun e => c.readFirst (c.text e ++ "\n") with
          | error x => rfl
          | ok found =>
              have hlength : offset + ((w ++ p ++ c.entityEnd).length : Int) + q'.length =
                  offset + (w ++ p ++ c.entityEnd ++ q').length := by
                rw [String.length_append _ q', Nat.cast_add, add_assoc]
              exact congrArg (fun n =>
                Except.ok (entity :: found, n, r' ++ (c.sectionEnd ++ t))) hlength

/-- Reading behind `below` what a section wrote: every line by itself, and a position in which the
first entity counts once more. -/
theorem read_lines {below : String} {stored : List (E × Bool)}
    (hes : ∀ e ∈ written stored, c.Closes e)
    (hline : c.PassesOver "\n") (hbegin : c.PassesOver ("\n" ++ c.sectionBegin ++ "\n"))
    (ht : Free c.entityBegin t) : c.read (c.write below stored ++ t) below.length =
      ((written stored).mapM fun e => c.readFirst (c.text e ++ "\n")).map fun found =>
        (indexOf (c.body stored) c.entityBegin + (c.body stored ++ c.sectionEnd).length,
          found) := by
  have hfirst : indexOf (c.body stored ++ (c.sectionEnd ++ t)) c.entityBegin =
      indexOf (c.body stored) c.entityBegin := by
    rw [indexOf, indexOf, String.toList_append, String.toList_append]
    exact c.end_begin.indexOf_append ht _
  obtain ⟨q, r, hq, hr, hloop⟩ :=
    readLoop_lines hes hline hbegin ht (indexOf (c.body stored) c.entityBegin)
  rw [← body_eq] at hloop hq
  have hfree : Free c.sectionEnd r := by
    have hends : Marks.Cuts "\n".toList c.sectionEnd.toList := c.line
    rcases hr with rfl | rfl | rfl
    · exact c.begin_free.append_right hends
    · exact Free.empty hends
    · exact hends.2.2.2.2
  have hindex := Text.indexOf_firstAt (Text.firstAt_of_free (r := t) c.end_isMark hfree)
  rw [String.append_assoc] at hindex
  rw [write_append, read, substringFrom_append, Except.ok_bind, hfirst, hloop]
  cases (written stored).mapM fun e => c.readFirst (c.text e ++ "\n") with
  | error x => rfl
  | ok found =>
      have hposition : indexOf (c.body stored) c.entityBegin + q.length +
          indexOf (r ++ (c.sectionEnd ++ t)) c.sectionEnd +
          c.sectionEnd.length = indexOf (c.body stored) c.entityBegin +
          (c.body stored ++ c.sectionEnd).length := by
        rw [hindex, hq, String.length_append, String.length_append q]
        omega
      exact congrArg (fun n => Except.ok (n, found)) hposition

theorem append_lines_free {m a : String} (hline : Marks.Cuts "\n".toList m.toList) (ha : Free m a)
    (hes : ∀ e ∈ es, Free m (c.text e)) : Free m (a ++ "\n" ++ c.lines es) := by
  have hlines : Free m (a ++ "\n" ++ String.join ((es.map c.text).map fun s => s ++ "\n")) :=
    lines_free hline ha (by rwa [List.forall_mem_map])
  rwa [List.map_map] at hlines

/-- A mark that has nothing in common with those of the section is not in it. -/
theorem write_free {m below : String} {stored : List (E × Bool)} (hbelow : Free m below)
    (hline : Marks.Cuts "\n".toList m.toList)
    (hbegin : Marks.Cuts ("\n" ++ c.sectionBegin).toList m.toList)
    (hend : Marks.Cuts c.sectionEnd.toList m.toList)
    (hstored : ∀ e ∈ written stored, Free m (c.text e))
    (ht : Free m t) : Free m (c.write below stored ++ t) := by
  have hwrite : c.write below stored =
      below ++ ("\n" ++ c.sectionBegin) ++ "\n" ++ c.lines (written stored) ++ c.sectionEnd := by
    rw [write, records_eq, @String.append_assoc below]
  rw [hwrite]
  exact (append_lines_free hline (hbelow.append_right hbegin) hstored).append hend ht

end SaveSection

/-! ## The three sections -/

/-- The record up to its last field holds none of the marks. -/
theorem CleanRecord.fields_free {id : Option String} {fields : List SavedField} {last b m : String}
    (h : CleanRecord id fields last) (hm : m ∈ Save.marks)
    (hb : Marks.Cuts (b ++ "id=").toList m.toList)
    (hmarks : ∀ w ∈ fields.map SavedField.mark, Marks.Cuts w.toList m.toList) :
    Free m (recordText b id fields) := by
  rw [List.forall_mem_map] at hmarks
  exact recordText_free hb hmarks (h.id m hm) fun f hf => h.fields f hf m hm

/-- The brackets of a signature and of its record close the record. -/
theorem signed_closes {id : Option String} {fields : List SavedField} {b : String}
    (sign : ElGamalSignEntity) (hfields : Free "]]" (recordText b id fields)) :
    Marks.FirstAt "]]".toList (recordText b id fields ++ ", signature=" ++
      signatureText (some sign)).toList
      (recordText b id fields ++ ", signature=" ++ signatureText (some sign) ++ "]]" ++
        "\n").toList := by
  have hmark : ", signature=".toList = ',' :: " signature=".toList := by decide
  have hplain : ']' ∉ ", signature=".toList ++ (signatureText (some sign)).toList := by
    rw [List.mem_append, not_or]
    exact ⟨by decide, signatureText_not_bracket sign⟩
  have hlast := (Marks.FirstAt.start (b := "]]".toList) (r := "\n".toList)).skip (u := ']') (by
    decide) hplain
  rw [hmark, List.append_nil, List.cons_append, List.cons_append] at hlast
  have hclose := hlast.append_left (by decide) hfields
  simpa only [String.toList_append, hmark, List.append_assoc, List.cons_append] using hclose

namespace ContractsDecorator

variable {zone : TimeZone} {c : ContractEntity} {w : String}

theorem passesOver (hbegin : Free "ContractEntity [" w) (hskip : Text.Skips "ContractEntity [" w)
    (hend : Text.Skips "]\n" w) : (saveSection zone).PassesOver w where
  free := hbegin
  cut := hend
  first s hb he := by
    change readContract zone (w ++ s) = readContract zone s
    rw [readContract, readContract, Text.substring_skip hskip hend hb he]

theorem closes (hclean : c.Clean zone) : (saveSection zone).Closes c := by
  refine ⟨recordText "ContractEntity [" c.id (c.fields zone) ++ ", establishementData=" ++
    c.establishementData.getD "null", "", text_append zone c, Or.inl rfl, ?_⟩
  have hmarks : ∀ w ∈ (c.fields zone).map SavedField.mark, Marks.Cuts w.toList "]\n".toList := by
    change ∀ w ∈ [", userid=", ", createdAt=", ", title=", ", clauses=", ", parties=",
      ", partiesNames=", ", wish=", ", status=", ", signatures=", ", establisherType="], _
    decide +kernel
  have hfields := CleanRecord.fields_free (b := "ContractEntity [") hclean (m := "]\n") (by decide)
    (by decide) hmarks
  have hfree := hfields.append (w := ", establishementData=") (by decide)
    (hclean.last "]\n" (by decide))
  have hclose := Text.firstAt_of_free (r := "")
    (by decide : Marks.IsMark ']' '\n' "]\n".toList) hfree
  rwa [← text_append] at hclose

end ContractsDecorator

namespace ItemsDecorator

variable {zone : TimeZone} {i : Item} {w : String}

theorem passesOver (hbegin : Free "Item [" w) (hskip : Text.Skips "Item [" w)
    (hend : Text.Skips "]]" w) : (saveSection zone).PassesOver w where
  free := hbegin
  cut := hend
  first s hb he := by
    change readItem zone (w ++ s) = readItem zone s
    rw [readItem, readItem, Text.between_skip hskip hend hb he]

theorem closes (hclean : i.Clean zone) (hsigned : i.signature.isSome = true) :
    (saveSection zone).Closes i := by
  obtain ⟨sign, hsign⟩ := Option.isSome_iff_exists.mp hsigned
  have hline : i.toString zone ++ "\n" = recordText "Item [" i.id (i.fields zone) ++
      ", signature=" ++ signatureText (some sign) ++ "]]" ++ "\n" := by
    rw [toString_eq, hsign, signText_append]
  have hmarks : ∀ w ∈ (i.fields zone).map SavedField.mark, Marks.Cuts w.toList "]]".toList := by
    change ∀ w ∈ [", title=", ", description=", ", createdAt=", ", pbkey=", ", username=",
      ", userid="], _
    decide +kernel
  refine ⟨_, "\n", hline, Or.inr rfl, ?_⟩
  change Marks.FirstAt "]]".toList _ (i.toString zone ++ "\n").toList
  rw [hline]
  exact signed_closes sign (CleanRecord.fields_free hclean (by decide) (by decide) hmarks)

/-- Reading where text stands in front of the items that is passed over. -/
theorem read_lines {below t : String} {es : List Item} (hes : ∀ i ∈ es, (saveSection zone).Closes i)
    (hline : (saveSection zone).PassesOver "\n") (hw : (saveSection zone).PassesOver w)
    (ht : Free "Item [" t) :
    read zone (below ++ (w ++ (saveSection zone).lines es ++ ("</items>" ++ t))) below.length =
      (es.mapM fun i => readItem zone (i.toString zone ++ "\n")).map fun found =>
        (indexOf (below ++ (w ++ (saveSection zone).lines es ++ ("</items>" ++ t))) "</items>" +
          "</items>".length, found) := by
  obtain ⟨q, r, -, -, hloop⟩ := SaveSection.readLoop_lines hes hline hw ht
    (indexOf (w ++ (saveSection zone).lines es ++ ("</items>" ++ t)) "Item [")
  have hread : (saveSection zone).readLoop (w ++ (saveSection zone).lines es ++ ("</items>" ++ t))
      (indexOf (w ++ (saveSection zone).lines es ++ ("</items>" ++ t)) "Item [") = _ := hloop
  rw [read, SaveSection.substringFrom_append, Except.ok_bind, hread]
  change _ = Except.map _ (es.mapM fun i =>
    (saveSection zone).readFirst ((saveSection zone).text i ++ "\n"))
  cases es.mapM fun i => (saveSection zone).readFirst ((saveSection zone).text i ++ "\n") with
  | error x => rfl
  | ok found => rfl

end ItemsDecorator

namespace MessagesDecorator

variable {zone : TimeZone} {m : Message} {w : String}

theorem passesOver (hbegin : Free "Message [" w) (hskip : Text.Skips "Message [" w)
    (hend : Text.Skips "]]" w) : (saveSection zone).PassesOver w where
  free := hbegin
  cut := hend
  first s hb he := by
    change readMessage zone (w ++ s) = readMessage zone s
    rw [readMessage, readMessage, Text.between_skip hskip hend hb he]

theorem closes (hclean : m.Clean zone) (hsigned : m.signature.isSome = true) :
    (saveSection zone).Closes m := by
  obtain ⟨sign, hsign⟩ := Option.isSome_iff_exists.mp hsigned
  have hline : m.toString zone ++ "\n" = recordText "Message [" m.id (m.fields zone) ++
      ", signature=" ++ signatureText (some sign) ++ "]]" ++ "\n" := by
    rw [toString_eq, hsign, signText_append]
  have hmarks : ∀ w ∈ (m.fields zone).map SavedField.mark, Marks.Cuts w.toList "]]".toList := by
    change ∀ w ∈ [", sendingDate=", ", senderId=", ", senderName=", ", receiverId=",
      ", receiverName=", ", messageContent=", ", status=", ", pbkey="], _
    decide +kernel
  refine ⟨_, "\n", hline, Or.inr rfl, ?_⟩
  change Marks.FirstAt "]]".toList _ (m.toString zone ++ "\n").toList
  rw [hline]
  exact signed_closes sign (CleanRecord.fields_free hclean (by decide) (by decide) hmarks)

end MessagesDecorator

/-! ## Reading a backup -/

/-- `new DatedHeader()`, at a time. -/
def DatedHeader.new (now : Int) : DatedHeader := { nick := none, id := none, date := now }

/-- `SaveFactory.createDatedHeaderContractsItemsMessages`, with what the managers store and what of
it is the user's. -/
def SaveFactory.createDatedHeaderContractsItemsMessages (now : Int)
    (contracts : List (ContractEntity × Bool))
    (items : List (Item × Bool)) (messages : List (Message × Bool)) : Save :=
  .messages (.items (.contracts (.header (.new now)) contracts) items) messages

/-- No text that is written holds a mark, or ends with the bracket that would make one with the
next. Items and messages are signed, as the managers that store them see to. -/
structure Legible (zone : TimeZone) (now : Int) (contracts : List (ContractEntity × Bool))
    (items : List (Item × Bool)) (messages : List (Message × Bool)) : Prop where
  date : Save.CleanText (Date.toString zone now ++ "]")
  contracts : ∀ c ∈ written contracts, c.Clean zone ∧
    Free "]]" (c.establishementData.getD "null" ++ "]")
  items : ∀ i ∈ written items, i.Clean zone ∧ i.signature.isSome = true
  messages : ∀ m ∈ written messages, m.Clean zone ∧ m.signature.isSome = true

theorem Text.exists_split {s : String} {n : Int} (hn : 0 ≤ n) (hle : n ≤ s.length) :
    ∃ x y, s = x ++ y ∧ (x.length : Int) = n := by
  refine ⟨String.ofList (s.toList.take n.toNat), String.ofList (s.toList.drop n.toNat), ?_, ?_⟩
  · rw [← String.toList_inj, String.toList_append, String.toList_ofList, String.toList_ofList,
      List.take_append_drop]
  · rw [String.length_ofList, List.length_take, String.length_toList]
    omega

theorem Text.Free.part {b s s' : String} (h : Free b s')
    (hs : s.toList <:+: s'.toList) : Free b s :=
  fun hfound => h (hfound.trans hs)

namespace SaveSection

variable {E : Type} {c : SaveSection E} {below : String}

theorem write_below (below : String) (stored : List (E × Bool)) :
    c.write below stored = below ++ c.write "" stored := by
  rw [write_eq, write_eq, String.empty_append]

/-- The position that reading the section returns lies in what is written up to its end. -/
theorem position_split (stored : List (E × Bool))
    (hbelow : ("\n" ++ c.sectionBegin ++ "\n").length ≤ below.length) :
    ∃ x y, c.write below stored = x ++ y ∧
      (x.length : Int) = indexOf (c.body stored) c.entityBegin +
      (c.body stored ++ c.sectionEnd).length := by
  have hfirst := c.first_le stored
  have hindex := Text.neg_one_le_indexOf (c.body stored) c.entityBegin
  have hend : 0 < c.sectionEnd.length := by
    rw [← String.length_toList]
    exact List.length_pos_of_mem (List.mem_of_mem_head? (by rw [c.end_isMark.eq_cons]; rfl))
  refine Text.exists_split ?_ ?_
  · rw [String.length_append]
    omega
  · rw [write_eq, String.length_append below]
    omega

end SaveSection

namespace DatedHeader

variable {zone : TimeZone} {now : Int}

theorem null_clean : Save.CleanText "null" := by decide +kernel

theorem new_clean (hdate : Save.CleanText (Date.toString zone now ++ "]")) :
    (DatedHeader.new now).Clean zone where
  nick := null_clean
  id := null_clean
  date b hb := (hdate b hb).part (by rw [String.toList_append]; exact List.infix_append_left)

/-- The header holds no mark of the items. -/
theorem new_free {b : String} (hdate : Save.CleanText (Date.toString zone now ++ "]"))
    (hb : b ∈ ["Item [", "]]"]) : Free b ((DatedHeader.new now).write zone) := by
  have hmarks : ∀ b ∈ ["Item [", "]]"], b ∈ Save.marks ∧
      Free b "<Header>\nUser [username=null, id=null]\n" ∧
      Marks.Cuts "Date [date=".toList b.toList ∧
      Marks.Cuts "\n</Header>".toList b.toList := by decide +kernel
  obtain ⟨hmem, hfree, hdateMark, hend⟩ := hmarks b hb
  have hwrite : (DatedHeader.new now).write zone =
      "<Header>\nUser [username=null, id=null]\n" ++ "Date [date=" ++
      (Date.toString zone now ++ "]") ++ "\n</Header>" := by
    have hstart : "<Header>\nUser [username=null, id=null]\n" =
        "<Header>\n" ++ "User [username=" ++ "null" ++ ", id=" ++ "null" ++ "]" ++ "\n" := by
      decide +kernel
    have hlast : "\n</Header>" = "\n" ++ "</Header>" := by decide
    rw [hstart, hlast, ← @String.append_assoc _ (Date.toString zone now),
      ← @String.append_assoc _ "\n"]
    rfl
  rw [hwrite]
  exact (hfree.append hdateMark (hdate b hmem)).append_right hend

/-- The header that is read into matters only where the date cannot be parsed. -/
theorem read_other {h h' : DatedHeader} {s : String} {a : Int} (hread : h.read zone s = .ok (a, h'))
    (h₀ : DatedHeader) : ∃ h'', h₀.read zone s = .ok (a, h'') := by
  simp only [read, Except.bind_eq_ok, Except.pure_eq_ok, Prod.mk.injEq] at hread ⊢
  obtain ⟨id, hid, nick, hnick, s2, hs2, date, hdate, ha, -⟩ := hread
  exact ⟨_, id, hid, nick, hnick, s2, hs2, date, hdate, ha, rfl⟩

end DatedHeader

/-! ## What the texts do not hold -/

theorem ContractsDecorator.text_free {zone : TimeZone} {c : ContractEntity} {m : String}
    (hclean : c.Clean zone) (hm : m ∈ ["Item [", "]]", "</items>"])
    (hlast : Free m (c.establishementData.getD "null" ++ "]")) : Free m (c.toString zone) := by
  have hmarks : ∀ m ∈ ["Item [", "]]", "</items>"], m ∈ Save.marks ∧
      Marks.Cuts ("ContractEntity [" ++ "id=").toList m.toList ∧
      Marks.Cuts ", establishementData=".toList m.toList ∧
      ∀ w ∈ [", userid=", ", createdAt=", ", title=", ", clauses=", ", parties=",
        ", partiesNames=", ", wish=",
        ", status=", ", signatures=", ", establisherType="], Marks.Cuts w.toList m.toList := by
          decide +kernel
  obtain ⟨hmem, hbegin, hdata, hfields⟩ := hmarks m hm
  have hrecord := CleanRecord.fields_free hclean hmem hbegin hfields
  rw [toString_eq, @String.append_assoc _ (c.establishementData.getD "null")]
  exact hrecord.append hdata hlast

theorem ItemsDecorator.text_free {zone : TimeZone} {i : Item} (hclean : i.Clean zone) :
    Free "ContractEntity [" (i.toString zone) := by
  rw [toString_eq]
  refine CleanRecord.free hclean (by decide) ?_
  change ∀ w ∈ ["Item [" ++ "id=", ", signature=", "]", ", title=", ", description=",
    ", createdAt=", ", pbkey=", ", username=", ", userid="], _
  decide +kernel

theorem MessagesDecorator.text_free {zone : TimeZone} {m : Message} {b : String}
    (hclean : m.Clean zone)
    (hb : b ∈ ["ContractEntity [", "Item ["]) : Free b (m.toString zone) := by
  have hmarks : ∀ b ∈ ["ContractEntity [", "Item ["], b ∈ Save.marks ∧
      ∀ w ∈ ["Message [" ++ "id=", ", signature=", "]", ", sendingDate=", ", senderId=",
        ", senderName=",
        ", receiverId=", ", receiverName=", ", messageContent=", ", status=", ", pbkey="],
          Marks.Cuts w.toList b.toList := by
    decide +kernel
  rw [toString_eq]
  exact CleanRecord.free hclean (hmarks b hb).1 (hmarks b hb).2

section

variable {zone : TimeZone} {now : Int} {cs : List (ContractEntity × Bool)} {is : List (Item × Bool)}
  {ms : List (Message × Bool)} {t : String}

/-- What stands in front of the items. -/
theorem Legible.front_free (h : Legible zone now cs is ms) {b : String}
    (hb : b ∈ ["Item [", "]]"]) :
    Free b ((ContractsDecorator.saveSection zone).write ((DatedHeader.new now).write zone) cs) := by
  have hmarks : ∀ b ∈ ["Item [", "]]"], b ∈ ["Item [", "]]", "</items>"] ∧
      Marks.Cuts "\n".toList b.toList ∧
      Marks.Cuts ("\n" ++ "<contracts>").toList b.toList ∧
      Marks.Cuts "</contracts>".toList b.toList ∧ Free b "" ∧
      (b = "Item [" → Marks.Cuts "]".toList b.toList) := by decide +kernel
  obtain ⟨hmem, hline, hbegin, hend, hempty, hbracket⟩ := hmarks b hb
  have hstored : ∀ c ∈ written cs, Free b (c.toString zone) := by
    intro c hc
    obtain ⟨hclean, hlast⟩ := h.contracts c hc
    refine ContractsDecorator.text_free hclean hmem ?_
    rw [List.mem_cons, List.mem_singleton] at hb
    rcases hb with rfl | rfl
    · exact (hclean.last "Item [" (by decide)).append_right (hbracket rfl)
    · exact hlast
  have hfree := SaveSection.write_free (c := ContractsDecorator.saveSection zone)
    (DatedHeader.new_free h.date hb) hline hbegin hend hstored hempty
  rwa [String.append_empty] at hfree

/-- What stands behind the items. -/
theorem Legible.messages_free (h : Legible zone now cs is ms) (ht : Save.CleanText t) {b : String}
    (hb : b ∈ ["ContractEntity [", "Item ["]) :
    Free b ((MessagesDecorator.saveSection zone).write "" ms ++ t) := by
  have hmarks : ∀ b ∈ ["ContractEntity [", "Item ["], b ∈ Save.marks ∧ Free b "" ∧
      Marks.Cuts "\n".toList b.toList ∧ Marks.Cuts ("\n" ++ "<message>").toList b.toList ∧
      Marks.Cuts "</message>".toList b.toList := by decide +kernel
  obtain ⟨hmem, hempty, hline, hbegin, hend⟩ := hmarks b hb
  exact SaveSection.write_free hempty hline hbegin hend
    (fun m hm => MessagesDecorator.text_free (h.messages m hm).1 hb) (ht b hmem)

/-- What stands behind the contracts. -/
theorem Legible.items_free (h : Legible zone now cs is ms) (ht : Save.CleanText t) :
    Free "ContractEntity ["
    ((ItemsDecorator.saveSection zone).write "" is ++
      ((MessagesDecorator.saveSection zone).write "" ms ++ t)) := by
  have hbegin : Marks.Cuts ("\n" ++ "<items>").toList "ContractEntity [".toList := by decide
  have hend : Marks.Cuts "</items>".toList "ContractEntity [".toList := by decide
  exact SaveSection.write_free (by decide) (by decide) hbegin hend
    (fun i hi => ItemsDecorator.text_free (h.items i hi).1) (h.messages_free ht (by decide))

/-- The first end of items is that of the section. -/
theorem Legible.indexOf_items (h : Legible zone now cs is ms) (t : String) :
    let s := (ItemsDecorator.saveSection zone).write
      ((ContractsDecorator.saveSection zone).write ((DatedHeader.new now).write zone) cs) is
    indexOf (s ++ t) "</items>" + "</items>".length = s.length := by
  intro s
  have hmark : Marks.IsMark '<' '>' "</items>".toList := by decide
  have hheader : Marks.IsMark '<' '>' "</Header>".toList := by decide
  have hcontracts : Marks.IsMark '<' '>' "</contracts>".toList := by decide
  have hne : "</items>".toList ≠ "</Header>".toList ∧
      "</items>".toList ≠ "</contracts>".toList := by decide
  have hcontractsBody : Free "</items>" ((ContractsDecorator.saveSection zone).body cs) := by
    rw [SaveSection.body_eq]
    refine SaveSection.append_lines_free (by decide)
      (by decide : Free "</items>" ("\n" ++ "<contracts>")) fun c hc => ?_
    obtain ⟨hclean, -⟩ := h.contracts c hc
    exact ContractsDecorator.text_free hclean (by decide)
      ((hclean.last "</items>" (by decide)).append_right (by decide))
  have hitemsBody : Free "</items>" ((ItemsDecorator.saveSection zone).body is) := by
    rw [SaveSection.body_eq]
    exact SaveSection.append_lines_free (by decide) (ItemsDecorator.saveSection zone).begin_free
      fun i hi => (h.items i hi).1.free
  have hfront : Free "</items>" ((DatedHeader.new now).write zone ++
    (ContractsDecorator.saveSection zone).body cs) := by
    rw [DatedHeader.write_eq, Free, String.toList_append, String.toList_append,
      hmark.infix_append_mark hheader]
    exact not_or_intro (DatedHeader.front_free (DatedHeader.new_clean h.date) (by decide))
      (not_or_intro hne.1 hcontractsBody)
  have hfree : Free "</items>" ((DatedHeader.new now).write zone ++
      (ContractsDecorator.saveSection zone).body cs ++
      "</contracts>" ++ (ItemsDecorator.saveSection zone).body is) := by
    rw [Free, String.toList_append, String.toList_append, hmark.infix_append_mark hcontracts]
    exact not_or_intro hfront (not_or_intro hne.2 hitemsBody)
  have hwrite : s = (DatedHeader.new now).write zone ++
      (ContractsDecorator.saveSection zone).body cs ++
      "</contracts>" ++ (ItemsDecorator.saveSection zone).body is ++ "</items>" := by
    change SaveSection.write _ (SaveSection.write _ _ cs) is = _
    rw [SaveSection.write_eq, SaveSection.write_eq, ← String.append_assoc, ← String.append_assoc]
    rfl
  rw [hwrite, Text.indexOf_firstAt (Text.firstAt_of_free hmark hfree),
    String.length_append _ "</items>", Nat.cast_add]

/-! ## The stack -/

open SaveFactory (createDatedHeaderContractsItemsMessages)

theorem contracts_passesOver : (ContractsDecorator.saveSection zone).PassesOver "\n" ∧
    (ContractsDecorator.saveSection zone).PassesOver ("\n" ++ "<contracts>" ++ "\n") :=
  ⟨ContractsDecorator.passesOver (by decide) (Text.skips_of_head (u := 'C') (by decide) (by decide))
      (Text.skips_of_head (u := ']') (by decide) (by decide)),
    ContractsDecorator.passesOver (by decide)
      (Text.skips_of_head (u := 'C') (by decide) (by decide))
      (Text.skips_of_head (u := ']') (by decide) (by decide))⟩

theorem messages_passesOver : (MessagesDecorator.saveSection zone).PassesOver "\n" ∧
    (MessagesDecorator.saveSection zone).PassesOver ("\n" ++ "<message>" ++ "\n") :=
  ⟨MessagesDecorator.passesOver (by decide) (Text.skips_of_head (u := 'M') (by decide) (by decide))
      (Text.skips_of_head (u := ']') (by decide) (by decide)),
    MessagesDecorator.passesOver (by decide) (Text.skips_of_head (u := 'M') (by decide) (by decide))
      (Text.skips_of_head (u := ']') (by decide) (by decide))⟩

/-- The items are read over the end of any text in front of them. -/
theorem Legible.items_passesOver (h : Legible zone now cs is ms) {x y : String}
    (hxy : (ContractsDecorator.saveSection zone).write ((DatedHeader.new now).write zone) cs = x ++
      y) :
    (ItemsDecorator.saveSection zone).PassesOver (y ++ ("\n" ++ "<items>") ++ "\n") := by
  have hfree : ∀ b ∈ ["Item [", "]]"], Free b (y ++ ("\n" ++ "<items>")) := by
    intro b hb
    have hmarks : ∀ b ∈ ["Item [", "]]"],
        Marks.Cuts ("\n" ++ "<items>").toList b.toList := by decide
    refine ((h.front_free hb).part ?_).append_right (hmarks b hb)
    rw [hxy, String.toList_append]
    exact (List.suffix_append _ _).isInfix
  have hitem := hfree "Item [" (by decide)
  refine ItemsDecorator.passesOver (hitem.append_right (by decide)) ?_ ?_
  · exact Text.skips_line (by decide) (by decide) hitem
  · exact Text.skips_line (by decide) (by decide) (hfree "]]" (by decide))

theorem items_line : (ItemsDecorator.saveSection zone).PassesOver "\n" :=
  ItemsDecorator.passesOver (by decide) (Text.skips_of_head (u := 'I') (by decide) (by decide))
    (Text.skips_of_head (u := ']') (by decide) (by decide))

theorem Legible.read_contracts (h : Legible zone now cs is ms) (ht : Save.CleanText t)
    (below : String) :
    (ContractsDecorator.saveSection zone).read
        ((ContractsDecorator.saveSection zone).write below cs ++
        ((ItemsDecorator.saveSection zone).write "" is ++
          ((MessagesDecorator.saveSection zone).write "" ms ++ t)))
        below.length =
      ((written cs).mapM fun c =>
        ContractsDecorator.readContract zone (c.toString zone ++ "\n")).map fun found =>
        (indexOf ((ContractsDecorator.saveSection zone).body cs) "ContractEntity [" +
          ((ContractsDecorator.saveSection zone).body cs ++ "</contracts>").length, found) :=
  SaveSection.read_lines (fun c hc => ContractsDecorator.closes (h.contracts c hc).1)
    contracts_passesOver.1 contracts_passesOver.2 (h.items_free ht)

/-- From any position up to the end of the contracts on, the items are read as from their own
section. -/
theorem Legible.read_items (h : Legible zone now cs is ms) (ht : Save.CleanText t) {x y : String}
    (hxy : (ContractsDecorator.saveSection zone).write ((DatedHeader.new now).write zone) cs = x ++
      y) :
    let s := (ItemsDecorator.saveSection zone).write
      ((ContractsDecorator.saveSection zone).write ((DatedHeader.new now).write zone) cs) is
    ItemsDecorator.read zone (s ++
      ((MessagesDecorator.saveSection zone).write "" ms ++ t)) x.length =
      ((written is).mapM fun i => ItemsDecorator.readItem zone (i.toString zone ++ "\n")).map
        fun found => ((s.length : Int), found) := by
  intro s
  have hs : s ++ ((MessagesDecorator.saveSection zone).write "" ms ++ t) =
      x ++ (y ++ ("\n" ++ "<items>") ++ "\n" ++ (ItemsDecorator.saveSection zone).lines
        (written is) ++
        ("</items>" ++ ((MessagesDecorator.saveSection zone).write "" ms ++ t))) := by
    change SaveSection.write _ _ is ++ _ = _
    rw [SaveSection.write_append, hxy, SaveSection.body_eq]
    simp only [String.append_assoc]
    rfl
  have hend := h.indexOf_items ((MessagesDecorator.saveSection zone).write "" ms ++ t)
  rw [← hend]
  change ItemsDecorator.read zone (s ++ _) _ = Except.map (fun found =>
    (indexOf (s ++ _) _ + _, found)) _
  rw [hs]
  exact ItemsDecorator.read_lines (fun i hi =>
    ItemsDecorator.closes (h.items i hi).1 (h.items i hi).2) items_line
    (h.items_passesOver hxy) (h.messages_free ht (by decide))

theorem Legible.read_messages (h : Legible zone now cs is ms) (ht : Save.CleanText t)
    (below : String) :
    (MessagesDecorator.saveSection zone).read
      ((MessagesDecorator.saveSection zone).write below ms ++ t) below.length =
      ((written ms).mapM fun m =>
        MessagesDecorator.readMessage zone (m.toString zone ++ "\n")).map fun found =>
        (indexOf ((MessagesDecorator.saveSection zone).body ms) "Message [" +
          ((MessagesDecorator.saveSection zone).body ms ++ "</message>").length, found) :=
  SaveSection.read_lines (fun m hm =>
    MessagesDecorator.closes (h.messages m hm).1 (h.messages m hm).2)
    messages_passesOver.1 messages_passesOver.2 (ht "Message [" (by decide))

/-- What reading a backup gives the managers is every entity that was written, read from its own
line. -/
theorem read_backup (h : Legible zone now cs is ms) (ht : Save.CleanText t) (now' : Int)
    (cs' : List (ContractEntity × Bool)) (is' : List (Item × Bool)) (ms' : List (Message × Bool)) :
    ∃ h' a, (createDatedHeaderContractsItemsMessages now' cs' is' ms').read zone
        ((createDatedHeaderContractsItemsMessages now cs is ms).write zone ++ t) = (do
      let contracts ← (written cs).mapM fun c =>
        ContractsDecorator.readContract zone (c.toString zone ++ "\n")
      let items ← (written is).mapM fun i => ItemsDecorator.readItem zone (i.toString zone ++ "\n")
      let messages ← (written ms).mapM fun m =>
        MessagesDecorator.readMessage zone (m.toString zone ++ "\n")
      return (a, .messages (.items (.contracts (.header h') contracts) items) messages)) := by
  generalize hH : (DatedHeader.new now).write zone = H
  generalize hS : (createDatedHeaderContractsItemsMessages now cs is ms).write zone ++ t = S
  have hlength : 24 ≤ H.length := hH ▸ Save.length_write zone (.header (.new now))
  obtain ⟨x, y, hxy, hx⟩ := SaveSection.position_split (c := ContractsDecorator.saveSection zone) cs
    (Nat.le_trans (by decide : ("\n" ++ "<contracts>" ++ "\n").length ≤ 24) hlength)
  -- the text as the decorators of messages, of items and of contracts find it
  have hmessages : S = (MessagesDecorator.saveSection zone).write
      ((ItemsDecorator.saveSection zone).write
      ((ContractsDecorator.saveSection zone).write H cs) is) ms ++ t := by
    rw [← hS, ← hH]
    rfl
  have hitems : S = (ItemsDecorator.saveSection zone).write
      ((ContractsDecorator.saveSection zone).write H cs) is ++
      ((MessagesDecorator.saveSection zone).write "" ms ++ t) := by
    rw [hmessages, SaveSection.write_below, String.append_assoc]
  have hcontracts : S = (ContractsDecorator.saveSection zone).write H cs ++
      ((ItemsDecorator.saveSection zone).write "" is ++
        ((MessagesDecorator.saveSection zone).write "" ms ++ t)) := by
    rw [hitems, SaveSection.write_below (c := ItemsDecorator.saveSection zone), String.append_assoc]
  have hread : (ContractsDecorator.saveSection zone).read S H.length =
      ((written cs).mapM fun c =>
        ContractsDecorator.readContract zone (c.toString zone ++ "\n")).map
        fun found => ((x.length : Int), found) := by
    rw [hcontracts, hx]
    exact h.read_contracts ht H
  have hreadItems := h.read_items ht (hH ▸ hxy)
  have hreadMessages := h.read_messages ht ((ItemsDecorator.saveSection zone).write
    ((ContractsDecorator.saveSection zone).write H cs) is)
  dsimp only at hreadItems
  rw [hH, ← hitems] at hreadItems
  rw [← hmessages] at hreadMessages
  obtain ⟨h₀, hheader⟩ := DatedHeader.read_append (DatedHeader.new_clean h.date)
    ((ContractsDecorator.saveSection zone).write "" cs ++
      ((ItemsDecorator.saveSection zone).write "" is ++
      ((MessagesDecorator.saveSection zone).write "" ms ++ t)))
  rw [hH, ← String.append_assoc, ← SaveSection.write_below, ← hcontracts] at hheader
  obtain ⟨h', hheader'⟩ := DatedHeader.read_other hheader (.new now')
  have hreadHeader : (Save.header (.new now')).read zone S = .ok (H.length, .header h') := by
    rw [Save.read, hheader']
    rfl
  refine ⟨h', indexOf ((MessagesDecorator.saveSection zone).body ms) "Message [" +
    ((MessagesDecorator.saveSection zone).body ms ++ "</message>").length, ?_⟩
  rw [createDatedHeaderContractsItemsMessages, Save.read, Save.read,
    Save.read_contracts cs' hreadHeader, hread]
  cases (written cs).mapM fun c =>
    ContractsDecorator.readContract zone (c.toString zone ++ "\n") with
  | error e => rfl
  | ok contracts =>
      simp only [Except.map, Except.ok_bind, hreadItems]
      cases (written is).mapM fun i => ItemsDecorator.readItem zone (i.toString zone ++ "\n") with
      | error e => rfl
      | ok items =>
          simp only [pure, Except.pure, Except.ok_bind, hreadMessages]
          cases (written ms).mapM fun m =>
            MessagesDecorator.readMessage zone (m.toString zone ++ "\n") <;> rfl

end

end Sxp
