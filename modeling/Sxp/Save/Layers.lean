-- SUMMARY: Which stacks of decorators read exactly what they wrote, for every text behind it and for a text without marks.
import Sxp.Save.Positions

/-!
# Layers

A decorator goes on where the save below it says that its text ends. The decorators of contracts
and of messages never say it right, and all three read on into the text behind their section, as
long as there is a mark that begins an entity.
-/

namespace Sxp

open Text (Free indexOf)

/-- The texts of a record hold none of the marks. -/
structure CleanRecord (id : Option String) (fields : List SavedField) (last : String) : Prop where
  id : Save.CleanText (id.getD "null")
  fields : ∀ f ∈ fields, Save.CleanText f.text
  last : Save.CleanText last

/-- A mark that has nothing in common with the marks of the fields is not in the record. -/
theorem CleanRecord.free {id : Option String} {fields : List SavedField} {last b m mark : String}
    (h : CleanRecord id fields last) (hm : m ∈ Save.marks)
    (hmarks : ∀ w ∈ [b ++ "id=", mark, "]"] ++ fields.map SavedField.mark,
      Marks.Cuts w.toList m.toList) :
    Free m (recordText b id fields ++ mark ++ last ++ "]") := by
  rw [List.forall_mem_append, List.forall_mem_map] at hmarks
  obtain ⟨hends, hfields⟩ := hmarks
  have hrecord := recordText_free (hends (b ++ "id=") (by simp)) hfields (h.id m hm) fun f hf =>
    h.fields f hf m hm
  exact (hrecord.append (hends mark (by simp)) (h.last m hm)).append_right (hends "]" (by simp))

/-- The texts of the contract hold none of the marks. -/
def ContractEntity.Clean (zone : TimeZone) (c : ContractEntity) : Prop :=
  CleanRecord c.id (c.fields zone) (c.establishementData.getD "null")

def Item.Clean (zone : TimeZone) (i : Item) : Prop :=
  CleanRecord i.id (i.fields zone) (signText i.signature)

def Message.Clean (zone : TimeZone) (m : Message) : Prop :=
  CleanRecord m.id (m.fields zone) (signText m.signature)

theorem ContractEntity.Clean.free {zone : TimeZone} {c : ContractEntity} (h : c.Clean zone) :
    Free "</contracts>" (c.toString zone) := by
  rw [ContractsDecorator.toString_eq]
  refine CleanRecord.free h (by decide) ?_
  change ∀ w ∈ ["ContractEntity [" ++ "id=", ", establishementData=", "]", ", userid=",
    ", createdAt=", ", title=",
    ", clauses=", ", parties=", ", partiesNames=", ", wish=", ", status=", ", signatures=",
    ", establisherType="], _
  decide +kernel

theorem Item.Clean.free {zone : TimeZone} {i : Item} (h : i.Clean zone) :
    Free "</items>" (i.toString zone) := by
  rw [ItemsDecorator.toString_eq]
  refine CleanRecord.free h (by decide) ?_
  change ∀ w ∈ ["Item [" ++ "id=", ", signature=", "]", ", title=", ", description=",
    ", createdAt=", ", pbkey=", ", username=", ", userid="], _
  decide +kernel

theorem Message.Clean.free {zone : TimeZone} {m : Message} (h : m.Clean zone) :
    Free "</message>" (m.toString zone) := by
  rw [MessagesDecorator.toString_eq]
  refine CleanRecord.free h (by decide) ?_
  change ∀ w ∈ ["Message [" ++ "id=", ", signature=", "]", ", sendingDate=", ", senderId=",
    ", senderName=",
    ", receiverId=", ", receiverName=", ", messageContent=", ", status=", ", pbkey="], _
  decide +kernel

namespace Save

variable {zone : TimeZone} {save : Save} {t : String}

/-- Reading the text that the save wrote, with `t` behind it, returns the position where `t`
starts. -/
def Exact (zone : TimeZone) (save : Save) (t : String) : Prop :=
  ∃ loaded, save.read zone (save.write zone ++ t) = .ok ((save.write zone).length, loaded)

/-- The saves that the stack is made of, the whole of it first. -/
def layers : Save → List Save
  | header h => [header h]
  | contracts save stored => contracts save stored :: layers save
  | items save stored => items save stored :: layers save
  | messages save stored => messages save stored :: layers save

/-- No field of the header and of the stored entities holds one of the marks. -/
def Clean (zone : TimeZone) : Save → Prop
  | header h => h.Clean zone
  | contracts save stored => Clean zone save ∧ ∀ x ∈ stored, x.1.Clean zone
  | items save stored => Clean zone save ∧ ∀ x ∈ stored, x.1.Clean zone
  | messages save stored => Clean zone save ∧ ∀ x ∈ stored, x.1.Clean zone

/-! ## Any suffix -/

theorem read_contracts {s : String} {a : Int} {loaded : Loaded}
    (stored : List (ContractEntity × Bool)) (h : save.read zone s = .ok (a, loaded)) :
    (contracts save stored).read zone s =
      ((ContractsDecorator.saveSection zone).read s a).map fun r =>
      (r.1, .contracts loaded r.2) := by
  rw [read, h, Except.ok_bind]
  dsimp only
  cases (ContractsDecorator.saveSection zone).read s a <;> rfl

theorem read_items {s : String} {a : Int} {loaded : Loaded} (stored : List (Item × Bool))
    (h : save.read zone s = .ok (a, loaded)) :
    (items save stored).read zone s = (ItemsDecorator.read zone s a).map fun r =>
    (r.1, .items loaded r.2) := by
  rw [read, h, Except.ok_bind]
  dsimp only
  cases ItemsDecorator.read zone s a <;> rfl

theorem read_messages {s : String} {a : Int} {loaded : Loaded} (stored : List (Message × Bool))
    (h : save.read zone s = .ok (a, loaded)) :
    (messages save stored).read zone s =
      ((MessagesDecorator.saveSection zone).read s a).map fun r => (r.1, .messages loaded r.2) := by
  rw [read, h, Except.ok_bind]
  dsimp only
  cases (MessagesDecorator.saveSection zone).read s a <;> rfl

/-- The header is exact, whatever follows. -/
theorem exact_header {h : DatedHeader} (hclean : h.Clean zone) (t : String) :
    (header h).Exact zone t := by
  obtain ⟨h', hread⟩ := DatedHeader.read_append hclean t
  refine ⟨.header h', ?_⟩
  rw [read, write, hread]
  rfl

/-- A text of the save that ends with `b` is not read. -/
def ThrowsAt (zone : TimeZone) (save : Save) (b : String) : Prop :=
  ∀ x, ∃ e, save.read zone (save.write zone ++ (x ++ b)) = .error e

/-- A decorator throws with the save below it. -/
theorem ThrowsAt.decorated {E : Type} {save' : Save} {b : String} {c : SaveSection E}
    {stored : List (E × Bool)}
    (h : save.ThrowsAt zone b) (hwrite : save'.write zone = c.write (save.write zone) stored)
    (hread : ∀ s e, save.read zone s = .error e → save'.read zone s = .error e) :
    save'.ThrowsAt zone b := by
  intro x
  obtain ⟨e, he⟩ := h (c.body stored ++ (c.sectionEnd ++ x))
  refine ⟨e, hread _ e ?_⟩
  rw [hwrite, c.write_append]
  simpa only [String.append_assoc] using he

/-- A decorator of a header throws where the text ends with the mark that begins its entities. -/
theorem throwsAt_of_header {E : Type} {h : DatedHeader} (hclean : h.Clean zone) {save : Save}
    {c : SaveSection E}
    {stored : List (E × Bool)} (hwrite : save.write zone = c.write (h.write zone) stored)
    (hread : ∀ x loaded, (header h).read zone (h.write zone ++ (x ++ c.entityBegin)) =
      .ok ((h.write zone).length, loaded) →
        ∃ e, save.read zone (h.write zone ++ (x ++ c.entityBegin)) = .error e) :
    save.ThrowsAt zone c.entityBegin := by
  intro x
  obtain ⟨loaded, hloaded⟩ :=
    exact_header hclean (c.body stored ++ (c.sectionEnd ++ x) ++ c.entityBegin)
  have hthrows := hread _ _ hloaded
  rw [hwrite, c.write_append]
  simpa only [String.append_assoc] using hthrows

/-- A stack with a decorator throws where the mark of the entities of its lowest decorator is the
end of the text. -/
theorem exists_throwsAt (hclean : save.Clean zone) (hdecorated : ∀ h, save ≠ header h) :
    ∃ b, save.ThrowsAt zone b := by
  induction save with
  | header h => exact absurd rfl (hdecorated h)
  | contracts save stored ih =>
      cases save with
      | header h =>
          refine ⟨_, throwsAt_of_header hclean.1 rfl fun x loaded hloaded => ?_⟩
          obtain ⟨e, he⟩ := (ContractsDecorator.saveSection zone).read_begin (h.write zone) x
          exact ⟨e, by rw [read_contracts stored hloaded, he]; rfl⟩
      | _ =>
          obtain ⟨b, hb⟩ := ih hclean.1 (by simp)
          exact ⟨b, hb.decorated rfl fun s e he => by rw [read, he]; rfl⟩
  | items save stored ih =>
      cases save with
      | header h =>
          refine ⟨_, throwsAt_of_header
            (c := ItemsDecorator.saveSection zone) hclean.1 rfl fun x loaded hloaded => ?_⟩
          obtain ⟨e, he⟩ := ItemsDecorator.read_begin (h.write zone) x
          exact ⟨e, by rw [read_items stored hloaded]; exact congrArg (Except.map _) he⟩
      | _ =>
          obtain ⟨b, hb⟩ := ih hclean.1 (by simp)
          exact ⟨b, hb.decorated (c := ItemsDecorator.saveSection zone) rfl fun s e he => by
            rw [read, he]; rfl⟩
  | messages save stored ih =>
      cases save with
      | header h =>
          refine ⟨_, throwsAt_of_header hclean.1 rfl fun x loaded hloaded => ?_⟩
          obtain ⟨e, he⟩ := (MessagesDecorator.saveSection zone).read_begin (h.write zone) x
          exact ⟨e, by rw [read_messages stored hloaded, he]; rfl⟩
      | _ =>
          obtain ⟨b, hb⟩ := ih hclean.1 (by simp)
          exact ⟨b, hb.decorated rfl fun s e he => by rw [read, he]; rfl⟩

/-! ## A suffix without marks -/

theorem length_write (zone : TimeZone) (save : Save) : 24 ≤ (save.write zone).length := by
  induction save with
  | header h =>
      have hstart : ∃ r, h.write zone = "<Header>\n" ++ ("User [username=" ++ r) := by
        unfold DatedHeader.write
        simp only [String.append_assoc]
        exact ⟨_, rfl⟩
      have hlength : ("<Header>\n" ++ "User [username=").length = 24 := by decide
      obtain ⟨r, hr⟩ := hstart
      rw [write, hr, ← String.append_assoc, String.length_append, hlength]
      exact Nat.le_add_right 24 _
  | contracts save stored ih | items save stored ih | messages save stored ih =>
      rw [write, SaveSection.write_eq, String.length_append]
      omega

/-- Wherever the save reads the text that it wrote, it returns the position behind it. -/
def Right (zone : TimeZone) (save : Save) : Prop :=
  ∀ v a loaded, save.read zone (save.write zone ++ v) = .ok (a, loaded) →
    a = (save.write zone).length

theorem right_header {h : DatedHeader} (hclean : h.Clean zone) : (header h).Right zone := by
  intro v a loaded hread
  obtain ⟨loaded', hexact⟩ := exact_header hclean v
  rw [hread] at hexact
  cases hexact
  rfl

/-- The first end of items is that of the items right above the header. -/
theorem indexOf_items {h : DatedHeader} {stored : List (Item × Bool)}
    (hclean : (items (header h) stored).Clean zone)
    (v : String) : indexOf ((items (header h) stored).write zone ++ v) "</items>" +
      "</items>".length = ((items (header h) stored).write zone).length := by
  have hmark : Marks.IsMark '<' '>' "</items>".toList := by decide
  have hheader : Marks.IsMark '<' '>' "</Header>".toList := by decide
  have hne : "</items>".toList ≠ "</Header>".toList := by decide
  have hbody : Free "</items>" ((ItemsDecorator.saveSection zone).body stored) :=
    (ItemsDecorator.saveSection zone).body_free fun x hx => (hclean.2 x hx).free
  have hfree : Free "</items>" (h.write zone ++ (ItemsDecorator.saveSection zone).body stored) := by
    rw [DatedHeader.write_eq, Free, String.toList_append, String.toList_append,
      hmark.infix_append_mark hheader]
    exact not_or_intro (DatedHeader.front_free hclean.1 (by decide)) (not_or_intro hne hbody)
  have hwrite : (items (header h) stored).write zone =
      h.write zone ++ (ItemsDecorator.saveSection zone).body stored ++ "</items>" := by
    rw [String.append_assoc]
    exact (ItemsDecorator.saveSection zone).write_eq (h.write zone) stored
  rw [hwrite, Text.indexOf_firstAt (Text.firstAt_of_free hmark hfree),
    String.length_append _ "</items>"]
  rfl

/-- What an item decorator returns is the position behind the first end of items. -/
theorem indexOf_of_read_items {s : String} {stored : List (Item × Bool)} {a : Int} {loaded : Loaded}
    (h : (items save stored).read zone s = .ok (a, loaded)) :
    a = indexOf s "</items>" + "</items>".length := by
  rw [read, Except.bind_eq_ok] at h
  obtain ⟨⟨b, below⟩, -, hitems⟩ := h
  rw [Except.bind_eq_ok] at hitems
  obtain ⟨r, hr, hreturn⟩ := hitems
  cases hreturn
  exact ItemsDecorator.read_eq_ok hr

theorem right_items {h : DatedHeader} {stored : List (Item × Bool)}
    (hclean : (items (header h) stored).Clean zone) : (items (header h) stored).Right zone := by
  intro v a loaded hread
  rw [indexOf_of_read_items hread, indexOf_items hclean]

theorem exists_of_read_contracts {s : String} {stored : List (ContractEntity × Bool)}
    {r : Int × Loaded} (h : (contracts save stored).read zone s = .ok r) :
    ∃ a below q, save.read zone s = .ok (a, below) ∧
    (ContractsDecorator.saveSection zone).read s a = .ok q ∧ r.1 = q.1 := by
  simp only [read, Except.bind_eq_ok, Except.pure_eq_ok] at h
  obtain ⟨⟨a, below⟩, hbelow, q, hq, rfl⟩ := h
  exact ⟨a, below, q, hbelow, hq, rfl⟩

theorem exists_of_read_messages {s : String} {stored : List (Message × Bool)} {r : Int × Loaded}
    (h : (messages save stored).read zone s = .ok r) :
    ∃ a below q, save.read zone s = .ok (a, below) ∧
    (MessagesDecorator.saveSection zone).read s a = .ok q ∧ r.1 = q.1 := by
  simp only [read, Except.bind_eq_ok, Except.pure_eq_ok] at h
  obtain ⟨⟨a, below⟩, hbelow, q, hq, rfl⟩ := h
  exact ⟨a, below, q, hbelow, hq, rfl⟩

/-- Where the save below is right, a decorator that returns a position in its own section is not
exact. -/
theorem not_exact_section {E : Type} {save' : Save} {c : SaveSection E} {stored : List (E × Bool)}
    (hright : save.Right zone) (hwrite : save'.write zone = c.write (save.write zone) stored)
    (hread : ∀ s r, save'.read zone s = .ok r →
      ∃ a below q, save.read zone s = .ok (a, below) ∧ c.read s a = .ok q ∧ r.1 = q.1)
    (hstored : ∀ x ∈ stored, Free c.sectionEnd (c.text x.1))
    (hsection : ("\n" ++ c.sectionBegin ++ "\n").length < 24)
    (hbegin : Free c.entityBegin t) (hend : Free c.entityEnd t) : ¬ save'.Exact zone t := by
  rintro ⟨loaded, hexact⟩
  obtain ⟨a, below, q, hbelow, hq, hposition⟩ := hread _ _ hexact
  rw [hwrite] at hbelow hq hposition
  have ha : a = (save.write zone).length := by
    rw [c.write_append] at hbelow
    exact hright _ a below hbelow
  rw [ha] at hq
  exact c.read_ne hbegin hend (c.body_free hstored)
    (Nat.lt_of_lt_of_le hsection (length_write zone save)) hq hposition.symm

/-- Items right above the header are exact if they are parsed. -/
theorem exact_items_iff {h : DatedHeader} {stored : List (Item × Bool)}
    (hclean : (items (header h) stored).Clean zone)
    (ht : CleanText t) : (items (header h) stored).Exact zone t ↔
    (ItemsDecorator.saveSection zone).Parsed stored := by
  have hparsed := @ItemsDecorator.exists_read_iff zone stored ((header h).write zone) t
    (ht "Item [" (by decide)) (ht "]]" (by decide))
  have hsplit : (items (header h) stored).write zone ++ t =
      (header h).write zone ++
      ((ItemsDecorator.saveSection zone).body stored ++ ("</items>" ++ t)) :=
    (ItemsDecorator.saveSection zone).write_append ((header h).write zone) stored t
  obtain ⟨below, hbelow⟩ :=
    exact_header hclean.1 ((ItemsDecorator.saveSection zone).body stored ++ ("</items>" ++ t))
  have hread := read_items stored hbelow
  rw [← hsplit] at hread hparsed
  rw [← hparsed]
  constructor
  · rintro ⟨loaded, hexact⟩
    rw [hread] at hexact
    cases hitems : ItemsDecorator.read zone ((items (header h) stored).write zone ++ t)
      ((header h).write zone).length with
    | error x =>
        have herror : Except.error x = Except.ok _ :=
          (congrArg (Except.map _) hitems).symm.trans hexact
        cases herror
    | ok r => exact ⟨r, rfl⟩
  · rintro ⟨r, hr⟩
    have hok : (items (header h) stored).read zone ((items (header h) stored).write zone ++ t) =
        .ok (r.1, .items below r.2) := hread.trans (congrArg (Except.map _) hr)
    refine ⟨.items below r.2, ?_⟩
    rw [hok, right_items hclean t _ _ hok]

/-- The header, or a decorator of items right above the header whose items are parsed. -/
def Aligned (zone : TimeZone) : Save → Prop
  | header _ => True
  | items (header _) stored => (ItemsDecorator.saveSection zone).Parsed stored
  | _ => False

theorem Aligned.right (h : save.Aligned zone) (hclean : save.Clean zone) : save.Right zone := by
  unfold Aligned at h
  split at h
  · exact right_header hclean
  · exact right_items hclean
  · exact h.elim

/-- Items above items return the position behind the lower ones. -/
theorem not_exact_items {h : DatedHeader} {lower stored : List (Item × Bool)}
    (hclean : (items (header h) lower).Clean zone) :
    ¬ (items (items (header h) lower) stored).Exact zone t := by
  rintro ⟨loaded, hexact⟩
  have hindex := indexOf_of_read_items hexact
  have hwrite := (ItemsDecorator.saveSection zone).write_append
    ((items (header h) lower).write zone) stored t
  have hlonger : ((items (items (header h) lower) stored).write zone).length =
      ((items (header h) lower).write zone).length +
        ((ItemsDecorator.saveSection zone).body stored ++ "</items>").length := by
    rw [← String.length_append]
    exact congrArg String.length ((ItemsDecorator.saveSection zone).write_eq _ stored)
  have hend : ((ItemsDecorator.saveSection zone).body stored ++ "</items>").length =
      ((ItemsDecorator.saveSection zone).body stored).length + 8 := String.length_append _ _
  rw [show (items (items (header h) lower) stored).write zone ++ t = _ from hwrite,
    indexOf_items hclean] at hindex
  omega

/-- Behind a decorator there is a text that it throws at. -/
theorem forall_exact_iff (hclean : save.Clean zone) : (∀ t, save.Exact zone t) ↔
    ∃ h, save = header h := by
  constructor
  · intro hexact
    by_contra hdecorated
    obtain ⟨b, hb⟩ := exists_throwsAt hclean fun h hh => hdecorated ⟨h, hh⟩
    obtain ⟨e, he⟩ := hb ""
    obtain ⟨loaded, hread⟩ := hexact ("" ++ b)
    rw [he] at hread
    cases hread
  · rintro ⟨h, rfl⟩
    exact exact_header hclean

theorem layers_exact_iff (hclean : save.Clean zone) (ht : CleanText t) :
    (∀ layer ∈ save.layers, layer.Exact zone t) ↔ save.Aligned zone := by
  induction save with
  | header h =>
      refine iff_of_true ?_ trivial
      rw [layers, List.forall_mem_singleton]
      exact exact_header hclean t
  | contracts save stored ih =>
      refine iff_of_false ?_ id
      intro hexact
      rw [layers, List.forall_mem_cons, ih hclean.1] at hexact
      have hsection : ("\n" ++ "<contracts>" ++ "\n").length < 24 := by decide
      exact not_exact_section (c := ContractsDecorator.saveSection zone)
        (hexact.2.right hclean.1) rfl
        (fun s r => exists_of_read_contracts) (fun x hx => (hclean.2 x hx).free) hsection
        (ht "ContractEntity [" (by decide)) (ht "]\n" (by decide)) hexact.1
  | items save stored ih =>
      rw [layers, List.forall_mem_cons, ih hclean.1]
      cases save with
      | header h => exact (and_iff_left trivial).trans (exact_items_iff hclean ht)
      | items save lower =>
          cases save with
          | header h => exact iff_of_false (fun hexact => not_exact_items hclean.1 hexact.1) id
          | _ => exact iff_of_false (fun hexact => hexact.2) id
      | _ => exact iff_of_false (fun hexact => hexact.2) id
  | messages save stored ih =>
      refine iff_of_false ?_ id
      intro hexact
      rw [layers, List.forall_mem_cons, ih hclean.1] at hexact
      have hsection : ("\n" ++ "<message>" ++ "\n").length < 24 := by decide
      exact not_exact_section (c := MessagesDecorator.saveSection zone)
        (hexact.2.right hclean.1) rfl
        (fun s r => exists_of_read_messages) (fun x hx => (hclean.2 x hx).free) hsection
        (ht "Message [" (by decide)) (ht "]]" (by decide)) hexact.1

/-- For every suffix only the header is exact. For a suffix without marks all layers of a stack are
exact if the stack is the header or items that are parsed right above it. -/
theorem exact_iff (hclean : save.Clean zone) :
    ((∀ t, save.Exact zone t) ↔ ∃ h, save = header h) ∧
      ∀ t, CleanText t → ((∀ layer ∈ save.layers, layer.Exact zone t) ↔ save.Aligned zone) :=
  ⟨forall_exact_iff hclean, fun _ ht => layers_exact_iff hclean ht⟩

/-- A header, and an item under it. -/
def aliceHeader : DatedHeader := { nick := some "alice", id := some "0001", date := 0 }

theorem aliceHeader_clean : aliceHeader.Clean .utc where
  nick := by decide +kernel
  id := by decide +kernel
  date := by decide +kernel

def lamp : Item where
  id := none
  title := some "Lamp"
  description := some "A lamp"
  createdAt := some 0
  pbkey := some 7
  username := some "alice"
  userid := some "0001"
  signature := some { r := some 3, s := some 5 }

theorem lamp_clean : lamp.Clean .utc where
  id := by decide +kernel
  fields := by decide +kernel
  last := by decide +kernel

/-- The stack that is saved, with one item. -/
def backup : Save := messages (items (contracts (header aliceHeader) []) [(lamp, true)]) []

theorem backup_clean : backup.Clean .utc := by
  refine ⟨⟨⟨aliceHeader_clean, by simp⟩, ?_⟩, by simp⟩
  intro x hx
  rw [List.mem_singleton] at hx
  rw [hx]
  exact lamp_clean

theorem exact_iff_backup :
    ((∀ t, backup.Exact .utc t) ↔ ∃ h, backup = header h) ∧
      ∀ t, CleanText t → ((∀ layer ∈ backup.layers, layer.Exact .utc t) ↔ backup.Aligned .utc) :=
  exact_iff backup_clean

/-- The section of no contracts ends 25 characters behind its start, the first contract is found at
-1, and their sum is what is returned for a text of 115 characters. -/
theorem not_exact_no_contracts :
    (contracts (header aliceHeader) []).Clean .utc ∧
      (∃ loaded, (contracts (header aliceHeader) []).read .utc
        ((contracts (header aliceHeader) []).write .utc ++ "") = .ok (24, loaded)) ∧
      ((contracts (header aliceHeader) []).write .utc).length = 115 ∧
      ¬ (contracts (header aliceHeader) []).Exact .utc "" := by
  obtain ⟨loaded, hheader⟩ := exact_header aliceHeader_clean
    ((ContractsDecorator.saveSection .utc).body [] ++ ("</contracts>" ++ ""))
  have hsection : (ContractsDecorator.saveSection .utc).read
      ((header aliceHeader).write .utc ++
        ((ContractsDecorator.saveSection .utc).body [] ++ ("</contracts>" ++ "")))
      ((header aliceHeader).write .utc).length = .ok (24, []) := by
    have hfirst : indexOf ((ContractsDecorator.saveSection .utc).body [] ++ ("</contracts>" ++ ""))
        (ContractsDecorator.saveSection .utc).entityBegin = -1 := by decide +kernel
    have hend : indexOf ((ContractsDecorator.saveSection .utc).body [] ++ ("</contracts>" ++ ""))
        (ContractsDecorator.saveSection .utc).sectionEnd = 13 := by decide +kernel
    rw [SaveSection.read, SaveSection.substringFrom_append, Except.ok_bind,
      EntityReader.readLoop_done hfirst, Except.ok_bind, hfirst]
    dsimp only
    rw [hend]
    rfl
  have hread : (contracts (header aliceHeader) []).read .utc
      ((contracts (header aliceHeader) []).write .utc ++ "") = .ok (24, .contracts loaded []) :=
    ((congrArg _ ((ContractsDecorator.saveSection .utc).write_append _ [] "")).trans
      (read_contracts [] hheader)).trans (congrArg (Except.map _) hsection)
  have hlength : ((contracts (header aliceHeader) []).write .utc).length = 115 := by decide +kernel
  refine ⟨⟨aliceHeader_clean, by simp⟩, ⟨_, hread⟩, hlength, ?_⟩
  rintro ⟨loaded', hexact⟩
  rw [hread, hlength] at hexact
  cases hexact

end Save

end Sxp
