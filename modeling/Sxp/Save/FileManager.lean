-- SUMMARY: The file of the backups over all runs of saves and loads: which file a load reads, and what it restores.
import Sxp.Base.Machine
import Sxp.Save.Backup

/-!
# SaveFileManagerImpl

Every manager of the file writes to "test.txt", whatever path it was made for, and loads what stands
under its own path, line by line.
-/

namespace Sxp

open Text (Free)

/-! ## Lines of a file -/

namespace BufferedReader

/-- `readLine` in front of the end of the file, where it is null: a line up to its end and what
follows. A line ends with a line feed, a carriage return, or both in this order. -/
def readLine : List Char → List Char × List Char
  | [] => ([], [])
  | '\n' :: cs => ([], cs)
  | '\r' :: '\n' :: cs => ([], cs)
  | '\r' :: cs => ([], cs)
  | c :: cs => (c :: (readLine cs).1, (readLine cs).2)

theorem length_readLine (cs : List Char) : (readLine cs).2.length ≤ cs.length - 1 := by
  induction cs using readLine.induct with
  | case1 => exact Nat.le_refl 0
  | case2 cs => exact Nat.le_refl _
  | case3 cs => simp only [readLine, List.length_cons]; omega
  | case4 cs h => rw [readLine]; exact Nat.le_refl _; exact h
  | case5 c cs h₁ h₂ h₃ ih =>
      rw [readLine]
      · dsimp only
        rw [List.length_cons]
        omega
      all_goals assumption

/-- The first line of a text without carriage returns. -/
theorem readLine_eq {cs : List Char} (hcs : '\r' ∉ cs) :
    cs = (readLine cs).1 ++ '\n' :: (readLine cs).2 ∨ cs = (readLine cs).1 ∧
    (readLine cs).2 = [] := by
  induction cs using readLine.induct with
  | case1 => exact Or.inr ⟨rfl, rfl⟩
  | case2 cs => exact Or.inl rfl
  | case3 cs => exact absurd List.mem_cons_self hcs
  | case4 cs h => exact absurd List.mem_cons_self hcs
  | case5 c cs h₁ h₂ h₃ ih =>
      have hline : readLine (c :: cs) = (c :: (readLine cs).1, (readLine cs).2) := by
        rw [readLine] <;> assumption
      rw [hline]
      obtain hrest | ⟨hrest, hnil⟩ := ih fun hmem => hcs (List.mem_cons_of_mem c hmem)
      · exact Or.inl (congrArg (List.cons c) hrest)
      · exact Or.inr ⟨congrArg (List.cons c) hrest, hnil⟩

/-- The loop of a load: every line that is read, with a line feed behind it. -/
def readLines (cs : List Char) : List Char :=
  match cs with
  | [] => []
  | c :: cs => (readLine (c :: cs)).1 ++ '\n' :: readLines (readLine (c :: cs)).2
termination_by cs.length
decreasing_by
  have hlength := length_readLine (c :: cs)
  simp only [List.length_cons] at hlength ⊢
  omega

/-- A text without carriage returns is read as it is, up to a line feed at its end. -/
theorem readLines_eq {cs : List Char} (hcs : '\r' ∉ cs) : readLines cs = cs ∨
    readLines cs = cs ++ ['\n'] := by
  induction cs using readLines.induct with
  | case1 => exact Or.inl (by rw [readLines])
  | case2 c cs ih =>
      rw [readLines]
      obtain hsplit | ⟨hsplit, hnil⟩ := readLine_eq hcs
      · have hrest : '\r' ∉ (readLine (c :: cs)).2 := by
          rw [hsplit] at hcs
          exact fun hmem => hcs (List.mem_append_right _ (List.mem_cons_of_mem _ hmem))
        refine (ih hrest).imp (fun hlines => ?_) fun hlines => ?_
        · rw [hlines, ← hsplit]
        · rw [hlines, ← List.cons_append, ← List.append_assoc, ← hsplit]
      · refine Or.inr ?_
        rw [hnil, ← hsplit, readLines]

end BufferedReader

/-! ## The manager of the file -/

/-- The texts of the files, by path. The default charset is UTF-8, which gives back any text. -/
abbrev Files := String → Option String

structure SaveFileManagerImpl where
  save : Save
  path : String

namespace SaveFileManagerImpl

variable (zone : TimeZone)

/-- `save`, which does not use the path. -/
def save_ (m : SaveFileManagerImpl) (files : Files) : Files :=
  Function.update files "test.txt" (some (m.save.write zone))

/-- `load`: nothing is read where there is no file. -/
def load (m : SaveFileManagerImpl) (files : Files) : Option (Except JavaException (Int × Loaded)) :=
  (files m.path).map fun s => m.save.read zone (String.ofList (BufferedReader.readLines s.toList))

end SaveFileManagerImpl

/-- A call of a manager, with what its decorators store at that time. -/
inductive FileEvent where
  | save (m : SaveFileManagerImpl)
  | load (m : SaveFileManagerImpl)

def FileEvent.isSave : FileEvent → Prop
  | save _ => True
  | load _ => False

/-- The files while managers save and load, in any order. -/
def SaveFileManagerImpl.machine (zone : TimeZone) (files : Files) :
    Machine Files FileEvent (Option (Except JavaException (Int × Loaded))) where
  init := files
  step files
    | .save m => (m.save_ zone files, none)
    | .load m => (files, m.load zone files)

/-! ## What a load restores -/

/-- The managers are given these entities, in this order. -/
def Loaded.Restores (contracts : List ContractEntity) (items : List Item)
    (messages : List Message) : Loaded → Prop
  | .messages (.items (.contracts (.header _) contracts') items') messages' =>
      List.Forall₂ (fun c' c => ∃ r, c' = some r ∧ r.id = none ∧
        r.SameFields c) contracts' contracts ∧
        List.Forall₂ (fun i' i => i' = some { i with id := none }) items' items ∧
        List.Forall₂ (fun m' m => m' = some { m with id := none }) messages' messages
  | _ => False

/-- The entity is written by one of the decorators. -/
def SavedEntity.WrittenIn (contracts : List (ContractEntity × Bool)) (items : List (Item × Bool))
    (messages : List (Message × Bool)) : SavedEntity → Prop
  | contract c _ => c ∈ written contracts
  | item i _ => i ∈ written items
  | message m _ => m ∈ written messages

/-- The database made the ids. -/
structure GeneratedIds (contracts : List (ContractEntity × Bool)) (items : List (Item × Bool))
    (messages : List (Message × Bool)) : Prop where
  contracts : ∀ c ∈ written contracts, GeneratedId c.id
  items : ∀ i ∈ written items, GeneratedId i.id
  messages : ∀ m ∈ written messages, GeneratedId m.id

open SaveFactory (createDatedHeaderContractsItemsMessages)

section

variable {zone : TimeZone} {now : Int} {cs : List (ContractEntity × Bool)} {is : List (Item × Bool)}
  {ms : List (Message × Bool)} {t : String}

/-- A backup is restored as a whole exactly if each of its entities is restored alone. -/
theorem read_restores_iff (h : Legible zone now cs is ms) (hids : GeneratedIds cs is ms)
    (ht : Save.CleanText t)
    (now' : Int) (cs' : List (ContractEntity × Bool)) (is' : List (Item × Bool))
    (ms' : List (Message × Bool)) :
    (∃ a loaded, (createDatedHeaderContractsItemsMessages now' cs' is' ms').read zone
        ((createDatedHeaderContractsItemsMessages now cs is ms).write zone ++ t) = .ok (a, loaded) ∧
      loaded.Restores (written cs) (written is) (written ms)) ↔
      ∀ e : SavedEntity, e.WrittenIn cs is ms → e.Restored zone := by
  obtain ⟨h', a, hread⟩ := read_backup h ht now' cs' is' ms'
  have hcontracts := @List.exists_mapM_forall₂_iff _ _ _
    (fun c => ContractsDecorator.readContract zone (c.toString zone ++ "\n"))
    (fun c' c => ∃ r, c' = some r ∧ r.id = none ∧ r.SameFields c) (written cs)
  have hitems := @List.exists_mapM_forall₂_iff _ _ _ (fun i =>
    ItemsDecorator.readItem zone (i.toString zone ++ "\n"))
    (fun i' i => i' = some { i with id := none }) (written is)
  have hmessages := @List.exists_mapM_forall₂_iff _ _ _
    (fun m => MessagesDecorator.readMessage zone (m.toString zone ++ "\n"))
    (fun m' m => m' = some { m with id := none }) (written ms)
  constructor
  · rintro ⟨a', loaded, hok, hrestores⟩ e hwritten
    rw [hread] at hok
    simp only [Except.bind_eq_ok, Except.pure_eq_ok] at hok
    obtain ⟨contracts, hc, items, hi, messages, hm, heq⟩ := hok
    cases heq
    obtain ⟨hcR, hiR, hmR⟩ := hrestores
    cases e with
    | contract c hid =>
        obtain ⟨y, hy, r, rfl, hr⟩ := hcontracts.mp ⟨_, hc, hcR⟩ c hwritten
        exact ⟨r, hy, hr⟩
    | item i hid =>
        obtain ⟨y, hy, rfl⟩ := hitems.mp ⟨_, hi, hiR⟩ i hwritten
        exact hy
    | message m hid =>
        obtain ⟨y, hy, rfl⟩ := hmessages.mp ⟨_, hm, hmR⟩ m hwritten
        exact hy
  · intro hall
    obtain ⟨contracts, hc, hcR⟩ := hcontracts.mpr fun c hc => by
      obtain ⟨r, hr, hsame⟩ := hall (.contract c (hids.contracts c hc)) hc
      exact ⟨_, hr, r, rfl, hsame⟩
    obtain ⟨items, hi, hiR⟩ := hitems.mpr fun i hi => ⟨_, hall (.item i (hids.items i hi)) hi, rfl⟩
    obtain ⟨messages, hm, hmR⟩ :=
      hmessages.mpr fun m hm => ⟨_, hall (.message m (hids.messages m hm)) hm, rfl⟩
    refine ⟨a, .messages (.items (.contracts (.header h') contracts) items) messages, ?_,
      hcR, hiR, hmR⟩
    rw [hread, hc, Except.ok_bind, hi, Except.ok_bind, hm, Except.ok_bind]
    rfl

namespace SaveFileManagerImpl

/-- A manager saves to "test.txt", and the loads that follow leave it there. -/
theorem exec_saved (files : Files) (pre post : List FileEvent) (m : SaveFileManagerImpl)
    (hpost : ∀ e ∈ post, ¬ e.isSave) :
    (machine zone files).exec files (pre ++ .save m :: post) "test.txt" =
    some (m.save.write zone) := by
  rw [Machine.exec_append, Machine.exec_cons]
  refine (machine zone files).exec_preserves_of_mem (P := fun f =>
    f "test.txt" = some (m.save.write zone)) ?_ ?_
  · intro e he f hf
    cases e with
    | save m' => exact absurd trivial (hpost _ he)
    | load m' => exact hf
  · exact Function.update_self "test.txt" (some (m.save.write zone))
      ((machine zone files).exec files pre)

/-- No other file is written. -/
theorem exec_other (files : Files) (h : List FileEvent) {path : String}
    (hpath : path ≠ "test.txt") : (machine zone files).exec files h path = files path := by
  refine (machine zone files).exec_preserves (P := fun f => f path = files path) ?_ rfl h
  intro f e hf
  cases e with
  | save m => exact (Function.update_of_ne hpath _ _).trans hf
  | load m => exact hf

/-- The next load of "test.txt" after a save restores the backup exactly if each of its entities is
restored alone, whatever was saved and loaded before. A manager with another path never loads what
was saved. -/
theorem load_restores_iff (h : Legible zone now cs is ms) (hids : GeneratedIds cs is ms)
    (hlines : '\r' ∉ ((createDatedHeaderContractsItemsMessages now cs is ms).write zone).toList)
    (files : Files) (pre post : List FileEvent) (path : String) (hpost : ∀ e ∈ post, ¬ e.isSave) :
    let after := (machine zone files).exec files
      (pre ++ .save { save := createDatedHeaderContractsItemsMessages now cs is ms,
                      path := path } :: post)
    (∀ now' cs' is' ms', (∃ a loaded, load zone
        { save := createDatedHeaderContractsItemsMessages now' cs' is' ms',
          path := "test.txt" } after = some (.ok (a, loaded)) ∧
        loaded.Restores (written cs) (written is) (written ms)) ↔
      ∀ e : SavedEntity, e.WrittenIn cs is ms → e.Restored zone) ∧
    ∀ m : SaveFileManagerImpl, m.path ≠ "test.txt" → m.load zone after = m.load zone files := by
  intro after
  have hother : ∀ path ≠ "test.txt", after path = files path :=
    fun path hpath => exec_other files _ hpath
  refine ⟨fun now' cs' is' ms' => ?_, fun m hm => by rw [load, load, hother m.path hm]⟩
  have hafter : after "test.txt" =
      some ((createDatedHeaderContractsItemsMessages now cs is ms).write zone) :=
    exec_saved files pre post _ hpost
  -- the line feed that the loop may add is a text without marks
  obtain ⟨t, ht, htext⟩ : ∃ t, Save.CleanText t ∧ String.ofList (BufferedReader.readLines
      ((createDatedHeaderContractsItemsMessages now cs is ms).write zone).toList) =
        (createDatedHeaderContractsItemsMessages now cs is ms).write zone ++ t := by
    obtain hsame | hsame := BufferedReader.readLines_eq hlines
    · exact ⟨"", by decide +kernel, by rw [hsame, String.ofList_toList, String.append_empty]⟩
    · refine ⟨"\n", by decide +kernel, ?_⟩
      rw [hsame, ← String.toList_inj, String.toList_ofList, String.toList_append]
      rfl
  rw [← read_restores_iff h hids ht now' cs' is' ms', ← htext]
  simp only [load, hafter, Option.map_some, Option.some.injEq]

end SaveFileManagerImpl

end

namespace Sample

open ContractsDecorator (ListReadable MapReadable)

/-- The contract on the sale of a lamp. -/
def lampSale : ContractEntity where
  id := none
  userid := some "1"
  createdAt := some 0
  title := some "Sale"
  clauses := some [some "Pay", some "Ship"]
  parties := some [some "1", some "2"]
  partiesNames := some (.ofEntries [("1", "Al")])
  wish := some .neutral
  status := some .nowhere
  signatures := some (.ofEntries [("Al", "1")])
  establisherType := some .sigma
  establishementData := some "-"

/-- A question about the lamp. -/
def lampMessage : Message where
  id := none
  sendingDate := some 0
  senderId := some "2"
  senderName := some "Bo"
  receiverId := some "1"
  receiverName := some "Al"
  messageContent := some "Why?"
  status := some .DRAFT
  pbkey := some 7
  signature := some { r := some 3, s := some 5 }

theorem lampSale_clean : lampSale.Clean .utc where
  id := by decide +kernel
  fields := by decide +kernel
  last := by decide +kernel

theorem lampMessage_clean : lampMessage.Clean .utc where
  id := by decide +kernel
  fields := by decide +kernel
  last := by decide +kernel

theorem epoch_readable : Date.Readable .utc 0 where
  seconds := rfl
  era := by decide +kernel
  offset := by decide +kernel

theorem pair_readable {s t : String} (hs : ¬ ", ".toList <:+: s.toList)
    (ht : ¬ ", ".toList <:+: t.toList ∧ ']' ∉ t.toList) : ListReadable [some s, some t] where
  nonempty := List.cons_ne_nil _ _
  element := by
    simp only [List.forall_mem_cons]
    exact ⟨⟨s, rfl, hs⟩, ⟨t, rfl, ht.1⟩, List.forall_mem_nil _⟩
  last v hv := by
    cases hv
    exact ht.2

theorem entry_readable {k v : String}
    (hentries : (StringMap.ofEntries [(k, v)]).map.entries = [(some k, some v)])
    (hk : '=' ∉ k.toList ∧ ¬ ", ".toList <:+: k.toList ∧ '}' ∉ k.toList)
    (hv : ¬ ", ".toList <:+: v.toList ∧ '}' ∉ v.toList) : MapReadable (.ofEntries [(k, v)]) where
  nonempty := by
    rw [hentries]
    exact List.cons_ne_nil _ _
  entry := by
    rw [hentries]
    exact List.forall_mem_singleton.mpr ⟨k, v, rfl, hk.1, hk.2.1, hv.1⟩
  last k' v' h := by
    rw [hentries] at h
    cases h
    exact ⟨hk.2.2, hv.2⟩

theorem lampSale_restored : (SavedEntity.contract lampSale GeneratedId.none).Restored .utc := by
  refine (ContractsDecorator.readContract_iff .utc GeneratedId.none).mpr ⟨?_, ?_, ?_⟩
  · change ∀ f ∈ [_, _, _, _, _, _, _, _, _, _, _], _
    simp only [List.forall_mem_cons]
    exact ⟨Option.some_ne_none _, ⟨0, rfl, epoch_readable⟩, Option.some_ne_none _,
      ⟨_, rfl, pair_readable (by decide) (by decide)⟩,
      ⟨_, rfl, pair_readable (by decide) (by decide)⟩,
      ⟨_, rfl, entry_readable (by decide) (by decide) (by decide)⟩, Option.some_ne_none _,
      Option.some_ne_none _,
      ⟨_, rfl, entry_readable (by decide) (by decide) (by decide)⟩, Option.some_ne_none _,
      ⟨_, rfl, by decide⟩, List.forall_mem_nil _⟩
  · change List.Pairwise _ _
    decide +kernel
  · decide +kernel

theorem lamp_restored : (SavedEntity.item Save.lamp GeneratedId.none).Restored .utc := by
  refine (ItemsDecorator.readItem_iff .utc GeneratedId.none).mpr ⟨?_, ?_, ?_⟩
  · change ∀ f ∈ [_, _, _, _, _, _, _], _
    simp only [List.forall_mem_cons]
    exact ⟨Option.some_ne_none _, Option.some_ne_none _, ⟨0, rfl, epoch_readable⟩,
      Option.some_ne_none _,
      Option.some_ne_none _, Option.some_ne_none _, ⟨3, 5, rfl⟩, List.forall_mem_nil _⟩
  · change List.Pairwise _ _
    decide +kernel
  · decide +kernel

theorem lampMessage_restored :
    (SavedEntity.message lampMessage GeneratedId.none).Restored .utc := by
  refine (MessagesDecorator.readMessage_iff .utc GeneratedId.none).mpr ⟨?_, ?_, ?_⟩
  · change ∀ f ∈ [_, _, _, _, _, _, _, _, _], _
    simp only [List.forall_mem_cons]
    exact ⟨⟨0, rfl, epoch_readable⟩, Option.some_ne_none _, Option.some_ne_none _,
      Option.some_ne_none _,
      Option.some_ne_none _, Option.some_ne_none _, Option.some_ne_none _, Option.some_ne_none _,
      ⟨3, 5, rfl⟩, List.forall_mem_nil _⟩
  · change List.Pairwise _ _
    decide +kernel
  · decide +kernel

/-- What is written holds no carriage return. -/
theorem lamp_lines : '\r' ∉
    ((createDatedHeaderContractsItemsMessages 0 [(lampSale, true)] [(Save.lamp, true)]
    [(lampMessage, true)]).write .utc).toList := by
  have hheader : Free "\r" (DatedHeader.write .utc (.new 0)) := by decide +kernel
  have hsale : Free "\r" (lampSale.toString .utc) := by decide +kernel
  have hitem : Free "\r" (Save.lamp.toString .utc) := by decide +kernel
  have hmessage : Free "\r" (lampMessage.toString .utc) := by decide +kernel
  have hcontracts : Free "\r"
      ((ContractsDecorator.saveSection .utc).write _ [(lampSale, true)] ++ "") :=
    SaveSection.write_free hheader (by decide) (by decide +kernel) (by decide +kernel)
      (List.forall_mem_singleton.mpr hsale) (by decide +kernel)
  have hitems : Free "\r" ((ItemsDecorator.saveSection .utc).write _ [(Save.lamp, true)] ++ "") :=
    SaveSection.write_free hcontracts (by decide) (by decide +kernel) (by decide +kernel)
      (List.forall_mem_singleton.mpr hitem) (by decide +kernel)
  have hmessages : Free "\r"
      ((MessagesDecorator.saveSection .utc).write _ [(lampMessage, true)] ++ "") :=
    SaveSection.write_free hitems (by decide) (by decide +kernel) (by decide +kernel)
      (List.forall_mem_singleton.mpr hmessage) (by decide +kernel)
  simp only [String.append_empty] at hmessages
  exact mt (List.singleton_infix_iff '\r' _).mpr hmessages

theorem lamp_legible : Legible .utc 0 [(lampSale, true)] [(Save.lamp, true)]
    [(lampMessage, true)] where
  date := by decide +kernel
  contracts := List.forall_mem_singleton.mpr ⟨lampSale_clean, by decide +kernel⟩
  items := List.forall_mem_singleton.mpr ⟨Save.lamp_clean, rfl⟩
  messages := List.forall_mem_singleton.mpr ⟨lampMessage_clean, rfl⟩

theorem lamp_generatedIds :
    GeneratedIds [(lampSale, true)] [(Save.lamp, true)] [(lampMessage, true)] where
  contracts := List.forall_mem_singleton.mpr GeneratedId.none
  items := List.forall_mem_singleton.mpr GeneratedId.none
  messages := List.forall_mem_singleton.mpr GeneratedId.none

end Sample

namespace SaveFileManagerImpl

/-- The backup of a contract, an item and a message, which is saved by a manager for another
path. -/
theorem load_restores_lamp :
    let saved := createDatedHeaderContractsItemsMessages 0 [(Sample.lampSale, true)]
      [(Save.lamp, true)] [(Sample.lampMessage, true)]
    let after := (machine .utc fun _ => none).exec (fun _ => none)
      [.save { save := saved, path := "backup.txt" }]
    (∃ a loaded, load .utc { save := saved, path := "test.txt" } after = some (.ok (a, loaded)) ∧
      loaded.Restores [Sample.lampSale] [Save.lamp] [Sample.lampMessage]) ∧
      load .utc { save := saved, path := "backup.txt" } after = none := by
  intro saved after
  obtain ⟨hrestores, hother⟩ :=
    load_restores_iff Sample.lamp_legible Sample.lamp_generatedIds Sample.lamp_lines
    (fun _ => none) [] [] "backup.txt" (List.forall_mem_nil _)
  refine ⟨(hrestores 0 [(Sample.lampSale, true)] [(Save.lamp, true)]
    [(Sample.lampMessage, true)]).mpr ?_, hother _ (by decide)⟩
  intro e hwritten
  cases e with
  | contract c hid =>
      obtain rfl := List.mem_singleton.mp hwritten
      exact Sample.lampSale_restored
  | item i hid =>
      obtain rfl := List.mem_singleton.mp hwritten
      exact Sample.lamp_restored
  | message m hid =>
      obtain rfl := List.mem_singleton.mp hwritten
      exact Sample.lampMessage_restored

end SaveFileManagerImpl

end Sxp
