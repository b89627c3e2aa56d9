-- SUMMARY: The contracts of the save file: the text of a stored contract, its parser, and which contracts are restored.
import Sxp.Save.Records

/-!
# ContractsDecorator

The record of a contract is cut out with its end mark, a bracket and the end of the line, and
its last field is read up to the first bracket.
-/

namespace Sxp

open Text (between after upTo substring substringFrom indexOf)

inductive EstablisherType where
  | sigma
  | ethereum
deriving Repr, DecidableEq

instance EstablisherType.javaEnum : JavaEnum EstablisherType where
  canonicalName := "model.api.EstablisherType"
  values := [.sigma, .ethereum]
  name
    | .sigma => "Sigma"
    | .ethereum => "Ethereum"
  mem_values e := by cases e <;> decide
  name_injective e e' := by cases e <;> cases e' <;> decide
  name_plain e := by cases e <;> decide

instance Wish.javaEnum : JavaEnum Wish where
  canonicalName := "model.api.Wish"
  values := [.neutral, .accept, .refuse]
  name
    | .neutral => "NEUTRAL"
    | .accept => "ACCEPT"
    | .refuse => "REFUSE"
  mem_values e := by cases e <;> decide
  name_injective e e' := by cases e <;> cases e' <;> decide
  name_plain e := by cases e <;> decide

instance Status.javaEnum : JavaEnum Status where
  canonicalName := "model.api.Status"
  values := [.nowhere, .signing, .finalized, .cancelled, .resolving]
  name
    | .nowhere => "NOWHERE"
    | .signing => "SIGNING"
    | .finalized => "FINALIZED"
    | .cancelled => "CANCELLED"
    | .resolving => "RESOLVING"
  mem_values e := by cases e <;> decide
  name_injective e e' := by cases e <;> cases e' <;> decide
  name_plain e := by cases e <;> decide

structure ContractEntity where
  id : Option String
  userid : Option String
  createdAt : Option Int
  title : Option String
  clauses : Option (List (Option String))
  parties : Option (List (Option String))
  partiesNames : Option StringMap
  wish : Option Wish
  status : Option Status
  signatures : Option StringMap
  establisherType : Option EstablisherType
  establishementData : Option String
deriving DecidableEq

namespace ContractEntity

def toString (zone : TimeZone) (c : ContractEntity) : String :=
  "ContractEntity [id=" ++ c.id.getD "null" ++ ", userid=" ++ c.userid.getD "null" ++
    ", createdAt=" ++
    dateText zone c.createdAt ++ ", title=" ++ c.title.getD "null" ++ ", clauses=" ++
    listText c.clauses ++
    ", parties=" ++ listText c.parties ++ ", partiesNames=" ++ mapText c.partiesNames ++
    ", wish=" ++
    constantText c.wish ++ ", status=" ++ constantText c.status ++ ", signatures=" ++
    mapText c.signatures ++
    ", establisherType=" ++ constantText c.establisherType ++ ", establishementData=" ++
    c.establishementData.getD "null" ++ "]"

/-- The contract has the values of the other in all its fields but the id; two maps are the same
if they have the same entries. -/
def SameFields (c' c : ContractEntity) : Prop :=
  { c with id := c'.id, partiesNames := c'.partiesNames, signatures := c'.signatures } = c' ∧
    StringMap.Same c'.partiesNames c.partiesNames ∧ StringMap.Same c'.signatures c.signatures

/-- The last field, with the end mark that its record keeps. -/
def lastField (c : ContractEntity) : SavedField where
  mark := ", establishementData="
  text := c.establishementData.getD "null" ++ "]\n"
  reads x := ∃ data, upTo x "]" = .ok data ∧ c.establishementData = some data
  readable := ∃ data, c.establishementData = some data ∧ ']' ∉ data.toList
  reads_text := by
    have hmark : "]\n" = "]" ++ "\n" := by decide
    constructor
    · rintro ⟨data, hdata, hsome⟩
      refine ⟨data, hsome, ?_⟩
      rw [← List.singleton_infix_iff]
      exact Text.upTo_not_infix ContractsDecorator.bracket_isMark hdata
    · rintro ⟨data, hsome, hclean⟩
      refine ⟨data, ?_, hsome⟩
      rw [hsome, Option.getD_some, hmark, ← String.append_assoc]
      exact Text.upTo_append ContractsDecorator.bracket_isMark
        (mt (List.singleton_infix_iff ']' _).mp hclean) "\n"
  not_reads_break := by
    rintro v b r hb htext ⟨data, hdata, hsome⟩
    -- behind the data there is the end of the line alone
    obtain ⟨w, rfl⟩ := Text.eq_of_firstAt (Text.upTo_eq_ok.mp hdata)
    have hmark : "]\n".toList = "]".toList ++ ['\n'] := by decide
    rw [hsome, Option.getD_some] at htext
    simp only [String.toList_append, List.append_assoc, hmark] at htext
    have hrest := List.append_cancel_left (List.append_cancel_left htext)
    have hcomma : ',' ∈ ['\n'] := by
      rw [hrest]
      simp [hb.comma_mem]
    exact absurd hcomma (by decide)

/-- The fields before the data of the establisher. -/
def fields (zone : TimeZone) (c : ContractEntity) : List SavedField :=
  [stringField ", userid=" c.userid, dateField zone ", createdAt=" c.createdAt,
    stringField ", title=" c.title,
    listField ", clauses=" c.clauses, listField ", parties=" c.parties,
    mapField ", partiesNames=" c.partiesNames,
    constantField ", wish=" c.wish, constantField ", status=" c.status,
    mapField ", signatures=" c.signatures, constantField ", establisherType=" c.establisherType]

end ContractEntity

namespace ContractsDecorator

def parseContract (zone : TimeZone) (string : String) :
    Except JavaException (Option ContractEntity) := do
  let userid ← between string ", userid=" ", createdAt="
  let date ← between string ", createdAt=" ", title="
  orNull (SimpleDateFormat.parse zone date) fun date => do
    let title ← between string ", title=" ", clauses="
    let clauses ← between string ", clauses=" ", parties="
    let clauses ← parseArrayList clauses
    let parties ← between string ", parties=" ", partiesNames="
    let parties ← parseArrayList parties
    let partiesNames ← between string ", partiesNames=" ", wish="
    let partiesNames ← parseHashMap partiesNames
    let wish ← between string ", wish=" ", status="
    let wish ← JavaEnum.valueOf Wish wish
    let status ← between string ", status=" ", signatures="
    let status ← JavaEnum.valueOf Status status
    let signatures ← between string ", signatures=" ", establisherType="
    let signatures ← parseHashMap signatures
    let establisherType ← between string ", establisherType=" ", establishementData="
    let establisherType ← JavaEnum.valueOf EstablisherType establisherType
    let string ← substringFrom string (indexOf string ", establishementData=")
    let data ← substring string ", establishementData=".length (indexOf string "]")
    return some {
      id := none, userid := some userid, createdAt := some date, title := some title
      clauses := some (clauses.map some), parties := some (parties.map some)
      partiesNames := some partiesNames, wish := some wish, status := some status
      signatures := some signatures, establisherType := some establisherType
      establishementData := some data }

/-- What `read` makes of the first contract in a text. -/
def readContract (zone : TimeZone) (str : String) :
    Except JavaException (Option ContractEntity) := do
  let string ← substring str (indexOf str "ContractEntity [" + "ContractEntity [".length)
    (indexOf str "]\n" + "]\n".length)
  parseContract zone string

theorem marked (zone : TimeZone) (c : ContractEntity) :
    SavedField.Marked (c.fields zone ++ [c.lastField]) := by
  refine SavedField.Marked.of_marks [", userid=", ", createdAt=", ", title=", ", clauses=",
    ", parties=",
    ", partiesNames=", ", wish=", ", status=", ", signatures=", ", establisherType=",
    ", establishementData="] rfl ?_
  decide +kernel

/-- A bracket that is looked for from a mark on is not in the mark. -/
theorem upTo_bracket_iff {mark r data : String} (hm : ']' ∉ mark.toList) :
    substring (mark ++ r) mark.length (indexOf (mark ++ r) "]") = .ok data ↔
    upTo r "]" = .ok data := by
  have hhead : "]".toList.head? = some ']' := by decide
  have hstart : indexOf (mark ++ r) mark = 0 := by
    rw [indexOf, String.toList_append, Marks.FirstAt.start.indexOf]
    rfl
  have hbetween : substring (mark ++ r) mark.length (indexOf (mark ++ r) "]") =
      between (mark ++ r) mark "]" := by
    rw [between, hstart, zero_add]
  rw [hbetween, Text.between_eq_ok, String.toList_append, Marks.between_eq_some Marks.FirstAt.start,
    List.nil_append, Text.upTo_eq_ok]
  constructor
  · intro h
    obtain ⟨q, hq⟩ := Marks.exists_firstAt ((Marks.infix_skip hhead hm).mp h.isInfix)
    rwa [List.append_cancel_left (h.unique (hq.skip hhead hm))]
  · exact fun h => h.skip hhead hm

/-- The data is read from its mark on, up to the first bracket. -/
theorem readData_iff {string mark data : String} (h : mark.toList <:+: string.toList)
    (hm : ']' ∉ mark.toList) :
    (∃ s, substringFrom string (indexOf string mark) = .ok s ∧
      substring s mark.length (indexOf s "]") = .ok data) ↔
      ∃ x, after string mark = .ok x ∧ upTo x "]" = .ok data := by
  obtain ⟨p, hp⟩ := Text.exists_firstAt h
  obtain ⟨r, rfl⟩ := Text.eq_of_firstAt hp
  have hfrom : substringFrom (p ++ mark ++ r) (indexOf (p ++ mark ++ r) mark) =
      .ok (mark ++ r) := by
    rw [Text.substringFrom_eq_ok]
    exact ⟨p, String.append_assoc, by rw [indexOf, hp.indexOf, String.length_toList]⟩
  have hafter : after (p ++ mark ++ r) mark = .ok r := by
    rw [String.toList_append, String.toList_append] at hp
    rw [Text.after_eq_ok, String.toList_append, String.toList_append]
    exact Marks.after_eq hp
  simp only [hfrom, hafter, Except.ok.injEq, exists_eq_left', upTo_bracket_iff hm]

theorem not_mem_dataMark : ']' ∉ ", establishementData=".toList := by decide +kernel

/-- A contract is parsed from a record exactly if all its fields are restored. -/
theorem parseContract_eq_ok {zone : TimeZone} {string : String} {c : ContractEntity} :
    (∃ c', parseContract zone string = .ok (some c') ∧ c'.id = none ∧ c'.SameFields c) ↔
      Marks.Restores string.toList ((c.fields zone ++ [c.lastField]).map SavedField.slot) := by
  simp only [parseContract, ContractEntity.fields, List.cons_append, List.nil_append,
    SavedField.restores_cons_cons,
    SavedField.restores_singleton, Except.bind_eq_ok, orNull_eq_ok_some, Except.pure_eq_ok,
    Option.some.injEq, ContractEntity.SameFields]
  constructor
  · rintro ⟨c', ⟨userid, huserid, date, hdate, t, ht, title, htitle, text₁, htext₁,
      clauses, hclauses,
      text₂, htext₂, parties, hparties, text₃, htext₃, names, hnames, text₄, htext₄, wish, hwish,
      text₅, htext₅, status, hstatus, text₆, htext₆, signatures, hsignatures, text₇, htext₇,
      type, htype, s, hs, data, hdata, rfl⟩, -, hfields, hsame₁, hsame₂⟩
    have hlast := Text.infix_of_between htext₇
    obtain ⟨x, hx, hupTo⟩ := (readData_iff hlast not_mem_dataMark).mp ⟨s, hs, hdata⟩
    rw [ContractEntity.mk.injEq] at hfields
    obtain ⟨-, h₁, h₂, h₃, h₄, h₅, -, h₆, h₇, -, h₈, h₉⟩ := hfields
    exact ⟨⟨userid, huserid, h₁⟩, ⟨date, hdate, t, ht, h₂⟩, ⟨title, htitle, h₃⟩,
      ⟨text₁, htext₁, clauses, hclauses, h₄⟩,
      ⟨text₂, htext₂, parties, hparties, h₅⟩, ⟨text₃, htext₃, names, hnames, hsame₁⟩,
      ⟨text₄, htext₄, wish, hwish, h₆⟩,
      ⟨text₅, htext₅, status, hstatus, h₇⟩, ⟨text₆, htext₆, signatures, hsignatures, hsame₂⟩,
      ⟨text₇, htext₇, type, htype, h₈⟩, ⟨x, hx, data, hupTo, h₉⟩⟩
  · rintro ⟨⟨userid, huserid, h₁⟩, ⟨date, hdate, t, ht, h₂⟩, ⟨title, htitle, h₃⟩,
      ⟨text₁, htext₁, clauses, hclauses, h₄⟩,
      ⟨text₂, htext₂, parties, hparties, h₅⟩, ⟨text₃, htext₃, names, hnames, hsame₁⟩,
      ⟨text₄, htext₄, wish, hwish, h₆⟩,
      ⟨text₅, htext₅, status, hstatus, h₇⟩, ⟨text₆, htext₆, signatures, hsignatures, hsame₂⟩,
      ⟨text₇, htext₇, type, htype, h₈⟩, ⟨x, hx, data, hupTo, h₉⟩⟩
    have hlast := Text.infix_of_between htext₇
    obtain ⟨s, hs, hdata⟩ := (readData_iff hlast not_mem_dataMark).mpr ⟨x, hx, hupTo⟩
    refine ⟨_, ⟨userid, huserid, date, hdate, t, ht, title, htitle, text₁, htext₁,
      clauses, hclauses,
      text₂, htext₂, parties, hparties, text₃, htext₃, names, hnames, text₄, htext₄, wish, hwish,
      text₅, htext₅, status, hstatus, text₆, htext₆, signatures, hsignatures, text₇, htext₇,
      type, htype, s, hs, data, hdata, rfl⟩, rfl, ?_, hsame₁, hsame₂⟩
    rw [h₁, h₂, h₃, h₄, h₅, h₆, h₇, h₈, h₉]

theorem toString_eq (zone : TimeZone) (c : ContractEntity) :
    c.toString zone = recordText "ContractEntity [" c.id (c.fields zone) ++
      ", establishementData=" ++ c.establishementData.getD "null" ++ "]" := by
  have hstart : "ContractEntity [id=" = "ContractEntity [" ++ "id=" := by decide +kernel
  rw [recordText, ← hstart]
  rfl

/-- The data of the establisher is written in front of the end mark. -/
theorem text_append (zone : TimeZone) (c : ContractEntity) :
    c.toString zone ++ "\n" =
      recordText "ContractEntity [" c.id (c.fields zone) ++ ", establishementData=" ++
        c.establishementData.getD "null" ++ "]\n" ++ "" := by
  have hend : "]\n" = "]" ++ "\n" := by decide
  rw [toString_eq, hend, String.append_empty, ← String.append_assoc]

/-- A contract is restored exactly if its fields are readable, none holds the mark of a later one,
and none holds the end mark. -/
theorem readContract_iff (zone : TimeZone) {c : ContractEntity} (hid : GeneratedId c.id) :
    (∃ c', readContract zone (c.toString zone ++ "\n") = .ok (some c') ∧ c'.id = none ∧
      c'.SameFields c) ↔ (∀ f ∈ c.fields zone ++ [c.lastField], f.readable) ∧
        SavedField.Separated (c.fields zone ++ [c.lastField]) ∧
        ∀ f ∈ c.fields zone, ¬ "]\n".toList <:+: f.text.toList := by
  have hcut : (∃ c', readContract zone (c.toString zone ++ "\n") = .ok (some c') ∧ c'.id = none ∧
      c'.SameFields c) ↔
      ∃ r, substring (c.toString zone ++ "\n")
            (indexOf (c.toString zone ++ "\n") "ContractEntity [" +
            "ContractEntity [".length) (indexOf (c.toString zone ++ "\n") "]\n" + "]\n".length) =
              .ok r ∧
        Marks.Restores r.toList ((c.fields zone ++ [c.lastField]).map SavedField.slot) := by
    simp only [readContract, Except.bind_eq_ok, ← @parseContract_eq_ok zone]
    constructor
    · rintro ⟨c', ⟨r, hr, hparse⟩, hsame⟩
      exact ⟨r, hr, c', hparse, hsame⟩
    · rintro ⟨r, hr, c', hparse, hsame⟩
      exact ⟨c', ⟨r, hr, hparse⟩, hsame⟩
  rw [hcut]
  by_cases hdata : ']' ∈ (c.establishementData.getD "null").toList
  · have hlast : ¬ c.lastField.readable := by
      rintro ⟨data, hsome, hclean⟩
      rw [hsome, Option.getD_some] at hdata
      exact hclean hdata
    refine iff_of_false ?_ fun h => hlast (h.1 _ (by simp))
    rintro ⟨r, -, hrestores⟩
    obtain ⟨x, data, hupTo, hsome⟩ := exists_reads_last hrestores
    have hclean := Text.upTo_not_infix bracket_isMark hupTo
    rw [hsome, Option.getD_some] at hdata
    exact hclean ((List.singleton_infix_iff ']' _).mpr hdata)
  · have htext : c.lastField.text.toList =
        (c.establishementData.getD "null").toList ++ "]\n".toList.take 2 := String.toList_append
    exact record_iff (marked zone c) hid (by decide +kernel) (by decide) (by decide) (by
      decide) hdata htext (text_append zone c)

end ContractsDecorator

end Sxp
