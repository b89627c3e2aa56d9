-- SUMMARY: Advertisements as documents: what a peer publishes, what another one makes of it, and contracts sent this way.
import Mathlib.Logic.Function.Basic
import Sxp.Network.EstablisherService

/-!
# Advertisements

An advertisement is published as a document with its class and its annotated fields, found by
reflection. A receiver creates an object of the class and sets the fields that it declares and has
annotated, whatever else the document says. Nothing else of an object travels: where an
advertisement came from is for the receiver to add.
-/

namespace Sxp

/-- The annotation of a field, with its defaults. -/
structure AdvertisementAttribute where
  enabled : Bool := true
deriving Repr, DecidableEq

/-- A field that a class declares. -/
structure AdvertisementField where
  name : String
  annotated : Option AdvertisementAttribute := some {}
deriving Repr, DecidableEq

/-- The field is part of the document. -/
def AdvertisementField.enabled (f : AdvertisementField) : Bool :=
  f.annotated.any AdvertisementAttribute.enabled

/-- What a class of advertisements declares. -/
structure AdvertisementClass where
  canonicalName : String
  serviceName : Option String
  fields : List AdvertisementField
deriving Repr, DecidableEq

namespace AdvertisementClass

def item : AdvertisementClass where
  canonicalName := "network.impl.advertisement.ItemAdvertisement"
  serviceName := some "items"
  fields := [{ name := "title" }]

def user : AdvertisementClass where
  canonicalName := "network.impl.advertisement.UserAdvertisement"
  serviceName := some "users"
  fields := [{ name := "nick" }, { name := "pbkey" }]

def message : AdvertisementClass where
  canonicalName := "network.impl.advertisement.MessageAdvertisement"
  serviceName := some "messages"
  fields := [{ name := "senderId" }, { name := "receiverId" }]

/-- The id of the sender is not annotated. -/
def establisher : AdvertisementClass where
  canonicalName := "network.impl.advertisement.EstablisherAdvertisement"
  serviceName := some "establisher"
  fields := [{ name := "title" }, { name := "contract" }, { name := "key" },
    { name := "userid", annotated := none }]

/-- No service carries it. -/
def peer : AdvertisementClass where
  canonicalName := "network.impl.advertisement.PeerAdvertisement"
  serviceName := none
  fields := [{ name := "publicKey" }]

/-- The classes that a receiver can create. -/
def all : List AdvertisementClass := [item, user, message, establisher, peer]

/-- `Class.forName`, with the public constructor. -/
def forName (canonicalName : String) : Option AdvertisementClass :=
  all.find? fun c => c.canonicalName = canonicalName

/-- The field is declared, annotated and enabled. -/
def Enabled (c : AdvertisementClass) (name : String) : Prop :=
  ∃ f ∈ c.fields, f.name = name ∧ f.enabled = true

instance decidableEnabled (c : AdvertisementClass) (name : String) : Decidable (c.Enabled name) :=
  inferInstanceAs (Decidable (∃ f ∈ c.fields, _))

end AdvertisementClass

/-- An element of a document: its name and its text. -/
abbrev DocumentElement := String × String

/-- The XML tools: which texts and names an element can have, and what a text is after it was
written and read. -/
structure XmlTools where
  legalText : String → Bool
  legalName : String → Bool
  wire : String → String

/-- An advertisement, with the values of its fields. -/
structure AbstractAdvertisement where
  cls : AdvertisementClass
  values : String → Option String := fun _ => none
  sourceURI : Option String := none

namespace AbstractAdvertisement

/-- The loop of `initialize`: a field is set if the class declares it, annotated and enabled. -/
def initializeField (adv : AbstractAdvertisement) (e : DocumentElement) : AbstractAdvertisement :=
  match adv.cls.fields.find? fun f => f.name = e.1 with
  | none => adv
  | some f =>
      if f.enabled then { adv with values := Function.update adv.values e.1 (some e.2) } else adv

def initialize_ (adv : AbstractAdvertisement) (children : List DocumentElement) :
    AbstractAdvertisement :=
  children.foldl initializeField adv

/-- An element with a text, where null is the empty one. -/
def element (tools : XmlTools) (name : String) (text : Option String) :
    Except JavaException DocumentElement :=
  if tools.legalText (text.getD "") then .ok (name,
    text.getD "") else .error (.runtime "IllegalDataException")

/-- `getDocument`: the children of the root. -/
def getDocument (tools : XmlTools) (adv : AbstractAdvertisement) :
    Except JavaException (List DocumentElement) := do
  let el ← element tools "advertisementClass" (some adv.cls.canonicalName)
  let es ← (adv.cls.fields.filter AdvertisementField.enabled).mapM fun f =>
    element tools f.name (adv.values f.name)
  return el :: es

/-- `publish`, with the service that publishes the document. -/
def publish (tools : XmlTools) (adv : AbstractAdvertisement) :
    Except JavaException (String × List DocumentElement) :=
  match adv.cls.serviceName with
  | none => .error (.runtime "No service name defined for this class")
  | some service => do return (service, ← getDocument tools adv)

end AbstractAdvertisement

/-- The constructor of `AdvertisementBridge` from a document, as `AdvertisementInstanciator` calls
it: whatever goes wrong gives no advertisement. -/
def AdvertisementBridge.newInstance (tools : XmlTools) (children : List DocumentElement) :
    Option AbstractAdvertisement := do
  let className ← children.find? fun e => e.1 = "advertisementClass"
  let cls ← AdvertisementClass.forName className.2
  let elements := children.filter fun e => e.1 ≠ "advertisementClass"
  if elements.all fun e => tools.legalName e.1 && tools.legalText e.2 then
    some (AbstractAdvertisement.initialize_ { cls } elements)
  else none

/-- What arrives of a document. -/
def XmlTools.transport (tools : XmlTools) (children : List DocumentElement) :
    List DocumentElement :=
  children.map fun e => (e.1, tools.wire e.2)

namespace AbstractAdvertisement

variable {tools : XmlTools} {adv : AbstractAdvertisement} {children : List DocumentElement}
  {name : String}

/-! ## What a receiver makes of a document -/

theorem find_of_enabled {c : AdvertisementClass}
    (hc : (c.fields.map AdvertisementField.name).Nodup) :
    (∃ f, c.fields.find? (fun f => f.name = name) = some f ∧ f.enabled = true) ↔
    c.Enabled name := by
  constructor
  · rintro ⟨f, hf, henabled⟩
    exact ⟨f, List.mem_of_find?_eq_some hf, by simpa using List.find?_some hf, henabled⟩
  · rintro ⟨f, hf, rfl, henabled⟩
    refine ⟨f, ?_, henabled⟩
    cases hfind : c.fields.find? (fun g => g.name = f.name) with
    | none => exact absurd (decide_eq_true rfl) (List.find?_eq_none.mp hfind f hf)
    | some g =>
        have hname : g.name = f.name := by simpa using List.find?_some hfind
        rw [List.inj_on_of_nodup_map hc (List.mem_of_find?_eq_some hfind) hf hname]

/-- One element sets its field, if that is enabled. -/
theorem initializeField_eq (hc : (adv.cls.fields.map AdvertisementField.name).Nodup)
    (e : DocumentElement) : adv.initializeField e =
      { adv with values := if adv.cls.Enabled e.1 then Function.update adv.values e.1
                   (some e.2) else adv.values } := by
  unfold initializeField
  split
  · rename_i hnone
    rw [if_neg fun henabled => ?_]
    obtain ⟨f, hf, -⟩ := (find_of_enabled hc).mpr henabled
    cases hnone.symm.trans hf
  · rename_i f hf
    by_cases henabled : f.enabled = true
    · rw [if_pos henabled, if_pos ((find_of_enabled hc).mp ⟨f, hf, henabled⟩)]
    · rw [if_neg henabled, if_neg fun h => ?_]
      obtain ⟨g, hg, hgenabled⟩ := (find_of_enabled hc).mpr h
      cases hf.symm.trans hg
      exact henabled hgenabled

/-- The text of the last element with the name. -/
def lastText (name : String) (children : List DocumentElement) : Option String :=
  (children.reverse.find? fun e => e.1 = name).map Prod.snd

/-- Of all elements, in whatever order and number, the last one for each enabled field counts. -/
theorem initialize_eq (hc : (adv.cls.fields.map AdvertisementField.name).Nodup)
    (children : List DocumentElement) : adv.initialize_ children =
      { adv with values := fun name =>
          if adv.cls.Enabled name then (lastText name children).or (adv.values name)
            else adv.values name } := by
  rw [initialize_]
  induction children using List.reverseRecOn with
  | nil => simp [lastText]
  | append_singleton children e ih =>
      rw [List.foldl_append, ih, List.foldl_cons, List.foldl_nil, initializeField_eq (by exact hc)]
      congr 1
      funext name
      rw [lastText, List.reverse_append, List.reverse_singleton, List.singleton_append,
        List.find?_cons]
      by_cases hname : e.1 = name
      · subst hname
        by_cases henabled : adv.cls.Enabled e.1
        · simp [henabled]
        · simp [henabled]
      · by_cases henabled : adv.cls.Enabled e.1
        · simp [henabled, hname, Function.update_of_ne (Ne.symm hname), lastText]
        · simp [henabled, hname, lastText]

/-! ## What arrives of an advertisement -/

/-- The elements that stand for the fields. -/
def fieldElements (adv : AbstractAdvertisement) : List DocumentElement :=
  (adv.cls.fields.filter AdvertisementField.enabled).map fun f =>
    (f.name, (adv.values f.name).getD "")

/-- The elements that stand for an advertisement. -/
def document (adv : AbstractAdvertisement) : List DocumentElement :=
  ("advertisementClass", adv.cls.canonicalName) :: adv.fieldElements

/-- What a receiver gets to know of an advertisement: nothing but the enabled fields, and null as
the empty text. -/
def received (adv : AbstractAdvertisement) : AbstractAdvertisement where
  cls := adv.cls
  values name := if adv.cls.Enabled name then some ((adv.values name).getD "") else none

theorem element_eq_ok {text : Option String} {e : DocumentElement} :
    element tools name text = .ok e ↔ tools.legalText e.2 = true ∧ e = (name, text.getD "") := by
  unfold element
  split
  · rename_i hlegal
    simp only [Except.ok.injEq]
    constructor
    · rintro rfl
      exact ⟨hlegal, rfl⟩
    · rintro ⟨-, rfl⟩
      rfl
  · rename_i hlegal
    refine iff_of_false (by simp) ?_
    rintro ⟨h, rfl⟩
    exact hlegal h

theorem getDocument_eq_ok {es : List DocumentElement} :
    getDocument tools adv = .ok es ↔ (∀ e ∈ es, tools.legalText e.2 = true) ∧
    es = document adv := by
  have hfields : ∀ (fs : List AdvertisementField) (es : List DocumentElement),
      fs.mapM (fun f => element tools f.name (adv.values f.name)) = .ok es ↔
        (∀ e ∈ es, tools.legalText e.2 = true) ∧ es = fs.map fun f =>
        (f.name, (adv.values f.name).getD "") := by
    intro fs
    induction fs with
    | nil =>
        intro es
        simp only [List.mapM_nil, List.map_nil, Except.pure_eq_ok]
        constructor
        · rintro rfl
          exact ⟨List.forall_mem_nil _, rfl⟩
        · rintro ⟨-, rfl⟩
          rfl
    | cons f fs ih =>
        intro es
        simp only [List.mapM_cons, Except.bind_eq_ok, Except.pure_eq_ok, element_eq_ok, ih,
          List.map_cons]
        constructor
        · rintro ⟨e, ⟨hlegal, rfl⟩, rest, ⟨hrest, rfl⟩, rfl⟩
          exact ⟨List.forall_mem_cons.mpr ⟨hlegal, hrest⟩, rfl⟩
        · rintro ⟨hall, rfl⟩
          rw [List.forall_mem_cons] at hall
          exact ⟨_, ⟨hall.1, rfl⟩, _, ⟨hall.2, rfl⟩, rfl⟩
  simp only [getDocument, Except.bind_eq_ok, Except.pure_eq_ok, element_eq_ok, hfields, document,
    fieldElements, Option.getD_some]
  constructor
  · rintro ⟨el, ⟨hlegal, rfl⟩, rest, ⟨hrest, rfl⟩, rfl⟩
    exact ⟨List.forall_mem_cons.mpr ⟨hlegal, hrest⟩, rfl⟩
  · rintro ⟨hall, rfl⟩
    rw [List.forall_mem_cons] at hall
    exact ⟨_, ⟨hall.1, rfl⟩, _, ⟨hall.2, rfl⟩, rfl⟩

theorem class_facts : ∀ c ∈ AdvertisementClass.all, (c.fields.map AdvertisementField.name).Nodup ∧
    "advertisementClass" ∉ c.fields.map AdvertisementField.name ∧
    AdvertisementClass.forName c.canonicalName = some c := by
  decide +kernel

theorem mem_fieldElements {e : DocumentElement} :
    e ∈ adv.fieldElements ↔ ∃ f ∈ adv.cls.fields, f.enabled = true ∧
    e = (f.name, (adv.values f.name).getD "") := by
  simp only [fieldElements, List.mem_map, List.mem_filter, and_assoc, eq_comm]

/-- The text of an enabled field in the document. -/
theorem lastText_fieldElements (henabled : adv.cls.Enabled name) :
    lastText name adv.fieldElements = some ((adv.values name).getD "") := by
  obtain ⟨f, hf, rfl, hon⟩ := henabled
  rw [lastText]
  cases hfind : adv.fieldElements.reverse.find? fun e => e.1 = f.name with
  | none =>
      have hmem := List.mem_reverse.mpr (mem_fieldElements.mpr ⟨f, hf, hon, rfl⟩)
      exact absurd (decide_eq_true rfl) (List.find?_eq_none.mp hfind _ hmem)
  | some e =>
      obtain ⟨g, -, -, rfl⟩ :=
        mem_fieldElements.mp (List.mem_reverse.mp (List.mem_of_find?_eq_some hfind))
      have hname : g.name = f.name := by simpa using List.find?_some hfind
      rw [hname]
      rfl

/-- What a receiver makes of any document whatever: for each enabled field of its class, the last
element counts, and nothing else is set. -/
theorem newInstance_eq_some :
    AdvertisementBridge.newInstance tools children = some adv ↔
      ∃ className cls, children.find? (fun e => e.1 = "advertisementClass") = some className ∧
        AdvertisementClass.forName className.2 = some cls ∧
        (∀ e ∈ children, e.1 ≠ "advertisementClass" → tools.legalName e.1 = true ∧
          tools.legalText e.2 = true) ∧
        adv = { cls, values := fun name =>
                  if cls.Enabled name then lastText name children else none } := by
  have hlast : ∀ cls ∈ AdvertisementClass.all, ∀ name, cls.Enabled name →
      lastText name (children.filter fun e => e.1 ≠ "advertisementClass") =
      lastText name children := by
    rintro cls hcls name ⟨f, hf, rfl, -⟩
    have hne : f.name ≠ "advertisementClass" :=
      fun heq => (class_facts cls hcls).2.1 (heq ▸ List.mem_map_of_mem hf)
    rw [lastText, lastText, ← List.filter_reverse, List.find?_filter]
    congr 2
    funext e
    by_cases hname : e.1 = f.name
    · simp [hname, hne]
    · simp [hname]
  have hset : ∀ cls ∈ AdvertisementClass.all,
      initialize_ { cls } (children.filter fun e => e.1 ≠ "advertisementClass") =
        { cls, values := fun name =>
            if cls.Enabled name then lastText name children else none } := by
    intro cls hcls
    rw [initialize_eq (by exact (class_facts cls hcls).1)]
    congr 1
    funext name
    by_cases henabled : cls.Enabled name
    · simp only [if_pos henabled, hlast cls hcls name henabled, Option.or_none]
    · simp only [if_neg henabled]
  have hlegal : ((children.filter fun e => e.1 ≠ "advertisementClass").all fun e =>
      tools.legalName e.1 && tools.legalText e.2) = true ↔
        ∀ e ∈ children, e.1 ≠ "advertisementClass" → tools.legalName e.1 = true ∧
        tools.legalText e.2 = true := by
    simp only [List.all_eq_true, List.mem_filter, decide_eq_true_eq, Bool.and_eq_true, and_imp]
  simp only [AdvertisementBridge.newInstance, Option.bind_eq_bind, Option.bind_eq_some_iff]
  constructor
  · rintro ⟨className, hfind, cls, hcls, hsome⟩
    split at hsome
    · rename_i hall
      rw [hset cls (List.mem_of_find?_eq_some hcls), Option.some.injEq] at hsome
      exact ⟨className, cls, hfind, hcls, hlegal.mp hall, hsome.symm⟩
    · cases hsome
  · rintro ⟨className, cls, hfind, hcls, hall, rfl⟩
    refine ⟨className, hfind, cls, hcls, ?_⟩
    rw [if_pos (hlegal.mpr hall), hset cls (List.mem_of_find?_eq_some hcls)]

/-- What the receiver gets of a published document that arrives as it is. -/
theorem newInstance_document (hcls : adv.cls ∈ AdvertisementClass.all)
    (hnames : ∀ f ∈ adv.cls.fields, tools.legalName f.name = true)
    (hlegal : ∀ e ∈ adv.document, tools.legalText e.2 = true) :
    AdvertisementBridge.newInstance tools adv.document = some adv.received := by
  refine newInstance_eq_some.mpr ⟨_, adv.cls, rfl, (class_facts adv.cls hcls).2.2, ?_, ?_⟩
  · intro e he hne
    rcases List.mem_cons.mp he with rfl | hfield
    · exact absurd rfl hne
    · obtain ⟨f, hf, -, rfl⟩ := mem_fieldElements.mp hfield
      exact ⟨hnames f hf, hlegal _ he⟩
  · rw [received]
    congr 1
    funext name
    by_cases henabled : adv.cls.Enabled name
    · have hne : ("advertisementClass" : String) ≠ name := by
        rintro rfl
        obtain ⟨f, hf, hname, -⟩ := henabled
        exact (class_facts adv.cls hcls).2.1 (hname ▸ List.mem_map_of_mem hf)
      have hlast : lastText name adv.document = lastText name adv.fieldElements := by
        rw [lastText, lastText, document, List.reverse_cons, List.find?_append]
        simp [hne]
      rw [if_pos henabled, if_pos henabled, hlast, lastText_fieldElements henabled]
    · rw [if_neg henabled, if_neg henabled]

theorem publish_eq_ok {service : String} {es : List DocumentElement} :
    publish tools adv = .ok (service, es) ↔
      adv.cls.serviceName = some service ∧ (∀ e ∈ es, tools.legalText e.2 = true) ∧
      es = document adv := by
  rw [← getDocument_eq_ok]
  unfold publish
  split
  · rename_i hnone
    simp [hnone]
  · rename_i service' hsome
    simp only [Except.bind_eq_ok, Except.pure_eq_ok, Prod.mk.injEq, hsome, Option.some.injEq]
    constructor
    · rintro ⟨es', hes, rfl, rfl⟩
      exact ⟨rfl, hes⟩
    · rintro ⟨rfl, hes⟩
      exact ⟨es, hes, rfl, rfl⟩

theorem transport_eq_self (hwire : ∀ e ∈ children, tools.wire e.2 = e.2) :
    tools.transport children = children := by
  rw [XmlTools.transport]
  refine (List.map_congr_left fun e he => ?_).trans (List.map_id _)
  rw [hwire e he]
  rfl

/-- An advertisement of any class that was published is found by other peers with all its enabled
fields, null turned into the empty text, and with nothing else of the object. -/
theorem published_arrives {service : String} {es : List DocumentElement}
    (hcls : adv.cls ∈ AdvertisementClass.all)
    (hnames : ∀ f ∈ adv.cls.fields, tools.legalName f.name = true)
    (hpublish : publish tools adv = .ok (service, es)) (hwire : ∀ e ∈ es, tools.wire e.2 = e.2) :
    AdvertisementBridge.newInstance tools (tools.transport es) = some adv.received := by
  obtain ⟨-, hlegal, rfl⟩ := publish_eq_ok.mp hpublish
  rw [transport_eq_self hwire, newInstance_document hcls hnames hlegal]

/-- The user id of a contract's advertisement is lost, and so is the source. -/
theorem published_arrives_establisher :
    let tools : XmlTools := { legalText := fun _ => true, legalName := fun _ => true, wire := id }
    let adv : AbstractAdvertisement :=
      { cls := .establisher, values := fun name => some name, sourceURI := some "urn:jxta:1" }
    ∃ es adv', publish tools adv = .ok ("establisher", es) ∧
      AdvertisementBridge.newInstance tools (tools.transport es) = some adv' ∧
        adv'.values "title" = some "title" ∧
        adv'.values "userid" = none ∧ adv'.sourceURI = none := by
  intro tools adv
  have hpublish : publish tools adv = .ok ("establisher", adv.document) :=
    publish_eq_ok.mpr ⟨rfl, fun _ _ => rfl, rfl⟩
  have harrives := published_arrives
    (by decide : AdvertisementClass.establisher ∈ AdvertisementClass.all)
    (fun _ _ => rfl) hpublish fun _ _ => rfl
  exact ⟨_, _, hpublish, harrives, by decide +kernel, by decide +kernel, rfl⟩

end AbstractAdvertisement

/-! ## Contracts in advertisements -/

namespace JxtaEstablisherService

open AbstractAdvertisement

/-- The advertisement that `sendContract` publishes. -/
def contractAdvertisement (title data sourceKey : String) : AbstractAdvertisement where
  cls := .establisher
  values name :=
    if name = "title" then some title else if name = "contract" then some data
      else if name = "key" then some sourceKey
    else none

/-- An advertisement as the listeners of this service see it. -/
def found (adv : AbstractAdvertisement) : FoundAdvertisement :=
  if adv.cls = .establisher then
    .establisher { title := adv.values "title", contract := adv.values "contract",
                   key := adv.values "key" }
  else .other

/-- A contract that was sent: title, data and key of the sender. -/
structure SentContract where
  title : String
  data : String
  sourceKey : String
deriving Repr, DecidableEq

namespace SentContract

/-- What another peer finds of it. -/
def arrives (tools : XmlTools) (c : SentContract) : Option AbstractAdvertisement :=
  match publish tools (contractAdvertisement c.title c.data c.sourceKey) with
  | .error _ => none
  | .ok (_, es) => AdvertisementBridge.newInstance tools (tools.transport es)

/-- What listeners of other peers are called with. -/
def advertisement (c : SentContract) : EstablisherAdvertisement where
  title := some c.title
  contract := some c.data
  key := some c.sourceKey

/-- The document of the contract can be written, and is read as it was written. -/
def Carried (tools : XmlTools) (c : SentContract) : Prop :=
  ∀ e ∈ (contractAdvertisement c.title c.data c.sourceKey).document, tools.legalText e.2 = true ∧
    tools.wire e.2 = e.2

end SentContract

variable {L : Type} {tools : XmlTools}

theorem found_received (c : SentContract) :
    found (contractAdvertisement c.title c.data c.sourceKey).received =
    .establisher c.advertisement := by
  have htitle : AdvertisementClass.establisher.Enabled "title" := by decide
  have hcontract : AdvertisementClass.establisher.Enabled "contract" := by decide
  have hkey : AdvertisementClass.establisher.Enabled "key" := by decide
  simp [found, received, contractAdvertisement, htitle, hcontract, hkey, SentContract.advertisement]

theorem arrives_of_carried
    (hnames : ∀ f ∈ AdvertisementClass.establisher.fields, tools.legalName f.name = true)
    {c : SentContract} (hcarried : c.Carried tools) :
    ∃ adv, c.arrives tools = some adv ∧ found adv = .establisher c.advertisement := by
  have hcls : (contractAdvertisement c.title c.data c.sourceKey).cls ∈ AdvertisementClass.all := by
    change AdvertisementClass.establisher ∈ AdvertisementClass.all
    decide
  have hpublish := publish_eq_ok.mpr ⟨rfl, fun e he => (hcarried e he).1, rfl⟩
  refine ⟨_, ?_, found_received c⟩
  rw [SentContract.arrives, hpublish]
  change AdvertisementBridge.newInstance tools (tools.transport _) = _
  rw [transport_eq_self fun e he => (hcarried e he).2]
  exact newInstance_document hcls hnames fun e he => (hcarried e he).1

theorem heard_contracts (field : String) (value : Option String) (cs : List SentContract) :
    (heard field value (cs.map fun c => .establisher c.advertisement)).1 =
      (cs.filter fun c => field ≠ "title" ∨
        value = some c.title).map SentContract.advertisement := by
  induction cs with
  | nil => rfl
  | cons c cs ih =>
      rw [List.map_cons, heard]
      by_cases hfield : field = "title"
      · rw [if_pos hfield]
        simp only [SentContract.advertisement]
        by_cases hvalue : some c.title = value
        · rw [if_pos hvalue, List.filter_cons_of_pos (by simp [hvalue]), List.map_cons, ← ih]
          rfl
        · rw [if_neg hvalue, List.filter_cons_of_neg (by simp [hfield, Ne.symm hvalue]), ← ih]
          rfl
      · rw [if_neg hfield, List.filter_cons_of_pos (by simp [hfield]), List.map_cons, ← ih]

theorem searched_contracts (cs : List SentContract) :
    searched (cs.map fun c => .establisher c.advertisement) = (cs.map SentContract.advertisement,
      .ok ()) := by
  induction cs with
  | nil => rfl
  | cons c cs ih => rw [List.map_cons, searched, ih, List.map_cons]

/-- Contracts that are sent as advertisements are all found by another peer, and whenever they are
found together, they are heard by the listeners that were registered for their title or for another
attribute and, as answers to a search, by the listener of the last search, whatever its title: each
with its own title, data and sender. -/
theorem advertised_heard_iff
    (hnames : ∀ f ∈ AdvertisementClass.establisher.fields, tools.legalName f.name = true)
    (cs : List SentContract) (hcarried : ∀ c ∈ cs, c.Carried tools) :
    ∃ advs, cs.mapM (SentContract.arrives tools) = some advs ∧
      ∀ (h : List (EstablisherServiceEvent L)) (n : Notification L),
        (n ∈ ((run h).discovered (advs.map found)).1 ↔
          ∃ id field value l, Registered id field value l h ∧
          ∃ c ∈ cs, (field = "title" → value = some c.title) ∧ n = c.advertisement.notify l) ∧
        (n ∈ ((run h).discoveryEvent (advs.map found)).1 ↔
          ∃ l, Searches l h ∧ ∃ c ∈ cs, n = c.advertisement.notify l) := by
  have hadvs : ∃ advs, cs.mapM (SentContract.arrives tools) = some advs ∧
      advs.map found = cs.map fun c => .establisher c.advertisement := by
    induction cs with
    | nil => exact ⟨[], rfl, rfl⟩
    | cons c cs ih =>
        rw [List.forall_mem_cons] at hcarried
        obtain ⟨adv, harrives, hfound⟩ := arrives_of_carried hnames hcarried.1
        obtain ⟨advs, hadvs, hmap⟩ := ih hcarried.2
        refine ⟨adv :: advs, ?_, by rw [List.map_cons, hfound, hmap, List.map_cons]⟩
        rw [List.mapM_cons, harrives, hadvs]
        rfl
  obtain ⟨advs, hmapM, hfound⟩ := hadvs
  refine ⟨advs, hmapM, fun h n => ⟨?_, ?_⟩⟩
  · rw [mem_run_discovered, hfound, Hears]
    simp only [heard_contracts, List.mem_map, List.mem_filter, decide_eq_true_eq]
    constructor
    · rintro ⟨id, field, value, l, hregistered, -, ⟨c, ⟨hc, hmatch⟩, rfl⟩, rfl⟩
      exact ⟨id, field, value, l, hregistered, c, hc,
        fun hfield => hmatch.resolve_left (not_not.mpr hfield), rfl⟩
    · rintro ⟨id, field, value, l, hregistered, c, hc, hmatch, rfl⟩
      exact ⟨id, field, value, l, hregistered, _,
        ⟨c, ⟨hc, Decidable.not_or_of_imp hmatch⟩, rfl⟩, rfl⟩
  · rw [mem_run_discoveryEvent, hfound, Hears]
    simp only [searched_contracts, List.mem_map]
    constructor
    · rintro ⟨-, l, hsearches, -, ⟨c, hc, rfl⟩, rfl⟩
      exact ⟨l, hsearches, c, hc, rfl⟩
    · rintro ⟨l, hsearches, c, hc, rfl⟩
      exact ⟨by simp, l, hsearches, _, ⟨c, hc, rfl⟩, rfl⟩

end JxtaEstablisherService

namespace Sample

open JxtaEstablisherService

/-- Tools that carry every text. -/
def plainXml : XmlTools where
  legalText _ := true
  legalName _ := true
  wire t := t

def sentContract : SentContract := { title := "SIGN", data := "data", sourceKey := "8" }

theorem advertised_heard_iff_plain :
    ∃ advs, [sentContract].mapM (SentContract.arrives plainXml) = some advs ∧
      sentContract.advertisement.notify 1 ∈
        ((run [.setListener "title" (some "SIGN") "id" (1 : Nat) false []]).discovered
          (advs.map found)).1 := by
  obtain ⟨advs, hadvs, hheard⟩ := @advertised_heard_iff Nat plainXml (fun _ _ => rfl) [sentContract]
    fun _ _ _ _ => ⟨rfl, rfl⟩
  refine ⟨advs, hadvs, (hheard _ _).1.mpr ⟨"id", "title", some "SIGN", 1, ?_, sentContract,
    List.mem_cons_self, ?_⟩⟩
  · exact ⟨[], _, [], rfl, ⟨rfl, rfl, rfl, rfl, rfl⟩, fun a b hsplit => absurd hsplit (by simp)⟩
  · exact ⟨fun _ => rfl, rfl⟩

end Sample

end Sxp
