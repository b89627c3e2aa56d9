-- SUMMARY: The service that carries the messages of the protocols: its listeners, and whom it calls after any run of events.
import Sxp.Base.Since
import Sxp.Network.UserRequests

/-!
# The establisher service

A listener hears either of advertisements or of messages. One for advertisements is registered three
times: with the discovery service, for what other peers publish; in a table under its id, for what
this peer publishes; and as the listener of the last search. A listener is a value of any type, and
the calls made to listeners are the output; what they do when they are called comes later in a run,
as events of its own.
-/

namespace Sxp

namespace JxtaEstablisherService

/-- What is read of an advertisement of this service. -/
structure EstablisherAdvertisement where
  title : Option String
  contract : Option String
  key : Option String
deriving Repr, DecidableEq

/-- An advertisement that is found: of this service, of another one, or of none of this program. -/
inductive FoundAdvertisement where
  | establisher (adv : EstablisherAdvertisement)
  | other
  | foreign
deriving Repr, DecidableEq

/-- A call `l.notify(title, content, senderId)`. -/
structure Notification (L : Type) where
  listener : L
  title : Option String
  content : Option String
  senderId : Option String
deriving Repr, DecidableEq

def EstablisherAdvertisement.notify {L : Type} (l : L) (adv : EstablisherAdvertisement) :
    Notification L where
  listener := l
  title := adv.title
  content := adv.contract
  senderId := adv.key

/-- The calls an operation makes, and how it ends. -/
abbrev Calls (L : Type) := List (Notification L) × Except JavaException Unit

/-- A cast to a class that the object is not of. -/
def classCast : JavaException := .runtime "ClassCastException"

/-- The loop of a listener set on `field` and `value` over advertisements: those it is called
with. -/
def heard (field : String) (value : Option String) :
    List FoundAdvertisement → List EstablisherAdvertisement × Except JavaException Unit
  | [] => ([], .ok ())
  | .foreign :: _ => ([], .error classCast)
  | .other :: adverts => heard field value adverts
  | .establisher c :: adverts =>
      if field = "title" then
        match c.title with
        | none => ([], .error .nullPointer)
        | some title =>
            let rest := heard field value adverts
            if some title = value then (c :: rest.1, rest.2) else rest
      else
        let rest := heard field value adverts
        (c :: rest.1, rest.2)

/-- The loop of the search listener, over what its service found. -/
def searched : List FoundAdvertisement → List EstablisherAdvertisement × Except JavaException Unit
  | [] => ([], .ok ())
  | .establisher c :: adverts =>
      let rest := searched adverts
      (c :: rest.1, rest.2)
  | _ :: _ => ([], .error classCast)

/-- The listener that `setListener` makes for messages. -/
structure MessageListener (L : Type) where
  field : String
  value : Option String
  listener : L
deriving Repr, DecidableEq

/-- A `ListenerWithParam`, which hears what this peer publishes. -/
structure ParamListener (L : Type) where
  param : Option String
  listener : L
deriving Repr, DecidableEq

/-- The listener that `listens` makes for the discovery service, which is an object of its own. -/
structure DiscoveryListener (L : Type) where
  serial : Nat
  field : String
  value : Option String
  listener : L
deriving Repr, DecidableEq

end JxtaEstablisherService

/-- The service, with the listeners that it has registered with the discovery service. -/
structure JxtaEstablisherService (L : Type) where
  currentSl : Option L := none
  listeners : HashMap String (JxtaEstablisherService.MessageListener L) := {}
  advertisementListeners : HashMap String (JxtaEstablisherService.DiscoveryListener L) := {}
  establisherServiceListeners : HashMap String (JxtaEstablisherService.ParamListener L) := {}
  discoveryListeners : List (JxtaEstablisherService.DiscoveryListener L) := []
  made : Nat := 0

namespace JxtaEstablisherService

variable {L : Type}

/-- `listens`, where this peer has found `adverts` among its own ones. -/
def listens (s : JxtaEstablisherService L) (field : String) (value : Option String)
    (listenerId : String) (l : L)
    (adverts : List FoundAdvertisement) : JxtaEstablisherService L × Calls L :=
  let dl : DiscoveryListener L := { serial := s.made, field, value, listener := l }
  let s := { s with
    discoveryListeners := s.discoveryListeners ++ [dl]
    made := s.made + 1
    currentSl := some l }
  let loop := heard field value adverts
  let calls := loop.1.map fun c => c.notify l
  match loop.2 with
  | .error x => (s, calls, .error x)
  | .ok () =>
      ({ s with
          establisherServiceListeners :=
            s.establisherServiceListeners.put listenerId { param := value, listener := l }
          advertisementListeners := s.advertisementListeners.put listenerId dl }, calls, .ok ())

def setListener (s : JxtaEstablisherService L) (field : String) (value : Option String)
    (listenerId : String) (l : L)
    (useMessage : Bool) (adverts : List FoundAdvertisement) : JxtaEstablisherService L × Calls L :=
  if useMessage then
    ({ s with listeners := s.listeners.put listenerId { field, value, listener := l } }, [], .ok ())
  else s.listens field value listenerId l adverts

/-- What `removeListener` does with a listener for advertisements of other peers. -/
def removeDiscovery (s : JxtaEstablisherService L) (listenerId : String) :
    JxtaEstablisherService L :=
  match s.advertisementListeners.get listenerId with
  | none => s
  | some dl =>
      { s with
        discoveryListeners := s.discoveryListeners.filter fun d => d.serial ≠ dl.serial
        advertisementListeners := s.advertisementListeners.remove listenerId }

def removeListener (s : JxtaEstablisherService L) (listenerId : String) :
    JxtaEstablisherService L :=
  let s := s.removeDiscovery listenerId
  if s.establisherServiceListeners.containsKey listenerId then
    { s with establisherServiceListeners := s.establisherServiceListeners.remove listenerId }
  else { s with listeners := s.listeners.remove listenerId }

/-- `sendContract` by an advertisement: the listeners of this peer that are called. -/
def sendContract (s : JxtaEstablisherService L) (title data sourceKey : String) : Calls L :=
  let called := (s.establisherServiceListeners.entries.map Prod.snd).filter fun l =>
    l.param = none ∨ l.param = some title
  (called.map fun l => { listener := l.listener, title := title, content := data,
                         senderId := sourceKey }, .ok ())

/-- Advertisements of other peers reach the listeners that are registered with the discovery
service, each of which fails on its own. -/
def discovered (s : JxtaEstablisherService L) (adverts : List FoundAdvertisement) : Calls L :=
  (s.discoveryListeners.flatMap fun d => (heard d.field d.value adverts).1.map fun c =>
    c.notify d.listener, .ok ())

/-- `discoveryEvent`: the answer to a search, whichever it is. -/
def discoveryEvent (s : JxtaEstablisherService L) (adverts : List FoundAdvertisement) : Calls L :=
  if FoundAdvertisement.foreign ∈ adverts then ([], .error classCast)
  else
    match s.currentSl with
    | none => ([], .error .nullPointer)
    | some l => ((searched adverts).1.map fun c => c.notify l, (searched adverts).2)

def pipeMsgEvent (s : JxtaEstablisherService L) (m : MessagesGeneric) : Calls L :=
  match m.getWho.bind s.listeners.get with
  | none => ([], .ok ())
  | some sl =>
      match m.getMessage sl.field with
      | none => ([], .error .nullPointer)
      | some text =>
          if some text = sl.value then
            ([{ listener := sl.listener, title := m.getMessage "title",
                content := m.getMessage "contract"
                senderId := m.getMessage "sourceId" }], .ok ())
          else ([], .ok ())

end JxtaEstablisherService

/-- What happens to the service. -/
inductive EstablisherServiceEvent (L : Type) where
  | setListener (field : String) (value : Option String) (listenerId : String) (l : L)
      (useMessage : Bool) (adverts : List JxtaEstablisherService.FoundAdvertisement)
  | removeListener (listenerId : String)
  | sendContract (title data sourceKey : String)
  | discovered (adverts : List JxtaEstablisherService.FoundAdvertisement)
  | discoveryEvent (adverts : List JxtaEstablisherService.FoundAdvertisement)
  | pipeMsgEvent (m : MessagesGeneric)

namespace JxtaEstablisherService

variable {L : Type}

/-- The service from its start on. -/
def machine (L : Type) : Machine (JxtaEstablisherService L) (EstablisherServiceEvent L)
    (Calls L) where
  init := {}
  step s
    | .setListener field value listenerId l useMessage adverts =>
        s.setListener field value listenerId l useMessage adverts
    | .removeListener listenerId => (s.removeListener listenerId, [], .ok ())
    | .sendContract title data sourceKey => (s, s.sendContract title data sourceKey)
    | .discovered adverts => (s, s.discovered adverts)
    | .discoveryEvent adverts => (s, s.discoveryEvent adverts)
    | .pipeMsgEvent m => (s, s.pipeMsgEvent m)

/-- The service after a run. -/
def run (h : List (EstablisherServiceEvent L)) : JxtaEstablisherService L := (machine L).exec {} h

/-! ## Who is called, in terms of the events alone -/

/-- The event sets a listener for advertisements. -/
def Listens (id field : String) (value : Option String) (l : L) : EstablisherServiceEvent L → Prop
  | .setListener field' value' listenerId l' useMessage _ =>
      useMessage = false ∧ listenerId = id ∧ field' = field ∧ value' = value ∧ l' = l
  | _ => False

/-- The event changes which listener for advertisements has the id. One that is set gets it unless
an advertisement of this peer makes `listens` throw. -/
def Concerns (id : String) : EstablisherServiceEvent L → Prop
  | .setListener field value listenerId _ useMessage adverts =>
      useMessage = false ∧ listenerId = id ∧ (heard field value adverts).2 = .ok ()
  | .removeListener listenerId => listenerId = id
  | _ => False

/-- The event sets a listener for advertisements, which gets the id. -/
def Sets (id field : String) (value : Option String) (l : L)
    (e : EstablisherServiceEvent L) : Prop :=
  Listens id field value l e ∧ Concerns id e

/-- The event sets a listener for messages. -/
def SetsMessage (id field : String) (value : Option String) (l : L) :
    EstablisherServiceEvent L → Prop
  | .setListener field' value' listenerId l' useMessage _ =>
      useMessage = true ∧ listenerId = id ∧ field' = field ∧ value' = value ∧ l' = l
  | _ => False

/-- The listener for advertisements that has the id. -/
def InForce (id field : String) (value : Option String) (l : L) :
    List (EstablisherServiceEvent L) → Prop :=
  Machine.Since (fun _ e => Sets id field value l e) fun _ e => ¬ Concerns id e

/-- A listener for advertisements whose id was not removed next. It may have been replaced. -/
def Registered (id field : String) (value : Option String) (l : L)
    (h : List (EstablisherServiceEvent L)) : Prop :=
  ∃ before e after, h = before ++ e :: after ∧ Listens id field value l e ∧
    ∀ a b, after = a ++ .removeListener id :: b → Sets id field value l e → ∃ e' ∈ a, Concerns id e'

/-- The listener for messages that has the id. A removal takes it away only if no listener for
advertisements has the id. -/
def Awaits (id field : String) (value : Option String) (l : L) :
    List (EstablisherServiceEvent L) → Prop :=
  Machine.Since (fun _ e => SetsMessage id field value l e) fun h e =>
    (∀ field value l, ¬ SetsMessage id field value l e) ∧
      (e = .removeListener id → ∃ field value l, InForce id field value l h)

/-- The listener of the last search. -/
def Searches (l : L) : List (EstablisherServiceEvent L) → Prop :=
  Machine.Since (fun _ e => ∃ id field value, Listens id field value l e) fun _ e =>
    ∀ id field value l, ¬ Listens id field value l e

/-- The calls that an event makes after `h`. -/
def Hears (h : List (EstablisherServiceEvent L)) (n : Notification L) :
    EstablisherServiceEvent L → Prop
  | .setListener field value _ l useMessage adverts =>
      useMessage = false ∧ ∃ c ∈ (heard field value adverts).1, n = c.notify l
  | .removeListener _ => False
  | .sendContract title data sourceKey =>
      ∃ id field value l, InForce id field value l h ∧ (value = none ∨ value = some title) ∧
        n = { listener := l, title := title, content := data, senderId := sourceKey }
  | .discovered adverts =>
      ∃ id field value l, Registered id field value l h ∧
        ∃ c ∈ (heard field value adverts).1, n = c.notify l
  | .discoveryEvent adverts =>
      .foreign ∉ adverts ∧ ∃ l, Searches l h ∧ ∃ c ∈ (searched adverts).1, n = c.notify l
  | .pipeMsgEvent m =>
      ∃ id field value l, m.getWho = some id ∧ Awaits id field value l h ∧ value ≠ none ∧
        m.getMessage field = value ∧
        n = { listener := l, title := m.getMessage "title", content := m.getMessage "contract"
              senderId := m.getMessage "sourceId" }

/-! ## What an event changes -/

variable {s : JxtaEstablisherService L} {e : EstablisherServiceEvent L} {id field : String}
  {value : Option String} {l : L}

theorem listens_of_ok {adverts : List FoundAdvertisement}
    (h : (heard field value adverts).2 = .ok ()) (listenerId : String) :
    (s.listens field value listenerId l adverts).1 =
      { s with
        discoveryListeners := s.discoveryListeners ++ [⟨s.made, field, value, l⟩]
        made := s.made + 1
        currentSl := some l
        establisherServiceListeners := s.establisherServiceListeners.put listenerId ⟨value, l⟩
        advertisementListeners :=
          s.advertisementListeners.put listenerId ⟨s.made, field, value, l⟩ } := by
  unfold listens
  dsimp only
  rw [h]

theorem listens_of_not_ok {adverts : List FoundAdvertisement}
    (h : (heard field value adverts).2 ≠ .ok ()) (listenerId : String) :
    (s.listens field value listenerId l adverts).1 =
      { s with
        discoveryListeners := s.discoveryListeners ++ [⟨s.made, field, value, l⟩]
        made := s.made + 1
        currentSl := some l } := by
  unfold listens
  dsimp only
  split
  · rfl
  · exact absurd ‹_› h

theorem removeDiscovery_get (listenerId : String) :
    (s.removeDiscovery listenerId).advertisementListeners.get id =
      if id = listenerId then none else s.advertisementListeners.get id := by
  unfold removeDiscovery
  split
  · rename_i hnone
    split
    · rename_i hid
      rw [hid, hnone]
    · rfl
  · simp [HashMap.get_remove]

theorem removeListener_advertisementListeners (listenerId : String) :
    (s.removeListener listenerId).advertisementListeners =
    (s.removeDiscovery listenerId).advertisementListeners := by
  unfold removeListener
  dsimp only
  split <;> rfl

theorem removeDiscovery_frame (listenerId : String) :
    (s.removeDiscovery listenerId).establisherServiceListeners = s.establisherServiceListeners ∧
      (s.removeDiscovery listenerId).listeners = s.listeners ∧
      (s.removeDiscovery listenerId).currentSl = s.currentSl ∧
      (s.removeDiscovery listenerId).made = s.made := by
  unfold removeDiscovery
  split <;> exact ⟨rfl, rfl, rfl, rfl⟩

theorem next_advertisementListeners {d : DiscoveryListener L} :
    ((machine L).next s e).advertisementListeners.get id = some d ↔
      (d.serial = s.made ∧ Sets id d.field d.value d.listener e) ∨
        s.advertisementListeners.get id = some d ∧ ¬ Concerns id e := by
  obtain ⟨serial, field, value, l⟩ := d
  cases e with
  | setListener field' value' listenerId l' useMessage adverts =>
      cases useMessage with
      | true => simp [Machine.next, machine, setListener, Sets, Listens, Concerns]
      | false =>
          simp only [Machine.next, machine, setListener, Bool.false_eq_true, if_false]
          by_cases hok : (heard field' value' adverts).2 = .ok ()
          · rw [listens_of_ok hok]
            by_cases hid : id = listenerId
            · simp [HashMap.get_put, Sets, Listens, Concerns, hid, hok, eq_comm]
            · simp [HashMap.get_put, Sets, Listens, Concerns, hid, Ne.symm hid]
          · rw [listens_of_not_ok hok]
            simp [Sets, Listens, Concerns, hok]
  | removeListener listenerId =>
      simp only [Machine.next, machine, removeListener_advertisementListeners, removeDiscovery_get]
      by_cases hid : id = listenerId
      · simp [Sets, Listens, Concerns, hid]
      · simp [Sets, Listens, Concerns, hid, Ne.symm hid]
  | _ => simp [Machine.next, machine, Sets, Listens, Concerns]

theorem next_establisherServiceListeners {p : ParamListener L} :
    ((machine L).next s e).establisherServiceListeners.get id = some p ↔
      (∃ field, Sets id field p.param p.listener e) ∨
        s.establisherServiceListeners.get id = some p ∧ ¬ Concerns id e := by
  obtain ⟨value, l⟩ := p
  cases e with
  | setListener field' value' listenerId l' useMessage adverts =>
      cases useMessage with
      | true => simp [Machine.next, machine, setListener, Sets, Listens, Concerns]
      | false =>
          simp only [Machine.next, machine, setListener, Bool.false_eq_true, if_false]
          by_cases hok : (heard field' value' adverts).2 = .ok ()
          · rw [listens_of_ok hok]
            by_cases hid : id = listenerId
            · simp [HashMap.get_put, Sets, Listens, Concerns, hid, hok]
            · simp [HashMap.get_put, Sets, Listens, Concerns, hid, Ne.symm hid]
          · rw [listens_of_not_ok hok]
            simp [Sets, Listens, Concerns, hok]
  | removeListener listenerId =>
      simp only [Machine.next, machine, removeListener, (removeDiscovery_frame listenerId).1]
      by_cases hid : id = listenerId
      · subst hid
        split
        · simp [HashMap.get_remove, Sets, Listens, Concerns]
        · rename_i hnone
          simp only [HashMap.containsKey, Option.not_isSome_iff_eq_none] at hnone
          simp [hnone, Sets, Listens, Concerns]
      · split <;> simp [HashMap.get_remove, Sets, Listens, Concerns, hid, Ne.symm hid]
  | _ => simp [Machine.next, machine, Sets, Listens, Concerns]

theorem next_listeners {sl : MessageListener L} :
    ((machine L).next s e).listeners.get id = some sl ↔
      SetsMessage id sl.field sl.value sl.listener e ∨
        s.listeners.get id = some sl ∧ (∀ field value l, ¬ SetsMessage id field value l e) ∧
          (e = .removeListener id → s.establisherServiceListeners.containsKey id = true) := by
  obtain ⟨field, value, l⟩ := sl
  cases e with
  | setListener field' value' listenerId l' useMessage adverts =>
      cases useMessage with
      | true =>
          simp only [Machine.next, machine, setListener, if_true, HashMap.get_put]
          by_cases hid : id = listenerId
          · simp [SetsMessage, hid]
          · simp [SetsMessage, hid, Ne.symm hid]
      | false =>
          simp only [Machine.next, machine, setListener, Bool.false_eq_true, if_false]
          by_cases hok : (heard field' value' adverts).2 = .ok ()
          · rw [listens_of_ok hok]
            simp [SetsMessage]
          · rw [listens_of_not_ok hok]
            simp [SetsMessage]
  | removeListener listenerId =>
      simp only [Machine.next, machine, removeListener, (removeDiscovery_frame listenerId).1]
      split
      · rename_i hmem
        simp only [(removeDiscovery_frame listenerId).2.1, SetsMessage, false_or, not_false_eq_true,
          implies_true, true_and, EstablisherServiceEvent.removeListener.injEq]
        refine (and_iff_left ?_).symm
        rintro rfl
        exact hmem
      · rename_i hnone
        by_cases hid : id = listenerId
        · subst hid
          simp [HashMap.get_remove, SetsMessage, hnone]
        · simp [HashMap.get_remove, (removeDiscovery_frame listenerId).2.1, SetsMessage, hid,
            Ne.symm hid]
  | _ => simp [Machine.next, machine, SetsMessage]

theorem next_currentSl : ((machine L).next s e).currentSl = some l ↔
    (∃ id field value, Listens id field value l e) ∨
      s.currentSl = some l ∧ ∀ id field value l, ¬ Listens id field value l e := by
  cases e with
  | setListener field' value' listenerId l' useMessage adverts =>
      cases useMessage with
      | true => simp [Machine.next, machine, setListener, Listens]
      | false =>
          simp only [Machine.next, machine, setListener, Bool.false_eq_true, if_false]
          by_cases hok : (heard field' value' adverts).2 = .ok ()
          · rw [listens_of_ok hok]
            simp [Listens]
          · rw [listens_of_not_ok hok]
            simp [Listens]
  | removeListener listenerId =>
      simp only [Machine.next, machine, removeListener]
      split <;> simp [(removeDiscovery_frame listenerId).2.2.1, Listens]
  | _ => simp [Machine.next, machine, Listens]

theorem next_made_le : s.made ≤ ((machine L).next s e).made := by
  cases e with
  | setListener field' value' listenerId l' useMessage adverts =>
      cases useMessage with
      | true => exact le_rfl
      | false =>
          simp only [Machine.next, machine, setListener, Bool.false_eq_true, if_false]
          by_cases hok : (heard field' value' adverts).2 = .ok ()
          · simp [listens_of_ok hok]
          · simp [listens_of_not_ok hok]
  | removeListener listenerId =>
      simp only [Machine.next, machine, removeListener]
      split <;> simp [(removeDiscovery_frame listenerId).2.2.2]
  | _ => exact le_rfl

theorem next_made_lt (h : Listens id field value l e) : s.made < ((machine L).next s e).made := by
  cases e with
  | setListener field' value' listenerId l' useMessage adverts =>
      obtain ⟨rfl, -⟩ := h
      simp only [Machine.next, machine, setListener, Bool.false_eq_true, if_false]
      by_cases hok : (heard field' value' adverts).2 = .ok ()
      · simp [listens_of_ok hok]
      · simp [listens_of_not_ok hok]
  | _ => exact h.elim

/-- The removal of an id takes away the listener that has it, by its serial number. -/
theorem next_discoveryListeners {d : DiscoveryListener L} :
    d ∈ ((machine L).next s e).discoveryListeners ↔
      (d.serial = s.made ∧ ∃ id, Listens id d.field d.value d.listener e) ∨
        d ∈ s.discoveryListeners ∧
          ∀ id dl, e = .removeListener id → s.advertisementListeners.get id = some dl →
          d.serial ≠ dl.serial := by
  obtain ⟨serial, field, value, l⟩ := d
  cases e with
  | setListener field' value' listenerId l' useMessage adverts =>
      cases useMessage with
      | true => simp [Machine.next, machine, setListener, Listens]
      | false =>
          simp only [Machine.next, machine, setListener, Bool.false_eq_true, if_false]
          by_cases hok : (heard field' value' adverts).2 = .ok ()
          · simp [listens_of_ok hok, Listens, or_comm, eq_comm]
          · simp [listens_of_not_ok hok, Listens, or_comm, eq_comm]
  | removeListener listenerId =>
      have hframe : (s.removeListener listenerId).discoveryListeners =
          (s.removeDiscovery listenerId).discoveryListeners := by
        unfold removeListener
        dsimp only
        split <;> rfl
      simp only [Machine.next, machine, hframe, removeDiscovery, Listens, exists_false,
        and_false, false_or, EstablisherServiceEvent.removeListener.injEq]
      split
      · rename_i hnone
        refine (and_iff_left ?_).symm
        rintro id dl rfl hdl
        rw [hnone] at hdl
        cases hdl
      · rename_i dl hdl
        rw [List.mem_filter, decide_eq_true_iff]
        refine and_congr_right fun _ => ⟨?_, fun h => h listenerId dl rfl hdl⟩
        rintro hne id dl' rfl hdl'
        rw [hdl, Option.some.injEq] at hdl'
        exact hdl' ▸ hne
  | _ => simp [Machine.next, machine, Listens]

/-! ## The tables after a run -/

variable {h : List (EstablisherServiceEvent L)}

theorem run_advertisementListeners {d : DiscoveryListener L} :
    (run h).advertisementListeners.get id = some d ↔
      Machine.Since (fun h e => d.serial = (run h).made ∧ Sets id d.field d.value d.listener e)
        (fun _ e => ¬ Concerns id e) h :=
  (machine L).exec_iff_since (P := fun s => s.advertisementListeners.get id = some d) (by
    simp [HashMap.get]) (fun _ _ => next_advertisementListeners) h

theorem run_establisherServiceListeners {p : ParamListener L} :
    (run h).establisherServiceListeners.get id = some p ↔
    ∃ field, InForce id field p.param p.listener h :=
  ((machine L).exec_iff_since (P := fun s => s.establisherServiceListeners.get id = some p) (by
    simp [HashMap.get]) (fun _ _ => next_establisherServiceListeners) h).trans Machine.since_exists

theorem run_listeners {sl : MessageListener L} :
    (run h).listeners.get id = some sl ↔ Awaits id sl.field sl.value sl.listener h := by
  refine (machine L).exec_iff_since (P := fun s => s.listeners.get id = some sl) (by
    simp [HashMap.get]) (fun h e => next_listeners.trans ?_) h
  refine or_congr_right (and_congr_right fun _ => and_congr_right fun _ =>
    imp_congr_right fun _ => ?_)
  rw [HashMap.containsKey_iff_get]
  constructor
  · rintro ⟨p, hp⟩
    obtain ⟨field, hforce⟩ := run_establisherServiceListeners.mp hp
    exact ⟨field, p.param, p.listener, hforce⟩
  · rintro ⟨field, value, l, hforce⟩
    exact ⟨⟨value, l⟩, run_establisherServiceListeners.mpr ⟨field, hforce⟩⟩

theorem run_currentSl : (run h).currentSl = some l ↔ Searches l h :=
  (machine L).exec_iff_since (P := fun s => s.currentSl = some l) (by simp) (fun _ _ =>
    next_currentSl) h

theorem run_made_le (h t : List (EstablisherServiceEvent L)) :
    (run h).made ≤ (run (h ++ t)).made := by
  unfold run
  rw [(machine L).exec_append]
  exact (machine L).exec_preserves (P := fun s => _ ≤ s.made) (fun s e hle =>
    hle.trans next_made_le) le_rfl t

theorem run_made_lt (h : Listens id field value l e)
    (before after : List (EstablisherServiceEvent L)) :
    (run before).made < (run (before ++ e :: after)).made := by
  have hnext : (run before).made < (run (before ++ [e])).made := by
    unfold run
    rw [(machine L).exec_append]
    exact next_made_lt h
  have hle := run_made_le (before ++ [e]) after
  rw [List.append_assoc, List.singleton_append] at hle
  exact hnext.trans_le hle

theorem Listens.unique {id' field' : String} {value' : Option String} {l' : L}
    (he : Listens id field value l e)
    (he' : Listens id' field' value' l' e) : id = id' ∧ field = field' ∧ value = value' ∧
    l = l' := by
  cases e with
  | setListener =>
      obtain ⟨-, rfl, rfl, rfl, rfl⟩ := he
      exact he'.2
  | _ => exact he.elim

/-- A listener that is set has a serial number of its own. -/
theorem made_injective {before before' after after' : List (EstablisherServiceEvent L)}
    {e e' : EstablisherServiceEvent L} {id' field' : String} {value' : Option String} {l' : L}
    (hsplit : before ++ e :: after = before' ++ e' :: after')
    (he : Listens id field value l e) (he' : Listens id' field' value' l' e')
    (hmade : (run before).made = (run before').made) :
    before = before' ∧ e = e' ∧ after = after' := by
  rcases List.append_eq_append_iff.mp hsplit with ⟨x, rfl, hx⟩ | ⟨x, rfl, hx⟩
  · cases x with
    | nil =>
        obtain ⟨rfl, rfl⟩ := List.cons.inj hx
        exact ⟨(List.append_nil before).symm, rfl, rfl⟩
    | cons e₁ x =>
        obtain ⟨rfl, -⟩ := List.cons.inj hx
        exact absurd hmade (run_made_lt he before x).ne
  · cases x with
    | nil =>
        obtain ⟨rfl, rfl⟩ := List.cons.inj hx
        exact ⟨List.append_nil before', rfl, rfl⟩
    | cons e₁ x =>
        obtain ⟨rfl, -⟩ := List.cons.inj hx
        exact absurd hmade (run_made_lt he' before' x).ne'

/-- The listeners that the discovery service has are those whose ids were not removed next. -/
theorem run_discoveryListeners :
    (∃ d ∈ (run h).discoveryListeners, d.field = field ∧ d.value = value ∧ d.listener = l) ↔
      ∃ id, Registered id field value l h := by
  have hsince : ∀ d : DiscoveryListener L, d ∈ (run h).discoveryListeners ↔
      Machine.Since (fun h e => d.serial = (run h).made ∧
        ∃ id, Listens id d.field d.value d.listener e)
        (fun h e => ∀ id dl, e = .removeListener id →
          (run h).advertisementListeners.get id = some dl → d.serial ≠ dl.serial) h := fun d =>
    (machine L).exec_iff_since (P := fun s => d ∈ s.discoveryListeners) (by simp) (fun _ _ =>
      next_discoveryListeners) h
  constructor
  · rintro ⟨d, hd, rfl, rfl, rfl⟩
    obtain ⟨before, e, after, rfl, ⟨hserial, id, he⟩, hkept⟩ := (hsince d).mp hd
    refine ⟨id, before, e, after, rfl, he, fun a b hsplit hsets => ?_⟩
    by_contra hnone
    have htable : (run (before ++ e :: a)).advertisementListeners.get id = some d :=
      run_advertisementListeners.mpr ⟨before, e, a, rfl, ⟨hserial, hsets⟩,
        fun x e' y hxy hconcerns =>
        hnone ⟨e', hxy ▸ List.mem_append_right x List.mem_cons_self, hconcerns⟩⟩
    exact hkept a _ b hsplit id d rfl htable rfl
  · rintro ⟨id, before, e, after, rfl, he, hkept⟩
    refine ⟨⟨(run before).made, field, value, l⟩, (hsince _).mpr
      ⟨before, e, after, rfl, ⟨rfl, id, he⟩, fun a e' b hsplit id' dl hremove htable hserial => ?_⟩,
      rfl, rfl, rfl⟩
    -- the listener in the table would be this one, which has not been touched since
    obtain ⟨before', e₁, after', hrun, ⟨hserial', hsets'⟩, huntouched⟩ :=
      run_advertisementListeners.mp htable
    obtain ⟨rfl, rfl, rfl⟩ := made_injective hrun he hsets'.1 (hserial.trans hserial')
    obtain ⟨rfl, rfl, rfl, rfl⟩ := he.unique hsets'.1
    subst hremove
    obtain ⟨e'', hmem, hconcerns⟩ := hkept a b hsplit hsets'
    obtain ⟨x, y, rfl⟩ := List.append_of_mem hmem
    exact huntouched x e'' y rfl hconcerns

/-! ## Who is called -/

/-- The table for this peer's advertisements has one entry for an id. -/
theorem run_nodup (h : List (EstablisherServiceEvent L)) :
    (run h).establisherServiceListeners.keySet.Nodup := by
  refine (machine L).exec_preserves (P := fun s => s.establisherServiceListeners.keySet.Nodup)
    (fun s e hs => ?_) (s := {}) List.nodup_nil h
  cases e with
  | setListener field value listenerId l useMessage adverts =>
      cases useMessage with
      | true => exact hs
      | false =>
          simp only [Machine.next, machine, setListener, Bool.false_eq_true, if_false]
          by_cases hok : (heard field value adverts).2 = .ok ()
          · rw [listens_of_ok hok]
            exact HashMap.nodup_put hs _ _
          · rw [listens_of_not_ok hok]
            exact hs
  | removeListener listenerId =>
      simp only [Machine.next, machine, removeListener]
      split
      · rw [(removeDiscovery_frame listenerId).1, HashMap.keySet, HashMap.entries_remove]
        exact List.Nodup.sublist (List.Sublist.map _ List.filter_sublist) hs
      · rw [(removeDiscovery_frame listenerId).1]
        exact hs
  | _ => exact hs

theorem mem_run_sendContract {title data sourceKey : String} {n : Notification L} :
    n ∈ ((run h).sendContract title data sourceKey).1 ↔
    Hears h n (.sendContract title data sourceKey) := by
  simp only [sendContract, List.mem_map, List.mem_filter, decide_eq_true_iff, Hears]
  constructor
  · rintro ⟨p, ⟨⟨⟨id, p⟩, hmem, rfl⟩, hparam⟩, rfl⟩
    obtain ⟨field, hforce⟩ :=
      run_establisherServiceListeners.mp (HashMap.get_of_mem (run_nodup h) hmem)
    exact ⟨id, field, p.param, p.listener, hforce, hparam, rfl⟩
  · rintro ⟨id, field, value, l, hforce, hparam, rfl⟩
    have hget : (run h).establisherServiceListeners.get id = some ⟨value, l⟩ :=
      run_establisherServiceListeners.mpr ⟨field, hforce⟩
    exact ⟨⟨value, l⟩, ⟨⟨(id, ⟨value, l⟩), HashMap.mem_of_get hget, rfl⟩, hparam⟩, rfl⟩

theorem mem_run_discovered {adverts : List FoundAdvertisement} {n : Notification L} :
    n ∈ ((run h).discovered adverts).1 ↔ Hears h n (.discovered adverts) := by
  simp only [discovered, List.mem_flatMap, List.mem_map, Hears]
  constructor
  · rintro ⟨d, hd, c, hc, rfl⟩
    obtain ⟨id, hregistered⟩ := run_discoveryListeners.mp ⟨d, hd, rfl, rfl, rfl⟩
    exact ⟨id, d.field, d.value, d.listener, hregistered, c, hc, rfl⟩
  · rintro ⟨id, field, value, l, hregistered, c, hc, rfl⟩
    obtain ⟨d, hd, rfl, rfl, rfl⟩ := run_discoveryListeners.mpr ⟨id, hregistered⟩
    exact ⟨d, hd, c, hc, rfl⟩

theorem mem_run_discoveryEvent {adverts : List FoundAdvertisement} {n : Notification L} :
    n ∈ ((run h).discoveryEvent adverts).1 ↔ Hears h n (.discoveryEvent adverts) := by
  unfold discoveryEvent
  simp only [Hears, ← run_currentSl]
  split
  · rename_i hforeign
    simp [hforeign]
  · rename_i hforeign
    split <;> rename_i hsl
    · simp [hsl]
    · simp [hsl, hforeign, eq_comm]

theorem mem_run_pipeMsgEvent {m : MessagesGeneric} {n : Notification L} :
    n ∈ ((run h).pipeMsgEvent m).1 ↔ Hears h n (.pipeMsgEvent m) := by
  simp only [Hears]
  constructor
  · intro hn
    unfold pipeMsgEvent at hn
    split at hn
    · cases hn
    · rename_i sl hsl
      obtain ⟨id, hwho, hget⟩ := Option.bind_eq_some_iff.mp hsl
      split at hn
      · cases hn
      · rename_i text htext
        split at hn
        · rename_i hvalue
          refine ⟨id, sl.field, sl.value, sl.listener, hwho, run_listeners.mp hget,
            hvalue ▸ Option.some_ne_none text, htext.trans hvalue, ?_⟩
          exact List.mem_singleton.mp hn
        · cases hn
  · rintro ⟨id, field, value, l, hwho, hawaits, hvalue, hfield, rfl⟩
    obtain ⟨text, rfl⟩ := Option.ne_none_iff_exists'.mp hvalue
    have hget : (run h).listeners.get id = some ⟨field, some text, l⟩ := run_listeners.mpr hawaits
    simp [pipeMsgEvent, hwho, hget, hfield]

/-- After every run, an event calls exactly the listeners that the events before it say. -/
theorem called_iff (h : List (EstablisherServiceEvent L)) (e : EstablisherServiceEvent L)
    (n : Notification L) : n ∈ ((machine L).output (run h) e).1 ↔ Hears h n e := by
  cases e with
  | setListener field value listenerId l useMessage adverts =>
      cases useMessage with
      | true => simp [Machine.output, machine, setListener, Hears]
      | false =>
          simp only [Machine.output, machine, setListener, Bool.false_eq_true, if_false, listens,
            Hears, true_and]
          split <;> simp [eq_comm]
  | removeListener listenerId => exact List.mem_nil_iff n
  | sendContract title data sourceKey => exact mem_run_sendContract
  | discovered adverts => exact mem_run_discovered
  | discoveryEvent adverts => exact mem_run_discoveryEvent
  | pipeMsgEvent m => exact mem_run_pipeMsgEvent

/-! ## Orderly runs

Every step of a protocol removes the id of its listener before it sets the listener. -/

/-- Listeners for advertisements are set completely, and under ids that no other one has. -/
def Orderly (h : List (EstablisherServiceEvent L)) : Prop :=
  ∀ before e after, h = before ++ e :: after → ∀ id field value l, Listens id field value l e →
    Concerns id e ∧ ∀ field value l, ¬ InForce id field value l before

/-- The discovery service has the listeners of the table, each once. -/
structure Registry (s : JxtaEstablisherService L) : Prop where
  nodup : s.advertisementListeners.keySet.Nodup
  serials : (s.advertisementListeners.entries.map fun x => x.2.serial).Nodup
  lt : ∀ x ∈ s.advertisementListeners.entries, x.2.serial < s.made
  perm : s.discoveryListeners.Perm (s.advertisementListeners.entries.map Prod.snd)

theorem run_inForce : (∃ serial, (run h).advertisementListeners.get id = some ⟨serial, field,
    value, l⟩) ↔ InForce id field value l h := by
  simp only [run_advertisementListeners, ← Machine.since_exists]
  exact Machine.since_congr (fun _ _ => by simp) fun _ _ => Iff.rfl

theorem Registry.listens (hs : Registry s) {adverts : List FoundAdvertisement} {listenerId : String}
    (hok : (heard field value adverts).2 = .ok ())
    (hfree : s.advertisementListeners.get listenerId = none) :
    Registry (s.listens field value listenerId l adverts).1 := by
  have hentries : (s.advertisementListeners.put listenerId ⟨s.made, field, value, l⟩).entries =
      (listenerId, ⟨s.made, field, value, l⟩) :: s.advertisementListeners.entries := by
    simp [HashMap.put, HashMap.containsKey, hfree]
  rw [listens_of_ok hok]
  exact {
    nodup := HashMap.nodup_put hs.nodup _ _
    serials := by
      rw [hentries, List.map_cons, List.nodup_cons]
      refine ⟨fun hmem => ?_, hs.serials⟩
      obtain ⟨x, hx, heq⟩ := List.mem_map.mp hmem
      exact absurd heq (hs.lt x hx).ne
    lt := by
      intro x hx
      rw [hentries] at hx
      rcases List.mem_cons.mp hx with rfl | hold
      · exact Nat.lt_succ_self s.made
      · exact Nat.lt_succ_of_lt (hs.lt x hold)
    perm := by
      rw [hentries, List.map_cons]
      exact (List.perm_append_singleton _ _).trans (hs.perm.cons _) }

theorem Registry.removeDiscovery (hs : Registry s) (listenerId : String) :
    Registry (s.removeDiscovery listenerId) := by
  unfold JxtaEstablisherService.removeDiscovery
  split
  · exact hs
  · rename_i dl hdl
    have hmem : (listenerId, dl) ∈ s.advertisementListeners.entries := HashMap.mem_of_get hdl
    have hsub := List.filter_sublist (p := fun x => !(listenerId == x.1))
        (l := s.advertisementListeners.entries)
    -- an entry has the id if it has the serial number
    have hsame : ∀ x ∈ s.advertisementListeners.entries, (x.2.serial ≠ dl.serial ↔
      (!(listenerId == x.1)) = true) := by
      intro x hx
      rw [Bool.not_eq_true', beq_eq_false_iff_ne, not_iff_not]
      constructor
      · intro hserial
        rw [List.inj_on_of_nodup_map hs.serials hx hmem hserial]
      · intro hid
        rw [List.inj_on_of_nodup_map hs.nodup hx hmem hid.symm]
    exact {
      nodup := hs.nodup.sublist (hsub.map _)
      serials := hs.serials.sublist (hsub.map _)
      lt := fun x hx => hs.lt x (hsub.subset hx)
      perm := by
        refine (hs.perm.filter _).trans (List.Perm.of_eq ?_)
        rw [List.filter_map, HashMap.entries_remove]
        refine congrArg (List.map Prod.snd) (List.filter_congr fun x hx => ?_)
        rw [Function.comp_apply, Bool.eq_iff_iff, decide_eq_true_iff]
        exact hsame x hx }

theorem Registry.removeListener (hs : Registry s) (listenerId : String) :
    Registry (s.removeListener listenerId) := by
  have hremoved := hs.removeDiscovery listenerId
  unfold JxtaEstablisherService.removeListener
  dsimp only
  split <;> exact { hremoved with }

theorem Orderly.registry (horderly : Orderly h) : Registry (run h) := by
  induction h using List.reverseRecOn with
  | nil =>
      exact {
        nodup := List.nodup_nil
        serials := List.nodup_nil
        lt := fun x hx => absurd hx List.not_mem_nil
        perm := List.Perm.refl [] }
  | append_singleton h e ih =>
      have hs : Registry (run h) := ih fun before e' after hsplit =>
        horderly before e' (after ++ [e]) (by rw [hsplit, List.append_assoc, List.cons_append])
      have hnext : run (h ++ [e]) = (machine L).next (run h) e := (machine L).exec_append {} h [e]
      rw [hnext]
      cases e with
      | setListener field value listenerId l useMessage adverts =>
          cases useMessage with
          | true => exact { hs with }
          | false =>
              obtain ⟨⟨-, -, hok⟩, hfree⟩ :=
                horderly h _ [] rfl listenerId field value l ⟨rfl, rfl, rfl, rfl, rfl⟩
              refine hs.listens hok (Option.eq_none_iff_forall_not_mem.mpr fun d hd => ?_)
              exact hfree d.field d.value d.listener (run_inForce.mp ⟨d.serial, hd⟩)
      | removeListener listenerId => exact hs.removeListener listenerId
      | _ => exact hs

/-- A listener for advertisements, with the id it has. -/
structure Registration (L : Type) where
  id : String
  field : String
  value : Option String
  listener : L

/-- The list of the listeners for advertisements that have an id. -/
structure Registrations (h : List (EstablisherServiceEvent L))
    (rs : List (Registration L)) : Prop where
  nodup : (rs.map (·.id)).Nodup
  mem_iff : ∀ id field value l, ⟨id, field, value, l⟩ ∈ rs ↔ InForce id field value l h

theorem Registry.registrations (hs : Registry (run h)) :
    Registrations h ((run h).advertisementListeners.entries.map fun x =>
      ⟨x.1, x.2.field, x.2.value, x.2.listener⟩) where
  nodup := by
    rw [List.map_map]
    exact hs.nodup
  mem_iff id field value l := by
    rw [← run_inForce, List.mem_map]
    constructor
    · rintro ⟨⟨id', d⟩, hmem, heq⟩
      cases heq
      exact ⟨d.serial, HashMap.get_of_mem hs.nodup hmem⟩
    · rintro ⟨serial, hget⟩
      exact ⟨_, HashMap.mem_of_get hget, rfl⟩

/-- The table for this peer's advertisements has the same listeners. -/
theorem Registrations.perm {rs : List (Registration L)} (hrs : Registrations h rs) :
    (run h).establisherServiceListeners.entries.Perm (rs.map fun r =>
      (r.id, ⟨r.value, r.listener⟩)) := by
  have hmap : (rs.map fun r => (r.id, (⟨r.value, r.listener⟩ : ParamListener L))).map Prod.fst =
      rs.map (·.id) := by
    rw [List.map_map]
    rfl
  refine (List.perm_ext_iff_of_nodup (run_nodup h).of_map (hmap ▸ hrs.nodup).of_map).mpr fun x => ?_
  obtain ⟨id, p⟩ := x
  rw [List.mem_map]
  constructor
  · intro hmem
    obtain ⟨field, hforce⟩ :=
      run_establisherServiceListeners.mp (HashMap.get_of_mem (run_nodup h) hmem)
    exact ⟨⟨id, field, p.param, p.listener⟩, (hrs.mem_iff ..).mpr hforce, rfl⟩
  · rintro ⟨r, hr, heq⟩
    cases heq
    exact HashMap.mem_of_get (run_establisherServiceListeners.mpr ⟨r.field, (hrs.mem_iff ..).mp hr⟩)

/-- In an orderly run, whatever is published by this peer or found at others calls each listener
that has its id once for each time it hears it, and nobody else: who was removed or replaced stays
silent. -/
theorem orderly_calls (h : List (EstablisherServiceEvent L)) (horderly : Orderly h) :
    ∃ rs, Registrations h rs ∧
      (∀ title data sourceKey : String, ((run h).sendContract title data sourceKey).1.Perm
        ((rs.filter fun r => r.value = none ∨ r.value = some title).map fun r =>
          { listener := r.listener, title := title, content := data, senderId := sourceKey })) ∧
      ∀ adverts, ((run h).discovered adverts).1.Perm
        (rs.flatMap fun r => (heard r.field r.value adverts).1.map fun c =>
          c.notify r.listener) := by
  have hs := horderly.registry
  refine ⟨_, hs.registrations, fun title data sourceKey => ?_, fun adverts => ?_⟩
  · have hperm := ((hs.registrations.perm.map Prod.snd).filter fun l => l.param = none ∨
      l.param = some title).map
      fun l => ({ listener := l.listener, title := title, content := data, senderId := sourceKey } :
        Notification L)
    refine hperm.trans (List.Perm.of_eq ?_)
    rw [List.map_map, List.filter_map, List.map_map]
    rfl
  · rw [List.flatMap_map]
    have hperm := hs.perm.flatMap_right fun d => (heard d.field d.value adverts).1.map fun c =>
      c.notify d.listener
    rwa [List.flatMap_map] at hperm

theorem orderly_nil : Orderly ([] : List (EstablisherServiceEvent L)) := by
  intro before e after hsplit
  exact absurd hsplit (by simp)

theorem Orderly.concat (horderly : Orderly h) (he : ∀ id field value l, Listens id field value l e →
    Concerns id e ∧ ∀ field value l, ¬ InForce id field value l h) : Orderly (h ++ [e]) := by
  intro before e' after hsplit
  induction after using List.reverseRecOn with
  | nil =>
      obtain ⟨rfl, heq⟩ := List.append_inj' hsplit rfl
      cases heq
      exact he
  | append_singleton after x _ =>
      rw [← List.cons_append, ← List.append_assoc] at hsplit
      exact horderly before e' after (List.append_inj' hsplit rfl).1

/-- `setupListener` of a step of a protocol. -/
def setUp (r : Registration L) (adverts : List FoundAdvertisement) :
    List (EstablisherServiceEvent L) :=
  [.removeListener r.id, .setListener r.field r.value r.id r.listener false adverts]

theorem Orderly.concat_setUp (horderly : Orderly h) (r : Registration L)
    {adverts : List FoundAdvertisement}
    (hok : (heard r.field r.value adverts).2 = .ok ()) : Orderly (h ++ setUp r adverts) := by
  have hremoved : Orderly (h ++ [.removeListener r.id]) := horderly.concat fun _ _ _ _ hlistens =>
    hlistens.elim
  have hset := hremoved.concat (e := .setListener r.field r.value r.id r.listener false adverts) ?_
  · rwa [List.append_assoc] at hset
  · rintro id field value l ⟨-, rfl, -⟩
    refine ⟨⟨rfl, rfl, hok⟩, fun field value l hforce => ?_⟩
    rcases Machine.since_concat.mp hforce with hsets | ⟨-, hkept⟩
    · exact hsets.1
    · exact hkept rfl

end JxtaEstablisherService

namespace Sample

open JxtaEstablisherService

/-- A step takes over the id of another one. -/
def takeOver : List (EstablisherServiceEvent Nat) :=
  setUp ⟨"SIGN", "title", some "SIGN", 1⟩ [] ++ setUp ⟨"SIGN", "title", some "SIGN", 2⟩ []

theorem orderly_calls_takeOver : ∃ rs, Registrations takeOver rs ∧
    (∀ title data sourceKey : String, ((run takeOver).sendContract title data sourceKey).1.Perm
      ((rs.filter fun r => r.value = none ∨ r.value = some title).map fun r =>
        { listener := r.listener, title := title, content := data, senderId := sourceKey })) ∧
    ∀ adverts, ((run takeOver).discovered adverts).1.Perm
      (rs.flatMap fun r => (heard r.field r.value adverts).1.map fun c => c.notify r.listener) :=
  orderly_calls takeOver ((orderly_nil.concat_setUp ⟨"SIGN", "title", some "SIGN",
    1⟩ rfl).concat_setUp _ rfl)

end Sample

end Sxp
