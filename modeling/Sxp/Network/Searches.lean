-- SUMMARY: Searches in the network: which requests the peers send, and where the answers that listeners get come from.
import Mathlib.Logic.Function.Basic
import Sxp.Base.Since
import Sxp.Network.UserRequests

/-!
# Searches

A search asks the discovery service for peers that have advertised the value, and each one that is
found for what it has stored. A peer has one search listener for all its searches, which sends the
requests, and a listener under each name, which gets the answers. Neither is tied to the search it
was made for. The network delivers any packet that was ever sent, as often as it likes or never.
-/

namespace Sxp

/-- What searches for entities of a class have of their own: the name that a listener gets, which is
the one it is asked for if there is one, and what a peer answers from its store. -/
structure SearchKind (E : Type) where
  name : Option String → Option String
  answer : String → List E → List E
  name_some : ∀ who, name (some who) = some who

/-- `NetworkItemManagerDecorator` and `JxtaItemsSenderService`. -/
def itemSearch (db : Comparison) : SearchKind Item where
  name who := some (who.getD "test")
  answer value store := db.findAllByAttribute Item.title store (some value)
  name_some _ := rfl

/-- `NetworkUserManagerDecorator` and `JxtaUsersSenderService`. -/
def userSearch (db : Comparison) : SearchKind User where
  name who := some (who.getD "test")
  answer value store := findAllByNick db store (some value)
  name_some _ := rfl

/-- `NetworkMessageManagerDecorator` and `JxtaMessageSenderService`, which sends the value as both
ids. -/
def messageSearch (db : Comparison) : SearchKind Message where
  name who := who
  answer value store :=
    db.findAllByAttribute Message.senderId store (some value) ++
      db.findAllByAttribute Message.receiverId store (some value)
  name_some _ := rfl

/-- What a peer keeps: its store, the value and the name in its search listener, and the
listeners. -/
structure SearchPeer (E L : Type) where
  store : List E := []
  currentSl : Option (Option String × Option String) := none
  listeners : HashMap (Option String) L := {}

/-- What peers send to each other. -/
inductive SearchPacket (E : Type) where
  | request (receiver source name value : String)
  | response (receiver name : String) (found : List E)

structure SearchNetwork (E L : Type) where
  peers : String → SearchPeer E L := fun _ => {}
  sent : List (SearchPacket E) := []

inductive SearchEvent (E L : Type) where
  | persist (peer : String) (store : List E)
  | findAllByAttribute (peer : String) (who value : Option String) (l : L)
  | discoveryEvent (peer source : String) (adverts : Nat)
  | deliver (packet : Nat)

/-- A listener of a peer that is notified of what was found. -/
structure SearchResult (E L : Type) where
  peer : String
  listener : L
  found : List E

namespace SearchNetwork

variable {E L : Type} (kind : SearchKind E)

/-- The peer becomes `p`. -/
def setPeer (net : SearchNetwork E L) (peer : String) (p : SearchPeer E L) : SearchNetwork E L :=
  { net with peers := Function.update net.peers peer p }

/-- `findAllByAttribute` of the decorator, behind the search in the peer's own store. -/
def findAllByAttribute (net : SearchNetwork E L) (peer : String) (who value : Option String)
    (l : L) : SearchNetwork E L :=
  net.setPeer peer { net.peers peer with
    listeners := ((net.peers peer).listeners.remove who).put (kind.name who) l
    currentSl := some (value, kind.name who) }

/-- `discoveryEvent`: all advertisements of an event are from one peer, and a request is sent once
to each peer. A request without a name or a value cannot be put together, and without advertisements
there is no URI to send it to. -/
def discoveryEvent (net : SearchNetwork E L) (peer source : String) (adverts : Nat) :
    SearchNetwork E L × Except JavaException Unit :=
  match (net.peers peer).currentSl with
  | some (some value, some name) =>
      match adverts with
      | 0 => (net, .error .nullPointer)
      | _ + 1 => ({ net with sent := net.sent ++ [.request source peer name value] }, .ok ())
  | _ => (net, .error .nullPointer)

/-- `pipeMsgEvent`: a request is answered from the store, and the listener under the name gets a
response. -/
def pipeMsgEvent (net : SearchNetwork E L) : SearchPacket E →
    SearchNetwork E L × List (SearchResult E L)
  | .request receiver source name value =>
      ({ net with sent := net.sent ++
                    [.response source name (kind.answer value (net.peers receiver).store)] }, [])
  | .response receiver name found =>
      match (net.peers receiver).listeners.get (some name) with
      | none => (net, [])
      | some l => (net, [{ peer := receiver, listener := l, found }])

/-- The network of the peers. The output is who is notified. -/
def machine : Machine (SearchNetwork E L) (SearchEvent E L) (List (SearchResult E L)) where
  init := {}
  step net
    | .persist peer store => (net.setPeer peer { net.peers peer with store }, [])
    | .findAllByAttribute peer who value l => (net.findAllByAttribute kind peer who value l, [])
    | .discoveryEvent peer source adverts => ((net.discoveryEvent peer source adverts).1, [])
    | .deliver packet =>
        match net.sent[packet]? with
        | none => (net, [])
        | some x => net.pipeMsgEvent kind x

/-- The network after a run. -/
def run (h : List (SearchEvent E L)) : SearchNetwork E L := (machine kind).exec {} h

/-! ## The past of a run -/

/-- The event is a search of the peer under a name. -/
def Searches (peer : String) (name value : Option String) (l : L) : SearchEvent E L → Prop
  | .findAllByAttribute peer' who value' l' =>
      peer' = peer ∧ kind.name who = name ∧ value' = value ∧ l' = l
  | _ => False

/-- The last search of the peer. -/
def LastSearch (peer : String) (name value : Option String) : List (SearchEvent E L) → Prop :=
  Machine.Since (fun _ e => ∃ l, Searches kind peer name value l e)
    fun _ e => ∀ name value l, ¬ Searches kind peer name value l e

/-- The last search of the peer under the name. -/
def LastUnder (peer : String) (name value : Option String) (l : L) :
    List (SearchEvent E L) → Prop :=
  Machine.Since (fun _ e => Searches kind peer name value l e) fun _ e =>
    ∀ value l, ¬ Searches kind peer name value l e

/-- A request was sent for the peer: the receiver was found while the last search of the peer had
the name and the value. -/
def Requested (receiver peer name value : String) (h : List (SearchEvent E L)) : Prop :=
  ∃ before adverts after, h = before ++ .discoveryEvent peer receiver (adverts + 1) :: after ∧
    LastSearch kind peer (some name) (some value) before

/-- What an event leaves of the store of a peer. -/
def storedBy (peer : String) (store : List E) : SearchEvent E L → List E
  | .persist peer' store' => if peer' = peer then store' else store
  | _ => store

/-- What the peer has stored last. -/
def stored (peer : String) (h : List (SearchEvent E L)) : List E := h.foldl (storedBy peer) []

variable {kind} in
theorem requested_append {receiver peer name value : String} {h : List (SearchEvent E L)}
    (hrequested : Requested kind receiver peer name value h) (h' : List (SearchEvent E L)) :
    Requested kind receiver peer name value (h ++ h') := by
  obtain ⟨before, adverts, after, rfl, hlast⟩ := hrequested
  exact ⟨before, adverts, after ++ h', by simp, hlast⟩

/-! ## What an event changes -/

variable {kind} {net : SearchNetwork E L} {e : SearchEvent E L} {peer : String}

theorem next_store : (((machine kind).next net e).peers peer).store =
    storedBy peer (net.peers peer).store e := by
  cases e with
  | persist peer' store =>
      by_cases hpeer : peer = peer'
      · subst hpeer
        simp [Machine.next, machine, setPeer, storedBy]
      · simp [Machine.next, machine, setPeer, storedBy, hpeer, Ne.symm hpeer]
  | findAllByAttribute peer' who value l =>
      by_cases hpeer : peer = peer'
      · subst hpeer
        simp [Machine.next, machine, findAllByAttribute, setPeer, storedBy]
      · simp [Machine.next, machine, findAllByAttribute, setPeer, storedBy, hpeer]
  | discoveryEvent peer' source adverts =>
      simp only [Machine.next, machine, discoveryEvent, storedBy]
      split
      · split <;> rfl
      · rfl
  | deliver packet =>
      simp only [Machine.next, machine, storedBy]
      split
      · rfl
      · unfold pipeMsgEvent
        split
        · rfl
        · split <;> rfl

theorem next_currentSl {name value : Option String} :
    (((machine kind).next net e).peers peer).currentSl = some (value, name) ↔
      (∃ l, Searches kind peer name value l e) ∨
        (net.peers peer).currentSl = some (value, name) ∧
        ∀ name value l, ¬ Searches kind peer name value l e := by
  cases e with
  | persist peer' store =>
      by_cases hpeer : peer = peer'
      · subst hpeer
        simp [Machine.next, machine, setPeer, Searches]
      · simp [Machine.next, machine, setPeer, Searches, hpeer]
  | findAllByAttribute peer' who value' l =>
      by_cases hpeer : peer = peer'
      · subst hpeer
        simp [Machine.next, machine, findAllByAttribute, setPeer, Searches, and_comm]
      · simp [Machine.next, machine, findAllByAttribute, setPeer, Searches, hpeer, Ne.symm hpeer]
  | discoveryEvent peer' source adverts =>
      simp only [Machine.next, machine, discoveryEvent, Searches]
      split
      · split <;> simp
      · simp
  | deliver packet =>
      simp only [Machine.next, machine, Searches]
      split
      · simp
      · unfold pipeMsgEvent
        split
        · simp
        · split <;> simp

theorem next_listeners {name : String} {l : L} :
    (((machine kind).next net e).peers peer).listeners.get (some name) = some l ↔
      (∃ value, Searches kind peer (some name) value l e) ∨
        (net.peers peer).listeners.get (some name) = some l ∧
        ∀ value l, ¬ Searches kind peer (some name) value l e := by
  cases e with
  | persist peer' store =>
      by_cases hpeer : peer = peer'
      · subst hpeer
        simp [Machine.next, machine, setPeer, Searches]
      · simp [Machine.next, machine, setPeer, Searches, hpeer]
  | findAllByAttribute peer' who value' l' =>
      by_cases hpeer : peer = peer'
      · subst hpeer
        simp only [Machine.next, machine, findAllByAttribute, setPeer, Function.update_self,
          HashMap.get_put, HashMap.get_remove, Searches, true_and, beq_iff_eq]
        by_cases hname : some name = kind.name who
        · simp [hname]
        · have hwho : some name ≠ who := by
            rintro rfl
            exact hname (kind.name_some name).symm
          simp [hname, hwho, Ne.symm hname]
      · simp [Machine.next, machine, findAllByAttribute, setPeer, Searches, hpeer, Ne.symm hpeer]
  | discoveryEvent peer' source adverts =>
      simp only [Machine.next, machine, discoveryEvent, Searches]
      split
      · split <;> simp
      · simp
  | deliver packet =>
      simp only [Machine.next, machine, Searches]
      split
      · simp
      · unfold pipeMsgEvent
        split
        · simp
        · split <;> simp

theorem next_request {receiver name value : String} :
    SearchPacket.request receiver peer name value ∈ ((machine kind).next net e).sent ↔
      (∃ adverts, e = .discoveryEvent peer receiver (adverts + 1) ∧
        (net.peers peer).currentSl = some (some value, some name)) ∨
        SearchPacket.request receiver peer name value ∈ net.sent := by
  cases e with
  | persist peer' store => simp [Machine.next, machine, setPeer]
  | findAllByAttribute peer' who value' l' =>
      simp [Machine.next, machine, findAllByAttribute, setPeer]
  | discoveryEvent peer' source adverts =>
      simp only [Machine.next, machine, discoveryEvent]
      split
      · rename_i value' name' hsl
        cases adverts with
        | zero => simp
        | succ adverts =>
            rw [List.mem_append, List.mem_singleton, or_comm]
            refine or_congr_left ?_
            constructor
            · intro heq
              cases heq
              exact ⟨adverts, rfl, hsl⟩
            · rintro ⟨adverts', heq, hcurrent⟩
              cases heq
              cases hsl.symm.trans hcurrent
              rfl
      · rename_i hnone
        refine (or_iff_right ?_).symm
        rintro ⟨adverts', heq, hcurrent⟩
        cases heq
        exact hnone _ _ hcurrent
  | deliver packet =>
      simp only [Machine.next, machine, reduceCtorEq, false_and, exists_false, false_or]
      split
      · rfl
      · unfold pipeMsgEvent
        split
        · simp
        · split <;> rfl

theorem next_response {receiver name : String} {found : List E} :
    SearchPacket.response receiver name found ∈ ((machine kind).next net e).sent ↔
      (∃ k asked value, e = .deliver k ∧ net.sent[k]? = some (.request asked receiver name value) ∧
        found = kind.answer value (net.peers asked).store) ∨
        SearchPacket.response receiver name found ∈ net.sent := by
  cases e with
  | persist peer' store => simp [Machine.next, machine, setPeer]
  | findAllByAttribute peer' who value' l' =>
      simp [Machine.next, machine, findAllByAttribute, setPeer]
  | discoveryEvent peer' source adverts =>
      simp only [Machine.next, machine, discoveryEvent]
      split
      · split <;> simp
      · simp
  | deliver packet =>
      simp only [Machine.next, machine, SearchEvent.deliver.injEq]
      split
      · rename_i hnone
        simp [hnone]
      · rename_i x hx
        unfold pipeMsgEvent
        split
        · rename_i asked source name' value'
          rw [List.mem_append, or_comm, List.mem_singleton]
          refine or_congr_left ?_
          constructor
          · intro heq
            cases heq
            exact ⟨packet, asked, value', rfl, hx, rfl⟩
          · rintro ⟨k, asked', value, rfl, hrequest, rfl⟩
            cases hx.symm.trans hrequest
            rfl
        · rename_i receiver' name' found'
          have hnone : ¬ ∃ k asked value, packet = k ∧
              net.sent[k]? = some (.request asked receiver name value) ∧
              found = kind.answer value (net.peers asked).store := by
            rintro ⟨k, asked, value, rfl, hrequest, -⟩
            cases hx.symm.trans hrequest
          rw [or_iff_right hnone]
          split <;> rfl

/-! ## What a run leads to -/

variable {h : List (SearchEvent E L)}

theorem run_concat (e : SearchEvent E L) :
    run kind (h ++ [e]) = (machine kind).next (run kind h) e := by
  rw [run, Machine.exec_append]
  rfl

theorem run_store : ((run kind h).peers peer).store = stored peer h := by
  induction h using List.reverseRecOn with
  | nil => rfl
  | append_singleton h e ih =>
      rw [run_concat, next_store, ih, stored, stored, List.foldl_append, List.foldl_cons,
        List.foldl_nil]

theorem run_currentSl {name value : Option String} :
    ((run kind h).peers peer).currentSl = some (value, name) ↔ LastSearch kind peer name value h :=
  (machine kind).exec_iff_since (P := fun net =>
    (net.peers peer).currentSl = some (value, name)) (by simp) (fun _ _ => next_currentSl) h

theorem run_listeners {name : String} {l : L} :
    ((run kind h).peers peer).listeners.get (some name) = some l ↔
    ∃ value, LastUnder kind peer (some name) value l h :=
  ((machine kind).exec_iff_since (P := fun net =>
    (net.peers peer).listeners.get (some name) = some l)
    (by simp [HashMap.get]) (fun _ _ => next_listeners) h).trans Machine.since_exists

theorem run_request {receiver name value : String} :
    SearchPacket.request receiver peer name value ∈ (run kind h).sent ↔
    Requested kind receiver peer name value h := by
  have hsince := (machine kind).exec_iff_since (s := {})
    (P := fun net => SearchPacket.request receiver peer name value ∈ net.sent) (by simp)
    (A := fun h e => ∃ adverts, e = .discoveryEvent peer receiver (adverts + 1) ∧
      LastSearch kind peer (some name) (some value) h)
    (B := fun _ _ => True) (fun h e => by simp only [next_request, ← run_currentSl, run,
      and_true]) h
  rw [run, hsince, Machine.since_true]
  constructor
  · rintro ⟨before, e, after, rfl, adverts, rfl, hlast⟩
    exact ⟨before, adverts, after, rfl, hlast⟩
  · rintro ⟨before, adverts, after, rfl, hlast⟩
    exact ⟨before, _, after, rfl, adverts, rfl, hlast⟩

/-- A response has what one peer had stored when a request reached it. -/
theorem run_response {receiver name : String} {found : List E} :
    SearchPacket.response receiver name found ∈ (run kind h).sent ↔
      ∃ before k after asked value, h = before ++ .deliver k :: after ∧
        (run kind before).sent[k]? = some (.request asked receiver name value) ∧
        found = kind.answer value (stored asked before) := by
  have hsince := (machine kind).exec_iff_since (s := {})
    (P := fun net => SearchPacket.response receiver name found ∈ net.sent) (by simp)
    (A := fun h e => ∃ k asked value, e = .deliver k ∧
      (run kind h).sent[k]? = some (.request asked receiver name value) ∧
      found = kind.answer value (stored asked h))
    (B := fun _ _ => True) (fun h e => by simp only [next_response, ← @run_store _ _ kind, run,
      and_true]) h
  rw [run, hsince, Machine.since_true]
  constructor
  · rintro ⟨before, e, after, rfl, k, asked, value, rfl, hrequest, hfound⟩
    exact ⟨before, k, after, asked, value, rfl, hrequest, hfound⟩
  · rintro ⟨before, k, after, asked, value, rfl, hrequest, hfound⟩
    exact ⟨before, _, after, rfl, k, asked, value, rfl, hrequest, hfound⟩

/-- Who the delivery of a packet notifies. -/
theorem output_deliver {k : Nat} {r : SearchResult E L} :
    r ∈ (machine kind).output net (.deliver k) ↔
      ∃ name, net.sent[k]? = some (.response r.peer name r.found) ∧
        (net.peers r.peer).listeners.get (some name) = some r.listener := by
  simp only [Machine.output, machine]
  split
  · rename_i hnone
    simp [hnone]
  · rename_i x hx
    rw [hx]
    unfold pipeMsgEvent
    split
    · simp
    · rename_i receiver name found
      split
      · rename_i hget
        refine iff_of_false List.not_mem_nil ?_
        rintro ⟨name', hx', hlistener⟩
        cases hx'
        cases hget.symm.trans hlistener
      · rename_i l hget
        rw [List.mem_singleton]
        constructor
        · rintro rfl
          exact ⟨name, rfl, hget⟩
        · rintro ⟨name', hx', hlistener⟩
          cases hx'
          cases hget.symm.trans hlistener
          rfl

/-- After any run, a listener can be notified of what was found exactly if the last search of its
peer under some name set it, and this is what a peer had stored when a request reached it that was
sent while the last search of the notified peer had the same name. The value in the request is that
of the other search. -/
theorem notifiable_iff (h : List (SearchEvent E L)) (r : SearchResult E L) :
    (∃ k, r ∈ (machine kind).output (run kind h) (.deliver k)) ↔
      ∃ name, (∃ value, LastUnder kind r.peer (some name) value r.listener h) ∧
        ∃ before k after asked value, h = before ++ .deliver k :: after ∧
          (run kind before).sent[k]? = some (.request asked r.peer name value) ∧
          Requested kind asked r.peer name value before ∧
          r.found = kind.answer value (stored asked before) := by
  simp only [output_deliver, run_listeners]
  constructor
  · rintro ⟨k, name, hsent, hlistener⟩
    obtain ⟨before, k', after, asked, value, hsplit, hrequest, hfound⟩ :=
      run_response.mp (List.mem_of_getElem? hsent)
    have hrequested := run_request.mp (List.mem_of_getElem? hrequest)
    exact ⟨name, hlistener, before, k', after, asked, value, hsplit, hrequest, hrequested, hfound⟩
  · rintro ⟨name, hlistener, before, k', after, asked, value, hsplit, hrequest, -, hfound⟩
    have hmem := run_response.mpr ⟨before, k', after, asked, value, hsplit, hrequest, hfound⟩
    obtain ⟨k, hk⟩ := List.mem_iff_getElem?.mp hmem
    exact ⟨k, name, hk, hlistener⟩

/-! ## Overtaken searches -/

/-- Nothing was sent yet that could reach the listener under one of its names. -/
def Unasked (peer : String) (l : L) (net : SearchNetwork E L) : Prop :=
  ∀ name, (net.peers peer).listeners.get (some name) = some l →
    (∀ receiver value, SearchPacket.request receiver peer name value ∉ net.sent) ∧
      ∀ found, SearchPacket.response peer name found ∉ net.sent

/-- The search listener of the peer has none of the names of the listener. -/
def Overtaken (peer : String) (l : L) (net : SearchNetwork E L) : Prop :=
  ∀ name value, (net.peers peer).listeners.get (some name) = some l →
    (net.peers peer).currentSl ≠ some (value, some name)

variable {l : L}

theorem not_output_of_unasked (hunasked : Unasked peer l net) {k : Nat} {r : SearchResult E L}
    (hr : r ∈ (machine kind).output net (.deliver k)) (hpeer : r.peer = peer) : r.listener ≠ l := by
  obtain ⟨name, hsent, hlistener⟩ := output_deliver.mp hr
  rintro rfl
  subst hpeer
  exact (hunasked name hlistener).2 r.found (List.mem_of_getElem? hsent)

theorem next_overtaken (hover : Overtaken peer l net)
    (hnew : ∀ name value, ¬ Searches kind peer name value l e) :
    Overtaken peer l ((machine kind).next net e) := by
  intro name value hlistener hcurrent
  obtain ⟨value', hset⟩ | ⟨hlistener, hno⟩ := next_listeners.mp hlistener
  · exact hnew _ _ hset
  · obtain ⟨l', hset⟩ | ⟨hcurrent, -⟩ := next_currentSl.mp hcurrent
    · exact hno _ _ hset
    · exact hover name value hlistener hcurrent

/-- Another search of the peer takes its search listener. -/
theorem overtaken_next {who value : Option String} {l' : L} (hne : l' ≠ l) :
    Overtaken peer l ((machine kind).next net (.findAllByAttribute peer who value l')) := by
  intro name value' hlistener hcurrent
  obtain ⟨_, hset⟩ | ⟨-, hno⟩ := next_listeners.mp hlistener
  · exact hne hset.2.2.2
  · obtain ⟨l'', hset⟩ | ⟨-, hno'⟩ := next_currentSl.mp hcurrent
    · exact hno _ _ ⟨rfl, hset.2.1, rfl, rfl⟩
    · exact hno' (kind.name who) value l' ⟨rfl, rfl, rfl, rfl⟩

theorem next_unasked (hunasked : Unasked peer l net)
    (hnew : ∀ name value, ¬ Searches kind peer name value l e)
    (hquiet : (∀ source adverts, e ≠ .discoveryEvent peer source adverts) ∨ Overtaken peer l net) :
    Unasked peer l ((machine kind).next net e) := by
  intro name hlistener'
  obtain ⟨value', hset⟩ | ⟨hlistener, -⟩ := next_listeners.mp hlistener'
  · exact absurd hset (hnew _ _)
  obtain ⟨hrequest, hresponse⟩ := hunasked name hlistener
  constructor
  · intro receiver value hmem
    obtain ⟨adverts, rfl, hcurrent⟩ | hmem := next_request.mp hmem
    · obtain hquiet | hover := hquiet
      · exact hquiet receiver (adverts + 1) rfl
      · exact hover name _ hlistener hcurrent
    · exact hrequest _ _ hmem
  · intro found hmem
    obtain ⟨k, asked, value, rfl, hsent, -⟩ | hmem := next_response.mp hmem
    · exact hrequest _ _ (List.mem_of_getElem? hsent)
    · exact hresponse _ hmem

/-- A search under a name that the peer has not used before asks nobody at first. -/
theorem unasked_search {who value : Option String}
    (hunused : ∀ e ∈ h, ∀ value l, ¬ Searches kind peer (kind.name who) value l e)
    (hnew : ∀ e ∈ h, ∀ name value, ¬ Searches kind peer name value l e) :
    Unasked peer l ((machine kind).next (run kind h) (.findAllByAttribute peer who value l)) := by
  intro name hlistener
  have hname : kind.name who = some name := by
    obtain ⟨value', hset⟩ | ⟨hlistener, -⟩ := next_listeners.mp hlistener
    · exact hset.2.1
    · obtain ⟨value', before, e, after, rfl, hset, -⟩ := run_listeners.mp hlistener
      exact absurd hset (hnew e (by simp) _ _)
  have hrequest : ∀ receiver value, SearchPacket.request receiver peer name value ∉
      (run kind h).sent := by
    intro receiver value' hmem
    obtain ⟨before, adverts, after, rfl, past, e, recent, rfl, ⟨l', hset⟩, -⟩ := run_request.mp hmem
    rw [← hname] at hset
    exact hunused e (by simp) _ _ hset
  refine ⟨hrequest, fun found hmem => ?_⟩
  obtain ⟨before, k, after, asked, value', rfl, hsent, -⟩ := run_response.mp hmem
  exact hrequest asked value'
    (run_request.mpr (requested_append (run_request.mp (List.mem_of_getElem? hsent)) _))

/-- A search that the peer follows by another one before the discovery service finds anyone for it
gets no answer: no packet notifies its listener from then on. Its name is new to the peer, and
nothing else sets its listener. -/
theorem overtaken_unanswered (before mid after : List (SearchEvent E L))
    {who value who' value' : Option String} {l' : L}
    (hunused : ∀ e ∈ before, ∀ value l, ¬ Searches kind peer (kind.name who) value l e)
    (hnew : ∀ e ∈ before ++ mid ++ .findAllByAttribute peer who' value' l' :: after, ∀ name value,
      ¬ Searches kind peer name value l e)
    (hquiet : ∀ source adverts, .discoveryEvent peer source adverts ∉ mid) {k : Nat}
    {r : SearchResult E L}
    (hr : r ∈ (machine kind).output
      (run kind (before ++ .findAllByAttribute peer who value l :: mid ++
      .findAllByAttribute peer who' value' l' :: after)) (.deliver k))
        (hpeer : r.peer = peer) : r.listener ≠ l := by
  have hfirst : Unasked peer l
      ((machine kind).next (run kind before) (.findAllByAttribute peer who value l)) :=
    unasked_search hunused fun e he => hnew e (by simp [he])
  have hmid := (machine kind).exec_preserves_of_mem (P := Unasked peer l) (fun e
    (he : e ∈ mid) net hunasked =>
    next_unasked hunasked (hnew e (by simp [he])) (Or.inl fun source adverts heq =>
      hquiet source adverts (heq ▸ he))) hfirst
  have hl : l' ≠ l := by
    rintro rfl
    exact hnew (.findAllByAttribute peer who' value' l') (by simp) (kind.name who') value' ⟨rfl,
      rfl, rfl, rfl⟩
  have hsecond := next_unasked (e := .findAllByAttribute peer who' value' l') hmid
    (hnew _ (by simp)) (Or.inl fun source adverts heq => by cases heq)
  have hafter := (machine kind).exec_preserves_of_mem (P := fun net => Unasked peer l net ∧
    Overtaken peer l net) (fun e (he : e ∈ after) net hnet =>
      have hnewE := hnew e (by simp [he])
      ⟨next_unasked hnet.1 hnewE (Or.inr hnet.2), next_overtaken hnet.2 hnewE⟩) ⟨hsecond,
        overtaken_next hl⟩
  rw [run, Machine.exec_append, Machine.exec_cons, Machine.exec_append, Machine.exec_cons] at hr
  exact not_output_of_unasked hafter.1 hr hpeer

end SearchNetwork

namespace Sample

open SearchNetwork

/-- Two searches of one peer, of which the second one gets its answer. -/
def twoSearches : List (SearchEvent Item Nat) :=
  [.findAllByAttribute "a" (some "first") (some "x") 1,
    .findAllByAttribute "a" (some "second") (some "y") 2, .discoveryEvent "a" "b" 1, .deliver 0]

theorem overtaken_unanswered_twoSearches : ∃ r : SearchResult Item Nat, r.peer = "a" ∧
    r ∈ (machine (itemSearch derby)).output (run (itemSearch derby) twoSearches) (.deliver 1) ∧
    r.listener ≠ 1 := by
  have hr : { peer := "a", listener := 2, found := [] } ∈
      (machine (itemSearch derby)).output (run (itemSearch derby) twoSearches) (.deliver 1) :=
    List.mem_singleton.mpr rfl
  refine ⟨_, rfl, hr, overtaken_unanswered [] [] [.discoveryEvent "a" "b" 1,
    .deliver 0] ?_ ?_ ?_ hr rfl⟩
  · simp
  · simp [Searches]
  · simp

end Sample

end Sxp
