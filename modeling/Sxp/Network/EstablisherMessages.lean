-- SUMMARY: A contract sent by messages: each of them is heard by the listener under its id, if what that checks is what was sent, and by nobody else.
import Sxp.Network.EstablisherService
import Sxp.Sigma.Responses

/-!
# Establisher messages

A message goes to the listener whose id is the title followed by the public key of the receiver.
Different titles and keys can make the same id. A listener that checks the title tells them apart,
so that a message can get lost but is never heard by the wrong one.
-/

namespace Sxp

structure EstablisherMessage where
  who : Option String := none
  title : Option String := none
  sourceId : Option String := none
  sourceUri : Option String := none
  type : Option String := some "establisher"
  contract : Option String := none

namespace EstablisherMessage

/-- The annotated fields in the order of their declaration, and the receiver. -/
def getNames : List String := ["title", "sourceId", "source", "type", "contract", "WHO"]

def getMessage (m : EstablisherMessage) (name : String) : Except JavaException (Option String) :=
  if name = "WHO" then .ok m.who
  else if name = "title" then .ok m.title
  else if name = "sourceId" then .ok m.sourceId
  else if name = "source" then .ok m.sourceUri
  else if name = "type" then .ok m.type
  else if name = "contract" then .ok m.contract
  else .error (.runtime "field doesn't exist !")

def toElement (m : EstablisherMessage) (name : String) :
    Except JavaException JxtaService.Element := do
  let text ← notNull (← m.getMessage name)
  return (name, getBytes text)

/-- `toJxtaMessage`, of the message of an establisher. -/
def toJxtaMessage (m : EstablisherMessage) : Except JavaException (List JxtaService.Element) :=
  getNames.mapM (toElement m)

end EstablisherMessage

namespace JxtaEstablisherService

/-- The id under which the receiver with the public key listens. -/
def messageId (title : String) (publicKey : Int) : String := title ++ BigInteger.text publicKey

/-- `sendContract(title, who, sourceId, contract, peerURIs)`, up to the pipe. -/
def sendMessage (peerUri title who sourceId contract : Option String) :
    Except JavaException (List JxtaService.Element) :=
  EstablisherMessage.toJxtaMessage { title, who, sourceId, sourceUri := peerUri, contract }

/-- `sendContract(title, data, senderK, peer, uris)` by messages: what is sent to which URI. -/
def sendContracts (peerUri : Option String) (title data senderK : String)
    (uris : HashMap ElGamalKey String) :
    Except JavaException (List (String × List JxtaService.Element)) :=
  uris.entries.mapM fun u => do
    return (u.2, ← sendMessage peerUri title (messageId title u.1.publicKey) senderK data)

variable {L : Type} {platform : Platform} {h : List (EstablisherServiceEvent L)}

/-- The text that the message carries in a field when it arrives. -/
def arrivingField (uri title who sourceId contract name : String) : Option String :=
  if name = "WHO" then some who
  else if name = "contract" then some contract
  else if name = "type" then some "establisher"
  else if name = "source" then some uri
  else if name = "sourceId" then some sourceId
  else if name = "title" then some title
  else none

/-- What arrives has the fields that were sent. -/
theorem sendMessage_arrives (hutf8 : ∀ s, platform.utf8 (getBytes s) = s)
    (uri title who sourceId contract : String) :
    ∃ event, sendMessage (some uri) title who sourceId contract = .ok event ∧
      ∀ name, (JxtaService.toMessages platform event).getMessage name =
        arrivingField uri title who sourceId contract name := by
  refine ⟨[("title", getBytes title), ("sourceId", getBytes sourceId), ("source", getBytes uri),
    ("type", getBytes "establisher"), ("contract", getBytes contract), ("WHO", getBytes who)], rfl,
      fun name => ?_⟩
  simp [JxtaService.toMessages, JxtaService.addElement, hutf8, MessagesGeneric.setWho,
    arrivingField]
  rfl

/-- The listener under the id hears the message if it checks for a text that the message carries. -/
def HearsMessage (h : List (EstablisherServiceEvent L)) (uri title senderK data : String)
    (publicKey : Int) (n : Notification L) : Prop :=
  ∃ field value l, Awaits (messageId title publicKey) field (some value) l h ∧
    arrivingField uri title (messageId title publicKey) senderK data field = some value ∧
    n = { listener := l, title := title, content := data, senderId := senderK }

/-- A listener for the title, as the service asks for, hears the messages with its very title. -/
theorem hearsMessage_title_iff {uri title senderK data : String} {publicKey : Int}
    {value : String} {l : L}
    (hawaits : Awaits (messageId title publicKey) "title" (some value) l h) :
    HearsMessage h uri title senderK data publicKey
      { listener := l, title := title, content := data, senderId := senderK } ↔ value = title := by
  constructor
  · rintro ⟨field, value', l', hawaits', hcarried, -⟩
    have hset : (run h).listeners.get (messageId title publicKey) = some ⟨"title", some value, l⟩ :=
      run_listeners.mpr hawaits
    have hset' : (run h).listeners.get (messageId title publicKey) = some ⟨field,
      some value', l'⟩ :=
      run_listeners.mpr hawaits'
    rw [hset, Option.some.injEq, MessageListener.mk.injEq] at hset'
    obtain ⟨rfl, hvalue, -⟩ := hset'
    rw [← hvalue] at hcarried
    exact (Option.some.inj hcarried).symm
  · rintro rfl
    exact ⟨"title", value, l, hawaits, rfl, rfl⟩

/-- One message, at any receiver. -/
theorem sendMessage_heard_iff (hutf8 : ∀ s, platform.utf8 (getBytes s) = s)
    (uri title data senderK : String) (publicKey : Int) :
    ∃ event, sendMessage (some uri) title (messageId title publicKey) senderK data = .ok event ∧
      ∀ (h : List (EstablisherServiceEvent L)) (n : Notification L),
        n ∈ ((run h).pipeMsgEvent (JxtaService.toMessages platform event)).1 ↔
          HearsMessage h uri title senderK data publicKey n := by
  obtain ⟨event, hsent, hfields⟩ :=
    sendMessage_arrives hutf8 uri title (messageId title publicKey) senderK data
  refine ⟨event, hsent, fun h n => ?_⟩
  have hwho : (JxtaService.toMessages platform event).getMessage "WHO" =
      some (messageId title publicKey) := hfields "WHO"
  have htitle : (JxtaService.toMessages platform event).getMessage "title" = some title :=
    hfields "title"
  have hcontract : (JxtaService.toMessages platform event).getMessage "contract" = some data :=
    hfields "contract"
  have hsource : (JxtaService.toMessages platform event).getMessage "sourceId" = some senderK :=
    hfields "sourceId"
  rw [mem_run_pipeMsgEvent]
  simp only [Hears, MessagesGeneric.getWho, hwho, htitle, hcontract, hsource, hfields,
    Option.some.injEq]
  constructor
  · rintro ⟨_, field, value, l, rfl, hawaits, hvalue, hfield, rfl⟩
    obtain ⟨value, rfl⟩ := Option.ne_none_iff_exists'.mp hvalue
    exact ⟨field, value, l, hawaits, hfield, rfl⟩
  · rintro ⟨field, value, l, hawaits, hfield, rfl⟩
    exact ⟨_, field, some value, l, rfl, hawaits, Option.some_ne_none value, hfield, rfl⟩

/-- A contract sent to the receivers of a map goes to each of their URIs, and is heard there,
whatever listeners were set and removed before, by the one that was last set under the id of the
title and the receiver's key, if the message carries the text that this one checks for in its
field. -/
theorem sendContracts_heard_iff (hutf8 : ∀ s, platform.utf8 (getBytes s) = s)
    (uri title data senderK : String) (uris : HashMap ElGamalKey String) :
    ∃ sent, sendContracts (some uri) title data senderK uris = .ok sent ∧
      List.Forall₂ (fun m u => m.1 = u.2 ∧ ∀ (h : List (EstablisherServiceEvent L))
        (n : Notification L), n ∈ ((run h).pipeMsgEvent (JxtaService.toMessages platform m.2)).1 ↔
          HearsMessage h uri title senderK data u.1.publicKey n) sent uris.entries := by
  refine List.exists_mapM_forall₂ fun u _ => ?_
  obtain ⟨event, hsent, hheard⟩ :=
    sendMessage_heard_iff (L := L) hutf8 uri title data senderK u.1.publicKey
  exact ⟨(u.2, event), by rw [hsent]; rfl, rfl, hheard⟩

end JxtaEstablisherService

namespace Sample

open JxtaEstablisherService

def receiver : ElGamalKey := { p := 23, g := 5, publicKey := 8 }

/-- The receiver has set its listener for a title. -/
def listening : List (EstablisherServiceEvent Nat) :=
  [.setListener "title" (some "SIGN") (messageId "SIGN" 8) 1 true []]

theorem awaits_listening : Awaits (messageId "SIGN" 8) "title" (some "SIGN") 1 listening :=
  ⟨[], _, [], rfl, ⟨rfl, rfl, rfl, rfl, rfl⟩, fun a _ _ hsplit => absurd hsplit (by simp)⟩

theorem sendContracts_heard_listening : ∃ m : String × List JxtaService.Element,
    sendContracts (some "urn:jxta:1") "SIGN" "data" "5" { entries := [(receiver, "urn:jxta:2")] } =
      .ok [m] ∧ m.1 = "urn:jxta:2" ∧
      ({ listener := 1, title := "SIGN", content := "data", senderId := "5" } : Notification Nat) ∈
        ((run listening).pipeMsgEvent (JxtaService.toMessages utf8Platform m.2)).1 := by
  obtain ⟨sent, hsent, hall⟩ :=
    @sendContracts_heard_iff Nat utf8Platform utf8_getBytes "urn:jxta:1" "SIGN"
    "data" "5" { entries := [(receiver, "urn:jxta:2")] }
  cases hall with
  | @cons m u sent _ hm hrest =>
      cases hrest
      exact ⟨m, hsent, hm.1, (hm.2 listening _).mpr ⟨"title", "SIGN", 1,
        awaits_listening, rfl, rfl⟩⟩

end Sample

end Sxp
