-- SUMMARY: Requests for users: the messages that ask for them and travel as bytes, the peer that answers, and which keys are found by a request with a public key.
import Sxp.Controller.PasswordCheck
import Sxp.Java.Json

/-!
# Requests for users

A peer asks another one for the users with a nickname: for all of them, for the one with an id,
or for the one with a public key. The key is sent in decimal digits, and the peer that answers
reads them as hexadecimal ones, so that only keys of one digit are understood.
-/

namespace Sxp

/-- The public key of a user who has one. -/
def User.publicKey (u : User) : Option Int := u.keys.bind ElGamalKeyEntity.publicKey

/-! ## Messages -/

/-- A message as it is put together from what arrives. -/
structure MessagesGeneric where
  fields : HashMap String String := {}

namespace MessagesGeneric

def getMessage (m : MessagesGeneric) (name : String) : Option String := m.fields.get name

def addField (m : MessagesGeneric) (name value : String) : MessagesGeneric :=
  { fields := m.fields.put name value }

def setWho (m : MessagesGeneric) (who : String) : MessagesGeneric := m.addField "WHO" who

def getWho (m : MessagesGeneric) : Option String := m.getMessage "WHO"

@[simp] theorem getMessage_addField (m : MessagesGeneric) (name name' value : String) :
    (m.addField name value).getMessage name' = if name' = name then some value
    else m.getMessage name' := by
  simp [getMessage, addField, HashMap.get_put]

end MessagesGeneric

structure RequestUserMessage where
  who : Option String := none
  sourceUri : Option String := none
  nick : Option String := none
  attribute_ : Option String := none
  type : Option String := some "request"

namespace RequestUserMessage

/-- The annotated fields in the order of their declaration, and the receiver. -/
def getNames : List String := ["source", "nick", "attribute", "type", "WHO"]

def getMessage (m : RequestUserMessage) (name : String) : Except JavaException (Option String) :=
  if name = "WHO" then .ok m.who
  else if name = "source" then .ok m.sourceUri
  else if name = "nick" then .ok m.nick
  else if name = "attribute" then .ok m.attribute_
  else if name = "type" then .ok m.type
  else .error (.runtime "field doesn't exist !")

end RequestUserMessage

namespace JxtaService

/-- One element of a message on the pipe: its name and its bytes. -/
abbrev Element := String × List UInt8

def toElement (m : RequestUserMessage) (name : String) : Except JavaException Element := do
  let text ← notNull (← m.getMessage name)
  return (name, getBytes text)

def toJxtaMessage (m : RequestUserMessage) : Except JavaException (List Element) :=
  RequestUserMessage.getNames.mapM (toElement m)

/-- What an element that arrives adds to the message. -/
def addElement (platform : Platform) (msg : MessagesGeneric) (e : Element) : MessagesGeneric :=
  if e.1 = "WHO" then msg.setWho (platform.utf8 e.2) else msg.addField e.1 (platform.utf8 e.2)

def toMessages (platform : Platform) (m : List Element) : MessagesGeneric :=
  m.foldl (addElement platform) {}

end JxtaService

/-! ## The service -/

/-- `new BigInteger(s, 16)`. -/
def BigInteger.ofText16 (s : String) : Except JavaException Int :=
  match BigInteger.ofHexText s with
  | some n => .ok n
  | none => .error (.numberFormat s)

/-- The answer to a request, with the collection that is written into its field `users`. -/
structure UsersResponse where
  who : Option String
  type : String
  users : List User

/-- The service, whose URI is known from its start on. -/
structure JxtaUsersSenderService where
  peerUri : Option String

namespace JxtaUsersSenderService

/-- `sendRequest(nick, who, peerURIs)`. -/
def sendRequest (service : JxtaUsersSenderService) (nick who : Option String) :
    Except JavaException (List JxtaService.Element) :=
  JxtaService.toJxtaMessage
    { nick, attribute_ := some "", type := some "request", who, sourceUri := service.peerUri }

/-- `sendRequest(id, nick, who, targetPeers)`. -/
def sendRequestById (service : JxtaUsersSenderService) (id nick who : Option String) :
    Except JavaException (List JxtaService.Element) :=
  JxtaService.toJxtaMessage
    { nick, attribute_ := id, type := some "requestById", who, sourceUri := service.peerUri }

/-- `sendRequest(nick, pbkey, who, peerURIs)`. -/
def sendRequestByPbkey (service : JxtaUsersSenderService) (nick : Option String)
    (pbkey : Option Int) (who : Option String) : Except JavaException (List JxtaService.Element) :=
  JxtaService.toJxtaMessage
    { nick, attribute_ := some (numberText pbkey), type := some "requestByPbkey", who,
      sourceUri := service.peerUri }

/-- The loop over the users with the nickname that looks for an id. -/
def findById (attribute_ : Option String) : List User → Except JavaException (List User)
  | [] => .ok []
  | user :: users => do
      let id ← notNull user.id
      let resultat ← findById attribute_ users
      return if some id = attribute_ then user :: resultat else resultat

/-- The loop over the users with the nickname that stops at the first with the key. The argument
of `equals` is read before the public key is found to be null. -/
def findByPbkey (attribute_ : Option String) : List User → Except JavaException (List User)
  | [] => .ok []
  | user :: users => do
      let key ← notNull user.keys
      let text ← notNull attribute_
      let n ← BigInteger.ofText16 text
      let publicKey ← notNull key.publicKey
      if publicKey = n then return [user] else findByPbkey attribute_ users

/-- The users for each type of request, among those with the nickname. -/
def resultat (type : String) (attribute_ : Option String) (found : List User) :
    Except JavaException (List User) :=
  if type = "request" then .ok found
  else if type = "requestById" then findById attribute_ found
  else if type = "requestByPbkey" then findByPbkey attribute_ found
  else .ok []

def getResponseMessage (db : Comparison) (users : List User) (msg : MessagesGeneric) :
    Except JavaException UsersResponse := do
  let type ← notNull (msg.getMessage "type")
  let found ← resultat type (msg.getMessage "attribute")
    (findAllByNick db users (msg.getMessage "nick"))
  return { who := msg.getWho, type := "response", users := found }

/-- What a peer with these users does with a message: it sends an answer to the source of the
message, or hands an answer to its own listener. -/
def pipeMsgEvent (db : Comparison) (platform : Platform) (users : List User)
    (event : List JxtaService.Element) :
    Except JavaException (Option (UsersResponse × Option String)) := do
  let message := JxtaService.toMessages platform event
  let type ← notNull (message.getMessage "type")
  if type = "response" then return none
  else
    let response ← getResponseMessage db users message
    return some (response, message.getMessage "source")

/-! ## The loop over the users -/

variable {db : Comparison} {platform : Platform} {users : List User} {nick : String}
  {attribute_ : String} {d K : Int}

/-- The users before the first one with the key all have one. -/
def KeysUntil (d : Int) (users : List User) : Prop :=
  ∀ u ∈ users.takeWhile fun u => u.publicKey ≠ some d, u.publicKey ≠ none

theorem findByPbkey_eq_ok (hread : BigInteger.ofHexText attribute_ = some d)
    {resultat : List User} : findByPbkey (some attribute_) users = .ok resultat ↔
      KeysUntil d users ∧ resultat = (users.find? fun u => u.publicKey = some d).toList := by
  induction users with
  | nil => simp [findByPbkey, KeysUntil, eq_comm]
  | cons u users ih =>
      have hstop : KeysUntil d (u :: users) ↔
          u.publicKey = some d ∨ u.publicKey ≠ none ∧ KeysUntil d users := by
        by_cases hu : u.publicKey = some d
        · simp [KeysUntil, hu]
        · simp [KeysUntil, hu]
      rw [findByPbkey, hstop]
      cases hkeys : u.keys with
      | none =>
          have hnone : u.publicKey = none := by
            rw [User.publicKey, hkeys, Option.bind_none]
          simp [notNull, hnone, bind, Except.bind]
      | some key =>
          have hkey : u.publicKey = key.publicKey := by
            rw [User.publicKey, hkeys, Option.bind_some]
          simp only [notNull, BigInteger.ofText16, hread, Except.ok_bind, hkey, List.find?_cons]
          cases hpublic : key.publicKey with
          | none => simp [bind, Except.bind]
          | some k =>
              by_cases hk : k = d
              · simp [hk, pure, Except.pure, eq_comm]
              · simp [hk, ih]

theorem findById_eq_ok (hids : ∀ u ∈ users, u.id ≠ none) :
    findById (some attribute_) users = .ok (users.filter fun u => u.id = some attribute_) := by
  induction users with
  | nil => rfl
  | cons u users ih =>
      obtain ⟨id, hid⟩ := Option.ne_none_iff_exists'.mp (hids u List.mem_cons_self)
      rw [findById, hid, ih fun v hv => hids v (List.mem_cons_of_mem u hv)]
      by_cases hmatch : id = attribute_
      · simp [notNull, hid, hmatch, pure, Except.pure]
      · simp [notNull, hid, hmatch, pure, Except.pure]

/-! ## The request that arrives -/

/-- A request arrives with its fields. -/
theorem toJxtaMessage_arrives (hutf8 : ∀ s, platform.utf8 (getBytes s) = s)
    (uri nick attribute_ type who : String) :
    ∃ event, JxtaService.toJxtaMessage ⟨some who, some uri, some nick, some attribute_,
      some type⟩ = .ok event ∧ ∀ name, (JxtaService.toMessages platform event).getMessage name =
        if name = "WHO" then some who
        else if name = "type" then some type
        else if name = "attribute" then some attribute_
        else if name = "nick" then some nick
        else if name = "source" then some uri
        else none := by
  refine ⟨[("source", getBytes uri), ("nick", getBytes nick), ("attribute", getBytes attribute_),
    ("type", getBytes type), ("WHO", getBytes who)], rfl, fun name => ?_⟩
  simp [JxtaService.toMessages, JxtaService.addElement, hutf8, MessagesGeneric.setWho]
  rfl

/-- The answer to a request goes to its sender, with the users that were looked for. -/
theorem pipeMsgEvent_of_request (hutf8 : ∀ s, platform.utf8 (getBytes s) = s) (users : List User)
    (uri nick attribute_ who : String) {type : String} (htype : type ≠ "response") :
    ∃ event, JxtaService.toJxtaMessage ⟨some who, some uri, some nick, some attribute_,
      some type⟩ = .ok event ∧ pipeMsgEvent db platform users event = do
        let found ← resultat type (some attribute_) (findAllByNick db users (some nick))
        return some ({ who := some who, type := "response", users := found }, some uri) := by
  obtain ⟨event, hsent, hfields⟩ := toJxtaMessage_arrives hutf8 uri nick attribute_ type who
  refine ⟨event, hsent, ?_⟩
  simp [pipeMsgEvent, getResponseMessage, MessagesGeneric.getWho, hfields, notNull, htype]

/-- A request by nickname is answered with all the users that have it. -/
theorem sendRequest_answered (hutf8 : ∀ s, platform.utf8 (getBytes s) = s) (users : List User)
    (uri nick who : String) : ∃ event, sendRequest ⟨some uri⟩ (some nick) (some who) = .ok event ∧
      pipeMsgEvent db platform users event =
        .ok (some (⟨some who, "response", findAllByNick db users (some nick)⟩, some uri)) :=
  pipeMsgEvent_of_request hutf8 users uri nick "" who (by decide)

/-- A request by id is answered with the users under the nickname that have the id. -/
theorem sendRequestById_answered (hutf8 : ∀ s, platform.utf8 (getBytes s) = s)
    (uri id nick who : String) (hids : ∀ u ∈ users, u.id ≠ none) :
    ∃ event, sendRequestById ⟨some uri⟩ (some id) (some nick) (some who) = .ok event ∧
      pipeMsgEvent db platform users event =
        .ok (some (⟨some who, "response", (findAllByNick db users (some nick)).filter fun u =>
          u.id = some id⟩, some uri)) := by
  obtain ⟨event, hsent, hanswer⟩ :=
    @pipeMsgEvent_of_request db platform hutf8 users uri nick id who "requestById" (by decide)
  have hfound : ∀ u ∈ findAllByNick db users (some nick), u.id ≠ none :=
    fun u hu => hids u (List.mem_of_mem_filter hu)
  refine ⟨event, hsent, ?_⟩
  rw [hanswer, resultat, if_neg (by decide), if_pos rfl, findById_eq_ok hfound]
  rfl

/-! ## Finding a user by public key -/

/-- The answer has a user with the nickname and the key, if there is one, and nobody with another
key. -/
structure Finds (users : List User) (nick : String) (K : Int) (answer : List User) : Prop where
  found : (∃ u ∈ users, u.nick = some nick ∧ u.publicKey = some K) →
    ∃ u ∈ answer, u ∈ users ∧ u.nick = some nick ∧ u.publicKey = some K
  only : ∀ u ∈ answer, u.publicKey = some K

/-- The peer with these users answers the request for the key, and the answer finds the user. -/
def Answers (db : Comparison) (platform : Platform) (users : List User) (nick : String) (K : Int)
    (who uri : String) : Prop :=
  ∃ event response, sendRequestByPbkey ⟨some uri⟩ (some nick) (some K) (some who) = .ok event ∧
    pipeMsgEvent db platform users event = .ok (some (response, some uri)) ∧
    Finds users nick K response.users

/-- The user asked for, if there is one, is found before all whom the database finds with the key
under another nickname. -/
def FirstOwn (db : Comparison) (users : List User) (nick : String) (K : Int) : Prop :=
  (∃ u ∈ users, u.nick = some nick ∧ u.publicKey = some K) →
    ∀ u ∈ (findAllByNick db users (some nick)).takeWhile fun u =>
      ¬ (u.nick = some nick ∧ u.publicKey = some K), u.publicKey ≠ some K

/-- What makes the answer right: the loop meets no user without a key, and the key has one digit and
the user comes first, or the key is neither that of a user with the nickname nor misread as one of
those that are found. -/
def Understood (db : Comparison) (users : List User) (nick : String) (K : Int) : Prop :=
  KeysUntil (BigInteger.decimalAsHex K) (findAllByNick db users (some nick)) ∧
    ((-9 ≤ K ∧ K ≤ 9) ∧ FirstOwn db users nick K ∨ ∀ u ∈ findAllByNick db users (some nick),
      (u.nick = some nick → u.publicKey ≠ some K) ∧ u.publicKey ≠ some (BigInteger.decimalAsHex K))

/-- Where the nickname finds its own users only, the one asked for comes first. -/
theorem firstOwn_of_findsOwn (hown : db.FindsOwn User.nick users nick) :
    FirstOwn db users nick K := by
  intro _ u hu hkey
  have hnick := hown u ((List.takeWhile_prefix _).subset hu)
  have hother := List.mem_takeWhile_imp hu
  simp [hnick, hkey] at hother

/-- The user asked for comes first exactly if the first one with the key is one with the
nickname. -/
theorem firstOwn_iff {u : User}
    (hfind : (findAllByNick db users (some nick)).find? (fun u => u.publicKey = some K) = some u) :
    FirstOwn db users nick K ↔
      ((∃ v ∈ users, v.nick = some nick ∧ v.publicKey = some K) → u.nick = some nick) := by
  obtain ⟨hkey, before, after, hfound, hbefore⟩ := List.find?_eq_some_iff_append.mp hfind
  have hkey : u.publicKey = some K := of_decide_eq_true hkey
  have hothers : ∀ v ∈ before, v.publicKey ≠ some K := by
    simpa using hbefore
  have hskip : ∀ v ∈ before, decide (¬ (v.nick = some nick ∧ v.publicKey = some K)) = true :=
    fun v hv => decide_eq_true fun hown => hothers v hv hown.2
  rw [FirstOwn, hfound, List.takeWhile_append_of_pos hskip, List.takeWhile_cons]
  refine imp_congr_right fun _ => ?_
  by_cases hnick : u.nick = some nick
  · simpa [hnick, hkey] using hothers
  -- the loop stops at a user with another nickname
  · refine iff_of_false (fun h => h u ?_ hkey) hnick
    simp [hnick]

/-- The first user whom the lookup finds with the key `d` is a right answer when that is the key
asked for and the user comes first; nobody is when nobody has the key asked for. -/
theorem finds_find?_iff :
    Finds users nick K ((findAllByNick db users (some nick)).find? fun u =>
      u.publicKey = some d).toList ↔
      d = K ∧ FirstOwn db users nick K ∨ ∀ u ∈ findAllByNick db users (some nick),
        (u.nick = some nick → u.publicKey ≠ some K) ∧ u.publicKey ≠ some d := by
  cases hfind : (findAllByNick db users (some nick)).find? fun u => u.publicKey = some d with
  | none =>
      have hnobody : ∀ u ∈ findAllByNick db users (some nick), u.publicKey ≠ some d := by
        simpa using hfind
      constructor
      · intro h
        refine Or.inr fun u hu => ⟨fun hnick hkey => ?_, hnobody u hu⟩
        obtain ⟨husers, -⟩ := Comparison.mem_findAllByAttribute.mp hu
        obtain ⟨v, hv, -⟩ := h.found ⟨u, husers, hnick, hkey⟩
        exact absurd hv List.not_mem_nil
      · intro h
        refine ⟨?_, List.forall_mem_nil _⟩
        rintro ⟨u, husers, hnick, hkey⟩
        have hu : u ∈ findAllByNick db users (some nick) :=
          Comparison.mem_findAllByAttribute_of_eq husers hnick
        rcases h with ⟨rfl, -⟩ | hnone
        · exact absurd hkey (hnobody u hu)
        · exact absurd hkey ((hnone u hu).1 hnick)
  | some u =>
      have hmem := List.mem_of_find?_eq_some hfind
      have hkey : u.publicKey = some d := by
        simpa using List.find?_some hfind
      constructor
      · intro h
        have hasked := h.only u (List.mem_singleton_self u)
        obtain rfl : d = K := Option.some.inj (hkey.symm.trans hasked)
        refine Or.inl ⟨rfl, (firstOwn_iff hfind).mpr fun hexists => ?_⟩
        obtain ⟨v, hv, -, hnick, -⟩ := h.found hexists
        rwa [List.mem_singleton.mp hv] at hnick
      · rintro (⟨rfl, hfirst⟩ | hnone)
        · refine ⟨fun hexists => ?_, ?_⟩
          · have hnick := (firstOwn_iff hfind).mp hfirst hexists
            exact ⟨u, List.mem_singleton_self u, (Comparison.mem_findAllByAttribute.mp hmem).1,
              hnick, hkey⟩
          · intro v hv
            rw [List.mem_singleton.mp hv, hkey]
        · exact absurd hkey (hnone u hmem).2

theorem answers_iff_understood (hutf8 : ∀ s, platform.utf8 (getBytes s) = s) (users : List User)
    (nick : String) (K : Int)
    (who uri : String) : Answers db platform users nick K who uri ↔ Understood db users nick K := by
  have hloop : Answers db platform users nick K who uri ↔
      ∃ found, findByPbkey (some (BigInteger.text K)) (findAllByNick db users (some nick)) =
        .ok found ∧ Finds users nick K found := by
    obtain ⟨event, hsent, hanswer⟩ :=
      @pipeMsgEvent_of_request db platform hutf8 users uri nick (BigInteger.text K) who
      "requestByPbkey" (by decide)
    rw [resultat, if_neg (by decide), if_neg (by decide), if_pos rfl] at hanswer
    rw [Answers]
    constructor
    · rintro ⟨event', response, hsent', hanswer', hfinds⟩
      obtain rfl : event = event' := Except.ok.inj (hsent.symm.trans hsent')
      rw [hanswer] at hanswer'
      obtain ⟨found, hfound, hresponse⟩ := Except.bind_eq_ok.mp hanswer'
      cases hresponse
      exact ⟨found, hfound, hfinds⟩
    · rintro ⟨found, hfound, hfinds⟩
      refine ⟨event, { who := some who, type := "response", users := found }, hsent, ?_, hfinds⟩
      rw [hanswer, hfound]
      rfl
  rw [hloop, Understood, ← BigInteger.decimalAsHex_eq_iff, ← finds_find?_iff]
  simp only [findByPbkey_eq_ok (BigInteger.ofHexText_text K)]
  constructor
  · rintro ⟨found, ⟨hkeys, rfl⟩, hfinds⟩
    exact ⟨hkeys, hfinds⟩
  · rintro ⟨hkeys, hfinds⟩
    exact ⟨_, ⟨hkeys, rfl⟩, hfinds⟩

theorem ofText16_text_iff (K : Int) : BigInteger.ofText16 (BigInteger.text K) = .ok K ↔
    -9 ≤ K ∧ K ≤ 9 := by
  rw [BigInteger.ofText16, BigInteger.ofHexText_text, ← BigInteger.decimalAsHex_eq_iff]
  exact ⟨Except.ok.inj, congrArg Except.ok⟩

/-- A request by nickname and public key finds the user exactly when it is understood, and the key
is read as it was written exactly when it has one digit. -/
theorem found_by_key_iff (hutf8 : ∀ s, platform.utf8 (getBytes s) = s) (users : List User)
    (nick : String) (K : Int) (who uri : String) :
    (Answers db platform users nick K who uri ↔ Understood db users nick K) ∧
      (BigInteger.ofText16 (BigInteger.text K) = .ok K ↔ -9 ≤ K ∧ K ≤ 9) :=
  ⟨answers_iff_understood hutf8 users nick K who uri, ofText16_text_iff K⟩

end JxtaUsersSenderService

namespace Sample

/-- A user whose public key is the number. -/
def keyedUser (publicKey : Int) : User where
  id := some "0001"
  nick := some "alice"
  salt := some [7]
  passwordHash := some [1]
  createdAt := some 0
  keys := some { publicKey := some publicKey }
  signature := none

end Sample

namespace JxtaUsersSenderService

theorem found_by_key_seven :
    Answers Sample.derby Sample.utf8Platform
    [Sample.keyedUser 7] "alice" 7 "test" "urn:jxta:1" := by
  have hown : Sample.derby.FindsOwn User.nick [Sample.keyedUser 7] "alice" := by
    intro u hu
    rw [List.mem_singleton.mp (Comparison.mem_findAllByAttribute.mp hu).1]
    rfl
  refine (found_by_key_iff Sample.utf8_getBytes
    [Sample.keyedUser 7] "alice" 7 "test" "urn:jxta:1").1.mpr ⟨?_, ?_⟩
  · intro u hu
    have hfound := (List.takeWhile_prefix _).subset hu
    rw [List.mem_singleton.mp (Comparison.mem_findAllByAttribute.mp hfound).1]
    exact Option.some_ne_none 7
  · exact Or.inl ⟨by decide, firstOwn_of_findsOwn hown⟩

/-- A key of the size the factory makes is read as another one, and its user is not found. -/
theorem factory_key_not_found :
    ¬ Answers Sample.derby Sample.utf8Platform
        [Sample.keyedUser ElGamalAsymKeyFactory.G] "alice" ElGamalAsymKeyFactory.G "test"
        "urn:jxta:1" ∧
      BigInteger.ofText16 (BigInteger.text ElGamalAsymKeyFactory.G) ≠
      .ok ElGamalAsymKeyFactory.G := by
  have hlarge : ¬ (-9 ≤ ElGamalAsymKeyFactory.G ∧ ElGamalAsymKeyFactory.G ≤ 9) := by
    decide +kernel
  have huser : Sample.keyedUser ElGamalAsymKeyFactory.G ∈
      findAllByNick Sample.derby [Sample.keyedUser ElGamalAsymKeyFactory.G] (some "alice") :=
    Comparison.mem_findAllByAttribute_of_eq (List.mem_singleton_self _) rfl
  constructor
  · rw [answers_iff_understood Sample.utf8_getBytes]
    rintro ⟨-, ⟨hdigit, -⟩ | hnone⟩
    · exact hlarge hdigit
    · exact (hnone _ huser).1 rfl rfl
  · rw [Ne, ofText16_text_iff]
    exact hlarge

end JxtaUsersSenderService

end Sxp
