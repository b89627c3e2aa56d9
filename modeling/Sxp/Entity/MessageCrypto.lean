-- SUMMARY: Private messages: signed, then encrypted for both ends; each end reads the content back and accepts the signature.
import Sxp.Entity.Authenticity
import Sxp.Entity.ElGamalEngine

/-!
# Encrypted messages

The content is encrypted with a password, and the password with the key of the receiver and
with the key in the message's field `pbkey`, which is the sender's. The ciphers, the JSON
mapper and the charset are the ones of the virtual machine and of its libraries.
-/

namespace Sxp

/-! ## Ciphers -/

/-- The ElGamal engine, `SerpentEncrypter` with its password, Jackson for `byte[][]`, and the
default charset. What an encryption draws at random is its first argument. -/
structure CipherSuite where
  elGamalEncrypt (random : Nat) (p g publicKey : Int) (block : List UInt8) :
    Except JavaException (List UInt8)
  elGamalDecrypt (p g privateKey : Int) (cipher : List UInt8) : Except JavaException (List UInt8)
  serpentEncrypt (random : Nat) (password plain : List UInt8) : List UInt8
  serpentDecrypt (password cipher : List UInt8) : Except JavaException (List UInt8)
  toJson (content : List (List UInt8)) : String
  toEntity (json : String) : Option (List (Option (List UInt8)))
  getBytes (s : String) : List UInt8
  newString (bs : List UInt8) : String

namespace ElGamalEncrypter

variable (suite : CipherSuite)

def encrypt (random : Nat) (key : Option ElGamalKeyEntity) (plainText : List UInt8) :
    Except JavaException (List UInt8) :=
  match key with
  | none => .error (.runtime "key not defined")
  | some key => do
      let p ← notNull key.p
      let g ← notNull key.g
      let y ← notNull key.publicKey
      suite.elGamalEncrypt random p g y plainText

def decrypt (key : Option ElGamalKeyEntity) (cypher : List UInt8) :
    Except JavaException (List UInt8) :=
  match key with
  | none => .error (.runtime "key not defined")
  | some key => do
      let p ← notNull key.p
      let g ← notNull key.g
      let x ← notNull key.privateKey
      suite.elGamalDecrypt p g x cypher

end ElGamalEncrypter

/-- What one call of `encryptMsg` draws: the password and the nonces of its three ciphertexts. -/
structure MsgDraws where
  pwd : String
  first : Nat
  second : Nat
  third : Nat

namespace ElGamalSerpentEncrypter

variable (suite : CipherSuite)

/-- An element of the array that Jackson read. The array can be too short, and its elements null. -/
def slot (content : List (Option (List UInt8))) (i : Nat) : Except JavaException (List UInt8) :=
  match content[i]? with
  | some (some bs) => .ok bs
  | some none => .error .nullPointer
  | none => .error .indexOutOfBounds

/-- `encryptMsg(msg)`, for the holder of one key. -/
def encryptMsgSingle (draws : MsgDraws) (key : Option ElGamalKeyEntity) (msg : List UInt8) :
    Except JavaException String := do
  let pwd := suite.getBytes draws.pwd
  let first ← ElGamalEncrypter.encrypt suite draws.first key pwd
  return suite.toJson [first, suite.serpentEncrypt draws.second pwd msg]

def decryptMsgSingle (key : Option ElGamalKeyEntity) (msg : String) :
    Except JavaException (List UInt8) := do
  let content ← notNull (suite.toEntity msg)
  let pwd ← ElGamalEncrypter.decrypt suite key (← slot content 0)
  suite.serpentDecrypt pwd (← slot content 1)

/-- `encryptMsg(msg, secondKey)`. -/
def encryptMsg (draws : MsgDraws) (key : Option ElGamalKeyEntity) (secondKey : ElGamalKeyEntity)
    (msg : List UInt8) : Except JavaException String := do
  let pwd := suite.getBytes draws.pwd
  let first ← ElGamalEncrypter.encrypt suite draws.first key pwd
  let second ← ElGamalEncrypter.encrypt suite draws.second (some secondKey) pwd
  return suite.toJson [first, second, suite.serpentEncrypt draws.third pwd msg]

/-- `decryptMsg(msg, secondKey)`: the owner of the second key reads the second password. -/
def decryptMsg (key : Option ElGamalKeyEntity) (secondKey : ElGamalKeyEntity) (msg : String) :
    Except JavaException (List UInt8) := do
  let content ← notNull (suite.toEntity msg)
  let reader ← notNull key
  let publicKey ← notNull reader.publicKey
  let pwd ←
    if some publicKey = secondKey.publicKey then do
      ElGamalEncrypter.decrypt suite key (← slot content 1)
    else do
      ElGamalEncrypter.decrypt suite key (← slot content 0)
  suite.serpentDecrypt pwd (← slot content 2)

end ElGamalSerpentEncrypter

/-! ## The encrypted fields -/

namespace CryptoParser

variable {E : Type} [Entity E] (platform : Platform) (suite : CipherSuite)

/-- The second key: the default parameters with the public key of a field. -/
def secondKey (v : Option FieldValue) : Except JavaException ElGamalKeyEntity :=
  match v with
  | some (.number y) =>
      .ok { publicKey := some y, p := some ElGamalAsymKeyFactory.P,
            g := some ElGamalAsymKeyFactory.G }
  | _ => .error (.runtime "Check-key must be a BigInteger!")

/-- `encrypt(data, ...)` as an annotation asks for it. -/
def encryptField (draws : MsgDraws) (key : Option ElGamalKeyEntity) (e : E)
    (a : CryptCryptAnnotation (Entity.Field E)) (data : String) : Except JavaException String := do
  if a.isCryptBySecondKey then
    let second ← secondKey (Entity.get e a.secondKey)
    let json ← ElGamalSerpentEncrypter.encryptMsg suite draws key second (suite.getBytes data)
    return suite.newString (suite.getBytes json)
  else
    let json ← ElGamalSerpentEncrypter.encryptMsgSingle suite draws key (suite.getBytes data)
    return suite.newString (suite.getBytes json)

def decryptField (key : Option ElGamalKeyEntity) (e : E) (a : CryptCryptAnnotation (Entity.Field E))
    (data : String) : Except JavaException String := do
  let json := suite.newString (suite.getBytes data)
  if a.isCryptBySecondKey then
    let second ← secondKey (Entity.get e a.secondKey)
    return suite.newString (← ElGamalSerpentEncrypter.decryptMsg suite key second json)
  else
    return suite.newString (← ElGamalSerpentEncrypter.decryptMsgSingle suite key json)

/-- The loops of `cryptFields` and `decryptFields`, which write what `f` makes of a field. -/
def cryptLoop (f : E → CryptCryptAnnotation (Entity.Field E) → String →
    Except JavaException String) :
    List (Entity.Field E × CryptCryptAnnotation (Entity.Field E)) → E → Except JavaException E
  | [], e => .ok e
  | (field, a) :: rest, e =>
      match f e a (FieldValue.text platform (Entity.get e field)) with
      | .ok data => cryptLoop f rest (Entity.set e field (.string data))
      -- what is logged leaves the field as it was
      | .error x => if x.isIllegalArgument then cryptLoop f rest e else .error x

def cryptFields (draws : MsgDraws) (key : Option ElGamalKeyEntity) (e : E) :
    Except JavaException E :=
  cryptLoop platform (encryptField suite draws key) Entity.fieldsToCrypt e

def decryptFields (key : Option ElGamalKeyEntity) (e : E) : Except JavaException E :=
  cryptLoop platform (decryptField suite key) Entity.fieldsToCrypt e

end CryptoParser

/-! ## The manager -/

namespace CryptoMessageManagerDecorator

variable (platform : Platform) (suite : CipherSuite)

/-- `persist` up to the call of the next manager, for the keys of `userSender` and `user`. -/
def persist (k : Message.Field → Int) (draws : MsgDraws) (userSender user : Option ElGamalKeyEntity)
    (entity : Message) : Except JavaException Message := do
  let entity ← CryptoParser.signeFields platform userSender k entity
  CryptoParser.cryptFields platform suite draws user entity

/-- The body of the loop of `findAllByAttribute`: null stands for a message left out. -/
def found (user : Option ElGamalKeyEntity) (message : Message) :
    Except JavaException (Option Message) := do
  let message ← CryptoParser.decryptFields platform suite user message
  return CryptoParser.checkSignature platform message

end CryptoMessageManagerDecorator

/-! ## Reading back -/

/-- What the manager relies on for one message: the ciphers decrypt what they encrypt, Jackson
reads the arrays that it writes, and the charset encodes the content, and JSON, faithfully. -/
structure CipherSuite.Works (suite : CipherSuite) (draws : MsgDraws) (content : String) : Prop where
  elGamal : ∀ (key : OwnerKey) (random : Nat), ∃ cipher,
    suite.elGamalEncrypt random ElGamalAsymKeyFactory.P ElGamalAsymKeyFactory.G key.publicKey
      (suite.getBytes draws.pwd) = .ok cipher ∧
    suite.elGamalDecrypt ElGamalAsymKeyFactory.P ElGamalAsymKeyFactory.G key.privateKey cipher =
      .ok (suite.getBytes draws.pwd)
  serpent : suite.serpentDecrypt (suite.getBytes draws.pwd)
    (suite.serpentEncrypt draws.third (suite.getBytes draws.pwd) (suite.getBytes content)) =
      .ok (suite.getBytes content)
  jackson : ∀ xs, suite.toEntity (suite.toJson xs) = some (xs.map some)
  charset : suite.newString (suite.getBytes content) = content
  charset_json : ∀ xs, suite.newString (suite.getBytes (suite.toJson xs)) = suite.toJson xs

section ReadingBack

variable {platform : Platform} {suite : CipherSuite} {draws : MsgDraws} {content : String}

/-- Both ends decrypt what was encrypted for them: the password has a slot for each of the keys. -/
theorem ElGamalSerpentEncrypter.decryptMsg_encryptMsg (h : suite.Works draws content)
    (sender receiver : OwnerKey) {second : ElGamalKeyEntity}
    (hsecond : CryptoParser.secondKey (some (.number sender.publicKey)) = .ok second) :
    ∃ xs, encryptMsg suite draws (some receiver.entity) second (suite.getBytes content) =
        .ok (suite.toJson xs) ∧
      ∀ reader, reader = sender ∨ reader = receiver →
        decryptMsg suite (some reader.entity) second (suite.toJson xs) =
        .ok (suite.getBytes content) := by
  obtain rfl := Except.ok.inj hsecond
  obtain ⟨first, hfirst, hopenfirst⟩ := h.elGamal receiver draws.first
  obtain ⟨other, hother, -⟩ := h.elGamal sender draws.second
  refine ⟨[first, other, suite.serpentEncrypt draws.third (suite.getBytes draws.pwd)
    (suite.getBytes content)], ?_, ?_⟩
  · simp [encryptMsg, ElGamalEncrypter.encrypt, OwnerKey.entity, notNull, hfirst, hother]
  · intro reader hreader
    have hserpent := h.serpent
    simp only [decryptMsg, h.jackson, notNull, OwnerKey.entity, Except.ok_bind]
    by_cases hslot : reader.publicKey = sender.publicKey
    · obtain ⟨other', hother', hopen⟩ := h.elGamal reader draws.second
      rw [hslot, hother, Except.ok.injEq] at hother'
      subst hother'
      simp [hslot, slot, ElGamalEncrypter.decrypt, notNull, hopen, hserpent]
    · obtain rfl : reader = receiver := hreader.resolve_left fun hsame => hslot (hsame ▸ rfl)
      simp [hslot, slot, ElGamalEncrypter.decrypt, notNull, hopenfirst, hserpent]

/-- A signed and encrypted message is read back by its sender and by its receiver: with its
content, and with a signature that verifies. -/
theorem CryptoMessageManagerDecorator.found_persist {k : Message.Field → Int} {message : Message}
    {sender receiver : OwnerKey} (hkey : message.pbkey = some sender.publicKey)
    (hcontent : message.messageContent = some content)
    (hnonce : Int.gcd (k .signature) (ElGamalAsymKeyFactory.P - 1) = 1)
    (hworks : suite.Works draws content) :
    ∃ stored signature, persist platform suite k draws (some sender.entity)
        (some receiver.entity) message = .ok stored ∧
      ∀ reader, reader = sender ∨ reader = receiver →
        found platform suite (some reader.entity) stored =
            .ok (some { message with signature := some signature }) ∧
          CryptoParser.Verifies platform { message with signature := some signature } := by
  obtain ⟨s, hs, hverify⟩ := CryptoParser.signeFields_eq platform sender hnonce message
  obtain ⟨second, hsecond⟩ : ∃ second, CryptoParser.secondKey (some (.number sender.publicKey)) =
      .ok second :=
    ⟨_, rfl⟩
  obtain ⟨xs, hxs, hopen⟩ :=
    ElGamalSerpentEncrypter.decryptMsg_encryptMsg hworks sender receiver hsecond
  have hcrypt : CryptoParser.cryptFields platform suite draws (some receiver.entity)
      { message with signature := some s } =
      .ok { message with signature := some s, messageContent := some (suite.toJson xs) } := by
    simp [CryptoParser.cryptFields, CryptoParser.cryptLoop, CryptoParser.encryptField,
      Entity.fieldsToCrypt,
      Message.contentAnnotation, Entity.get, Message.get, Entity.set, Message.set,
      FieldValue.text, hkey, hcontent, hsecond, hxs, hworks.charset_json]
  have hpersist : persist platform suite k draws (some sender.entity)
      (some receiver.entity) message =
      .ok { message with signature := some s, messageContent := some (suite.toJson xs) } := by
    rw [persist, hs]
    exact hcrypt
  refine ⟨_, s, hpersist, fun reader hreader => ?_⟩
  have hdecrypt : CryptoParser.decryptFields platform suite (some reader.entity)
      { message with signature := some s, messageContent := some (suite.toJson xs) } =
      .ok { message with signature := some s } := by
    simp [CryptoParser.decryptFields, CryptoParser.cryptLoop, CryptoParser.decryptField,
      Entity.fieldsToCrypt,
      Message.contentAnnotation, Entity.get, Message.get, Entity.set, Message.set,
      FieldValue.text, hkey,
      hcontent, hsecond, hopen reader hreader, hworks.charset_json, hworks.charset]
  -- the signature is no part of the signed text
  have hverifies : CryptoParser.Verifies platform { message with signature := some s } := by
    refine ⟨s, some sender.publicKey, rfl, ?_,
      (hverify _).trans (congrArg Except.ok (decide_eq_true rfl))⟩
    change CryptoParser.checkKey (message.pbkey.map FieldValue.number) = _
    rw [hkey]
    rfl
  refine ⟨?_, hverifies⟩
  rw [found, hdecrypt, Except.ok_bind, hverifies.checkSignature]
  rfl

end ReadingBack

namespace Sample

def getBytes (s : String) : List UInt8 := s.toList.map fun c => UInt8.ofNat c.toNat

def newString (bs : List UInt8) : String := String.ofList (bs.map fun b => Char.ofNat b.toNat)

/-- The charset ISO-8859-1 has the first 256 characters. -/
theorem newString_getBytes {s : String} (h : ∀ c ∈ s.toList, c.toNat < 256) :
    newString (getBytes s) = s := by
  rw [newString, getBytes, List.map_map, ← String.toList_inj, String.toList_ofList]
  refine (List.map_congr_left fun c hc => ?_).trans (List.map_id _)
  rw [Function.comp_apply, UInt8.toNat_ofNat_of_lt' (h c hc), Char.ofNat_toNat, id]

/-- The engine with a stream cipher for Serpent, and arrays written as one number. -/
def suite : CipherSuite where
  elGamalEncrypt := ElGamalEngine.encrypt
  elGamalDecrypt := ElGamalEngine.decrypt
  serpentEncrypt _ password plain := plain.map (· ^^^ password.headD 0)
  serpentDecrypt password cipher := .ok (cipher.map (· ^^^ password.headD 0))
  toJson content := BigInteger.text
    (Encodable.encode (content.map fun bs => bs.map UInt8.toNat) : ℕ)
  toEntity json := do
    let n ← (BigInteger.ofText json).toOption
    let content ← Encodable.decode (α := List (List ℕ)) n.toNat
    return content.map fun bs => some (bs.map UInt8.ofNat)
  getBytes := getBytes
  newString := newString

def draws : MsgDraws where
  pwd := "aB3$"
  first := 2
  second := 3
  third := 0

theorem suite_works : suite.Works draws "See you at noon" where
  elGamal key random :=
    @ElGamalEngine.decrypt_encrypt key random 97 [66, 51, 36] (by decide) (by decide)
  serpent := by decide
  jackson xs := by
    have hbytes : (xs.map fun bs => bs.map UInt8.toNat).map (fun bs => some (bs.map UInt8.ofNat)) =
        xs.map some := by
      simp [List.map_map, Function.comp_def]
    simp only [suite, BigInteger.ofText_text, Except.toOption, Option.bind_eq_bind,
      Option.bind_some, Int.toNat_natCast, Encodable.encodek]
    exact congrArg some hbytes
  charset := by decide
  charset_json xs := by
    refine newString_getBytes fun c hc => ?_
    simp only [suite, BigInteger.text, String.toList_ofList] at hc
    have hdigit : c.isDigit = true := Nat.isDigit_of_mem_toDigits (by decide) le_rfl hc
    have hle : c ≤ '9' := of_decide_eq_true (Bool.and_eq_true_iff.mp hdigit).2
    exact lt_of_le_of_lt (Char.le_def.mp hle) (by decide)

def receiverKey : OwnerKey where
  privateKey := 2
  publicKey := ElGamalAsymKeyFactory.G * ElGamalAsymKeyFactory.G % ElGamalAsymKeyFactory.P
  valid := by decide +kernel

def message : Message where
  id := none
  sendingDate := some 0
  senderId := some "0001"
  senderName := some "owner"
  receiverId := some "0002"
  receiverName := some "friend"
  messageContent := some "See you at noon"
  status := some .DRAFT
  pbkey := some ownerKey.publicKey
  signature := none

end Sample

/-- A short message is read by its receiver, and by its sender. -/
theorem CryptoMessageManagerDecorator.found_persist_both :
    ∃ stored signature, persist Sample.platform Sample.suite (fun _ => 1) Sample.draws
        (some Sample.ownerKey.entity) (some Sample.receiverKey.entity) Sample.message = .ok stored ∧
      found Sample.platform Sample.suite (some Sample.receiverKey.entity) stored =
        .ok (some { Sample.message with signature := some signature }) ∧
      found Sample.platform Sample.suite (some Sample.ownerKey.entity) stored =
        .ok (some { Sample.message with signature := some signature }) := by
  obtain ⟨stored, signature, hstored, hfound⟩ :=
    @CryptoMessageManagerDecorator.found_persist Sample.platform Sample.suite Sample.draws _
      (fun _ => 1)
      Sample.message Sample.ownerKey Sample.receiverKey rfl rfl (by decide) Sample.suite_works
  exact ⟨stored, signature, hstored, (hfound _ (Or.inr rfl)).1, (hfound _ (Or.inl rfl)).1⟩

end Sxp
