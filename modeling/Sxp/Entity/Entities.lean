-- SUMMARY: The stored entities User, Item and Message as reflection sees them: their fields, the values of these, and the annotations.
import Sxp.Java.Date
import Sxp.Entity.ElGamalSigner

/-!
# Entities

Every field of an entity can be null. The parser of the annotations reads and writes fields
by name; the names are an enumeration for each entity, which leaves out the fields that are
neither annotated nor named in an annotation. Which `String` object a field holds is no part
of the entity here.
-/

namespace Sxp

/-- An `ElGamalKey` as an entity keeps it. -/
structure ElGamalKeyEntity where
  privateKey : Option Int := none
  publicKey : Option Int := none
  p : Option Int := none
  g : Option Int := none
deriving Repr, DecidableEq

/-- The key of a user made by the factory. -/
def OwnerKey.entity (key : OwnerKey) : ElGamalKeyEntity where
  privateKey := some key.privateKey
  publicKey := some key.publicKey
  p := some ElGamalAsymKeyFactory.P
  g := some ElGamalAsymKeyFactory.G

/-- The value of a field that is not null. -/
inductive FieldValue where
  | string (s : String)
  | date (t : Int)
  | bytes (bs : List UInt8)
  | number (n : Int)
  | key (k : ElGamalKeyEntity)
  | signature (s : ElGamalSignEntity)
deriving Repr, DecidableEq

/-- What the virtual machine and its libraries add to the code: the number read from the
SHA-256 digest of a text, the decoder of UTF-8, and the default time zone. -/
structure Platform where
  hash : String → Int
  utf8 : List UInt8 → String
  zone : TimeZone

/-! ## Texts -/

/-- `String.valueOf(n)`. -/
def numberText : Option Int → String
  | none => "null"
  | some n => BigInteger.text n

def ElGamalKeyEntity.toString (k : ElGamalKeyEntity) : String :=
  "<elgamalkey><g>" ++ numberText k.g ++ "</g><p>" ++ numberText k.p ++ "</p><pbK>" ++
    numberText k.publicKey ++ "</pbK></elgamalkey>"

def ElGamalSignEntity.toString (s : ElGamalSignEntity) : String :=
  "ElGamalSignEntity [r=" ++ numberText s.r ++ ", s=" ++ numberText s.s ++ "]"

/-- What a field adds to a signed text: its bytes decoded, or its `String.valueOf`. -/
def FieldValue.text (platform : Platform) : Option FieldValue → String
  | none => "null"
  | some (.string s) => s
  | some (.date t) => Date.toString platform.zone t
  | some (.bytes bs) => platform.utf8 bs
  | some (.number n) => BigInteger.text n
  | some (.key k) => k.toString
  | some (.signature s) => s.toString

@[simp] theorem FieldValue.text_string (platform : Platform) (v : Option String) :
    FieldValue.text platform (v.map .string) = v.getD "null" := by
  cases v <;> rfl

@[simp] theorem FieldValue.text_number (platform : Platform) (v : Option Int) :
    FieldValue.text platform (v.map .number) = numberText v := by
  cases v <;> rfl

/-! ## Annotations -/

structure CryptSigneAnnotation (Field : Type) where
  signeWithFields : List Field
  checkByKey : Field

structure CryptCryptAnnotation (Field : Type) where
  secondKey : Field
  isCryptBySecondKey : Bool := false

/-- An entity class as reflection sees it. A write of a value of another type than the
field's throws, and leaves the entity as it was. Every class annotates one field as its
signature. -/
class Entity (E : Type) where
  Field : Type
  get : E → Field → Option FieldValue
  set : E → Field → FieldValue → E
  signature : Field
  signatureAnnotation : CryptSigneAnnotation Field
  fieldsToCrypt : List (Field × CryptCryptAnnotation Field)

def Entity.fieldsToSign (E : Type) [Entity E] : List (Field E × CryptSigneAnnotation (Field E)) :=
  [(signature, signatureAnnotation)]

/-! ## User -/

structure User where
  id : Option String
  nick : Option String
  salt : Option (List UInt8)
  passwordHash : Option (List UInt8)
  createdAt : Option Int
  keys : Option ElGamalKeyEntity
  signature : Option ElGamalSignEntity
deriving Repr, DecidableEq

namespace User

inductive Field where
  | nick
  | salt
  | passwordHash
  | createdAt
  | keys
  | signature
deriving Repr, DecidableEq

def get (u : User) : Field → Option FieldValue
  | .nick => u.nick.map .string
  | .salt => u.salt.map .bytes
  | .passwordHash => u.passwordHash.map .bytes
  | .createdAt => u.createdAt.map .date
  | .keys => u.keys.map .key
  | .signature => u.signature.map .signature

def set (u : User) : Field → FieldValue → User
  | .nick, .string s => { u with nick := some s }
  | .salt, .bytes bs => { u with salt := some bs }
  | .passwordHash, .bytes bs => { u with passwordHash := some bs }
  | .createdAt, .date t => { u with createdAt := some t }
  | .keys, .key k => { u with keys := some k }
  | .signature, .signature s => { u with signature := some s }
  | _, _ => u

def signatureAnnotation : CryptSigneAnnotation Field where
  signeWithFields := [.nick, .createdAt, .passwordHash, .salt]
  checkByKey := .keys

instance entity : Entity User where
  Field := Field
  get := get
  set := set
  signature := .signature
  signatureAnnotation := signatureAnnotation
  fieldsToCrypt := []

end User

/-! ## Item -/

structure Item where
  id : Option String
  title : Option String
  description : Option String
  createdAt : Option Int
  pbkey : Option Int
  username : Option String
  userid : Option String
  signature : Option ElGamalSignEntity
deriving Repr, DecidableEq

namespace Item

inductive Field where
  | title
  | description
  | createdAt
  | pbkey
  | username
  | userid
  | signature
deriving Repr, DecidableEq

def get (i : Item) : Field → Option FieldValue
  | .title => i.title.map .string
  | .description => i.description.map .string
  | .createdAt => i.createdAt.map .date
  | .pbkey => i.pbkey.map .number
  | .username => i.username.map .string
  | .userid => i.userid.map .string
  | .signature => i.signature.map .signature

def set (i : Item) : Field → FieldValue → Item
  | .title, .string s => { i with title := some s }
  | .description, .string s => { i with description := some s }
  | .createdAt, .date t => { i with createdAt := some t }
  | .pbkey, .number n => { i with pbkey := some n }
  | .username, .string s => { i with username := some s }
  | .userid, .string s => { i with userid := some s }
  | .signature, .signature s => { i with signature := some s }
  | _, _ => i

def signatureAnnotation : CryptSigneAnnotation Field where
  signeWithFields := [.title, .description, .createdAt, .username, .userid, .pbkey]
  checkByKey := .pbkey

instance entity : Entity Item where
  Field := Field
  get := get
  set := set
  signature := .signature
  signatureAnnotation := signatureAnnotation
  fieldsToCrypt := []

end Item

/-! ## Message -/

inductive ReceptionStatus where
  | DRAFT
  | SENT
  | RECEIVED
deriving Repr, DecidableEq

structure Message where
  id : Option String
  sendingDate : Option Int
  senderId : Option String
  senderName : Option String
  receiverId : Option String
  receiverName : Option String
  messageContent : Option String
  status : Option ReceptionStatus
  pbkey : Option Int
  signature : Option ElGamalSignEntity
deriving Repr, DecidableEq

namespace Message

inductive Field where
  | sendingDate
  | senderId
  | senderName
  | receiverId
  | receiverName
  | messageContent
  | pbkey
  | signature
deriving Repr, DecidableEq

def get (m : Message) : Field → Option FieldValue
  | .sendingDate => m.sendingDate.map .date
  | .senderId => m.senderId.map .string
  | .senderName => m.senderName.map .string
  | .receiverId => m.receiverId.map .string
  | .receiverName => m.receiverName.map .string
  | .messageContent => m.messageContent.map .string
  | .pbkey => m.pbkey.map .number
  | .signature => m.signature.map .signature

def set (m : Message) : Field → FieldValue → Message
  | .sendingDate, .date t => { m with sendingDate := some t }
  | .senderId, .string s => { m with senderId := some s }
  | .senderName, .string s => { m with senderName := some s }
  | .receiverId, .string s => { m with receiverId := some s }
  | .receiverName, .string s => { m with receiverName := some s }
  | .messageContent, .string s => { m with messageContent := some s }
  | .pbkey, .number n => { m with pbkey := some n }
  | .signature, .signature s => { m with signature := some s }
  | _, _ => m

def signatureAnnotation : CryptSigneAnnotation Field where
  signeWithFields :=
    [.sendingDate, .senderId, .senderName, .receiverId, .receiverName, .pbkey, .messageContent]
  checkByKey := .pbkey

def contentAnnotation : CryptCryptAnnotation Field where
  isCryptBySecondKey := true
  secondKey := .pbkey

instance entity : Entity Message where
  Field := Field
  get := get
  set := set
  signature := .signature
  signatureAnnotation := signatureAnnotation
  fieldsToCrypt := [(.messageContent, contentAnnotation)]

end Message

end Sxp
