-- SUMMARY: The requests on users: login, logout, subscription and the change of a password, over the table of users and the tokens.
import Sxp.Base.HashMap
import Sxp.Base.Machine
import Sxp.Entity.CryptoParser
import Sxp.Java.Search
import Sxp.Manager.Queries

/-!
# Users

A request brings its texts in its body, as fields that are joined by `&`, each with its name
before a `=`. The handlers cut them out without decoding. The table of users is the list of its
rows, which the database finds by nickname with its own comparison of texts. What is drawn at
random or read from the clock is part of a request.
-/

namespace Sxp

/-- What a token was given for. -/
structure Logins where
  login : Option String
  password : String

/-- The table of users and the tokens of the authentifier. -/
structure UserState where
  users : List User
  tokens : HashMap String Logins

/-- The state before the first request. -/
def UserState.empty : UserState := { users := [], tokens := {} }

structure LoginToken where
  token : String
  userid : Option String

/-- What a request answers: a token, the text that reports an error, or nothing. -/
inductive UsersAnswer where
  | token (t : LoginToken)
  | error
  | null

/-- The values that a request draws: the token is the one that the authentifier's loop ends with,
and the nonce the one that the signer's loop does. -/
structure UserDraws where
  id : String
  salt : List UInt8
  now : Int
  key : OwnerKey
  nonce : User.Field → Int
  token : String

section

variable (db : Comparison) (platform : Platform) (sha256 : List UInt8 → List UInt8)

/-! ## Hashing -/

/-- `SHA256Hasher.getHash`, with the salt before the message. -/
def SHA256Hasher.getHash (salt : Option (List UInt8)) (message : List UInt8) : List UInt8 :=
  sha256 (salt.getD [] ++ message)

/-- `hasherFields`: the password is the only field to hash. -/
def CryptoParser.hasherFields (u : User) : Except JavaException User := do
  let valueOfField ← notNull u.passwordHash
  return { u with passwordHash := some (SHA256Hasher.getHash sha256 u.salt valueOfField) }

/-- What `CryptoUserManagerDecorator.end` does to the user that changed. -/
def CryptoUserManagerDecorator.parse (nonce : User.Field → Int) (u : User) :
    Except JavaException User := do
  let hashed ← CryptoParser.hasherFields sha256 u
  CryptoParser.signeFields platform u.keys nonce hashed

/-! ## Validation -/

/-- The length of a text in units of UTF-16. -/
def Text.utf16Length (s : String) : Nat :=
  (s.toList.map fun c => if c.toNat < 0x10000 then 1 else 2).sum

/-- The constraints on the fields of a user. -/
def UserValidator.validate (u : User) : Bool :=
  (match u.nick with
    | none => false
    | some nick => decide (3 ≤ Text.utf16Length nick ∧ Text.utf16Length nick ≤ 64)) &&
  u.salt.isSome && u.passwordHash.isSome && u.createdAt.isSome && u.keys.isSome

/-! ## Looking up -/

/-- `findAllByAttribute("nick", username)`. -/
def findAllByNick (users : List User) (username : Option String) : List User :=
  db.findAllByAttribute User.nick users username

/-- The loop of `getUser`, which compares the digests as decoded texts. -/
def getUserLoop (password : String) : List User → Except JavaException (Option User)
  | [] => .ok none
  | u :: users => do
      let passwordHash ← notNull u.passwordHash
      let hash1 := platform.utf8 passwordHash
      let hash2 := platform.utf8 (SHA256Hasher.getHash sha256 u.salt (getBytes password))
      if hash1 = hash2 then return some u else getUserLoop password users

def getUser (users : List User) (username : Option String) (password : String) :
    Except JavaException (Option User) :=
  getUserLoop platform sha256 password (findAllByNick db users username)

/-! ## Tokens -/

namespace SimpleAuthentifier

/-- `getToken`, where the loop over the draws ends with `token`. -/
def getToken (tokens : HashMap String Logins) (token : String) (username : Option String)
    (password : String) : HashMap String Logins :=
  tokens.put token { login := username, password := password }

/-- `getLogin`: the header that carries the token can be missing. -/
def getLogin (tokens : HashMap String Logins) (token : Option String) : Option String :=
  token.bind fun token => (tokens.get token).bind Logins.login

def deleteToken (tokens : HashMap String Logins) (token : Option String) : HashMap String Logins :=
  match token with
  | none => tokens
  | some token => tokens.remove token

end SimpleAuthentifier

/-! ## The handlers -/

namespace Users

open SimpleAuthentifier

/-- `credentials[i].split("=")[1]`. -/
def credential (credentials : List String) (i : Nat) : Except JavaException String :=
  match credentials[i]? with
  | none => .error .indexOutOfBounds
  | some c =>
      match (Text.split c '=')[1]? with
      | none => .error .indexOutOfBounds
      | some v => .ok v

/-- The nickname and the password in the body of `login` and of `subscribe`. -/
def nickAndPassword (jsonCredentials : String) : Except JavaException (String × String) := do
  let credentials := Text.split jsonCredentials '&'
  let login ← credential credentials 0
  let password ← credential credentials 1
  return (login, password)

/-- The three passwords in the body of `changePassword`. -/
def passwords (jsonCredentials : String) : Except JavaException (String × String × String) := do
  let credentials := Text.split jsonCredentials '&'
  let passwordOld ← credential credentials 0
  let passwordNew ← credential credentials 1
  let passwordNewConfirm ← credential credentials 2
  return (passwordOld, passwordNew, passwordNewConfirm)

def login (s : UserState) (jsonCredentials token : String) :
    Except JavaException (UserState × UsersAnswer) := do
  let (login, password) ← nickAndPassword jsonCredentials
  match ← getUser db platform sha256 s.users (some login) password with
  | none => return (s, .error)
  | some u =>
      return ({ s with tokens := getToken s.tokens token (some login) password },
        .token { token, userid := u.id })

/-- The user that `subscribe` persists, before the password is hashed. -/
def newUser (draws : UserDraws) (login password : String) : User where
  id := some draws.id
  nick := some login
  salt := some draws.salt
  passwordHash := some (getBytes password)
  createdAt := some draws.now
  keys := some draws.key.entity
  signature := some {}

/-- `subscribe`. The result of `end` is ignored: a user that is not valid is not stored, and gets
a token all the same. -/
def subscribe (s : UserState) (jsonCredentials : String) (draws : UserDraws) :
    Except JavaException (UserState × UsersAnswer) := do
  let (login, password) ← nickAndPassword jsonCredentials
  let u ← CryptoUserManagerDecorator.parse platform sha256 draws.nonce
    (newUser draws login password)
  let users := if UserValidator.validate u then s.users ++ [u] else s.users
  return ({ users, tokens := getToken s.tokens draws.token (some login) password },
    .token { token := draws.token, userid := u.id })

/-- The user with the new password, which is hashed later. -/
def withPassword (draws : UserDraws) (passwordNew : String) (u : User) : User :=
  { u with salt := some draws.salt, passwordHash := some (getBytes passwordNew) }

/-- The row that was read, after the change. -/
def replaced (u u' v : User) : User := if v = u then u' else v

/-- `changePassword`. The new token is handed out before the user is stored, so that it stays
when the rest throws. -/
def changePassword (s : UserState) (token : Option String) (jsonCredentials : String)
    (draws : UserDraws) : UserState × Except JavaException UsersAnswer :=
  match passwords jsonCredentials with
  | .error e => (s, .error e)
  | .ok (passwordOld, passwordNew, passwordNewConfirm) =>
      if passwordNew ≠ passwordNewConfirm then (s, .ok .error)
      else
        let login := getLogin s.tokens token
        match getUser db platform sha256 s.users login passwordOld with
        | .error e => (s, .error e)
        | .ok none => (s, .ok .null)
        | .ok (some u) =>
            let tokens := getToken s.tokens draws.token u.nick passwordNew
            match CryptoUserManagerDecorator.parse platform sha256 draws.nonce
              (withPassword draws passwordNew u) with
            | .error e => ({ s with tokens }, .error e)
            | .ok u' =>
                if ((findAllByNick db s.users login).map (replaced u u')).all
                  UserValidator.validate then
                  ({ users := s.users.map (replaced u u'), tokens },
                    .ok (.token { token := draws.token, userid := u.id }))
                else ({ s with tokens }, .ok .null)

def logout (s : UserState) (token : Option String) : UserState :=
  { s with tokens := deleteToken s.tokens token }

/-! ## Runs -/

/-- The body that carries the fields. -/
def form (fields : List (String × String)) : String :=
  "&".intercalate (fields.map fun f => f.1 ++ "=" ++ f.2)

def loginForm (nick password : String) : List (String × String) :=
  [("login", nick), ("password", password)]

def passwordForm (old new confirm : String) : List (String × String) :=
  [("password", old), ("passwordNew", new), ("passwordConfirm", confirm)]

end Users

/-- A request, with the texts that its sender puts into the body. -/
inductive UsersRequest where
  | login (nick password token : String)
  | logout (token : Option String)
  | subscribe (nick password : String) (draws : UserDraws)
  | changePassword (token : Option String) (old new confirm : String) (draws : UserDraws)

namespace Users

/-- What throws leaves the state as it was. -/
def caught (s : UserState) : Except JavaException (UserState × UsersAnswer) →
    UserState × Except JavaException UsersAnswer
  | .ok (s', answer) => (s', .ok answer)
  | .error e => (s, .error e)

def handle (s : UserState) : UsersRequest → UserState × Except JavaException UsersAnswer
  | .login nick password token =>
      caught s (login db platform sha256 s (form (loginForm nick password)) token)
  | .logout token => (logout s token, .ok .null)
  | .subscribe nick password draws =>
      caught s (subscribe platform sha256 s (form (loginForm nick password)) draws)
  | .changePassword token old new confirm draws =>
      changePassword db platform sha256 s token (form (passwordForm old new confirm)) draws

end Users

end

end Sxp
