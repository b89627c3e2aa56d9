-- SUMMARY: The requests on contracts: adding, editing, signing and cancelling the copies that the store keeps for the parties.
import Sxp.Base.Machine
import Sxp.Entity.Entities
import Sxp.Manager.Queries
import Sxp.Save.ContractsDecorator

/-!
# Contracts

The store keeps a copy of a contract for each party. A request that throws does not commit its
transaction, so that the store is as before. Users are looked up in a table that is part of a
request, as is what the protocol leaves of a copy that is signed. Copies and users are found by
queries, with the comparison of the database.
-/

namespace Sxp

/-- A stored contract: the columns that must not be null are not. `origin` numbers the request
that made it, and is no column. -/
structure StoredContract where
  id : String
  userid : String
  createdAt : Int
  title : Option String
  clauses : Option (List (Option String))
  parties : Option (List (Option String))
  partiesNames : Option StringMap
  wish : Wish
  status : Status
  signatures : Option StringMap
  establisherType : Option EstablisherType
  establishementData : Option String
  origin : Nat

namespace StoredContract

/-- The contract as an entity. -/
def entity (x : StoredContract) : ContractEntity where
  id := some x.id
  userid := some x.userid
  createdAt := some x.createdAt
  title := x.title
  clauses := x.clauses
  parties := x.parties
  partiesNames := x.partiesNames
  wish := some x.wish
  status := some x.status
  signatures := x.signatures
  establisherType := x.establisherType
  establishementData := x.establishementData

/-- What the parties agree on. -/
def terms (x : StoredContract) :
    Option String × Option (List (Option String)) × Option (List (Option String)) :=
  (x.title, x.clauses, x.parties)

end StoredContract

/-- The table of contracts, with the number of requests that added to it. -/
structure ContractStore where
  copies : List StoredContract
  added : Nat

/-- The table before the first request. -/
def ContractStore.empty : ContractStore := { copies := [], added := 0 }

/-- What a request answers: a contract as JSON, which can be `null`, or whether it did something. -/
inductive ContractsAnswer where
  | contract (c : Option ContractEntity)
  | done (b : Bool)

namespace Contracts

section

variable (db : Comparison)

/-- `Users.get(id)`, read back: null for an id that finds no user. -/
def getUser (users : List User) (id : Option String) : Option User :=
  db.findOneById User.id users id

/-- The loop over the parties that finds their names. -/
def nicks (users : List User) : List (Option String) →
    Except JavaException (List (Option String × Option String))
  | [] => .ok []
  | id :: parties => do
      let u ← notNull (getUser db users id)
      return (id, u.nick) :: (← nicks users parties)

def partiesNames (users : List User) (parties : List (Option String)) :
    Except JavaException StringMap := do
  let entries ← nicks db users parties
  return { map := HashMap.ofEntries entries, nodup := HashMap.nodup_ofEntries entries }

/-! ## Adding -/

/-- The title that is stored: `==` compares the references, and `literal` tells whether the one of
the request is the empty literal. -/
def addTitle (title : Option String) (literal : Bool) : Option String :=
  if title = some "" ∧ literal then some "Secure Exchange Protocol Contract" else title

/-- The copy of the party `userid`. -/
def newCopy (contract : ContractEntity) (literal : Bool) (now : Int)
    (parties : List (Option String))
    (names : StringMap) (origin : Nat) (id userid : String) : StoredContract where
  id := id
  userid := userid
  createdAt := now
  title := addTitle contract.title literal
  clauses := contract.clauses
  parties := some parties
  partiesNames := some names
  wish := .neutral
  status := .nowhere
  signatures := none
  establisherType := none
  establishementData := none
  origin := origin

/-- The loop that makes the copies. The ids are drawn at random. -/
def newCopies (make : String → String → StoredContract) : List (Option String) → List String →
    Except JavaException (List StoredContract)
  | [], _ => .ok []
  | party :: parties, ids => do
      let userid ← notNull party
      return make (ids.headD "") userid :: (← newCopies make parties ids.tail)

/-- The contract that is answered: the last copy of the user, if it is a party. -/
def addAnswer (contract : ContractEntity) (currentUser : Option User)
    (copies : List StoredContract) : Except JavaException ContractEntity :=
  match copies with
  | [] => .ok contract
  | _ => do
      let user ← notNull currentUser
      return ((copies.reverse.find? fun c =>
        some c.userid == user.id).map StoredContract.entity).getD contract

/-- `add`, for the user that the token belongs to. -/
def add (s : ContractStore) (users : List User) (currentUser : Option User)
    (contract : ContractEntity) (literal : Bool) (now : Int) (ids : List String) :
    Except JavaException (ContractStore × ContractsAnswer) := do
  let parties ← notNull contract.parties
  let names ← partiesNames db users parties
  let copies ← newCopies (newCopy contract literal now parties names s.added) parties ids
  let answer ← addAnswer { contract with title := addTitle contract.title literal,
                                         createdAt := some now } currentUser
    copies
  return ({ copies := s.copies ++ copies, added := s.added + 1 }, .contract (some answer))

/-! ## Editing -/

/-- What an edit writes into a copy. -/
def edited (c : ContractEntity) (names : StringMap) (x : StoredContract) : StoredContract :=
  { x with clauses := c.clauses, parties := c.parties, title := c.title,
           partiesNames := some names }

/-- The copy is found: it is one of `findAllByAttribute("title", c.getTitle())`. -/
def Found (c : ContractEntity) (x : StoredContract) : Prop := db.holds x.title c.title = true

instance decidableFound (c : ContractEntity) (x : StoredContract) : Decidable (Found db c x) :=
  inferInstanceAs (Decidable (_ = _))

/-- The loop over the copies that were found; the others are left alone. -/
def editLoop (c : ContractEntity) (names : StringMap) : List StoredContract →
    Except JavaException (List StoredContract)
  | [] => .ok []
  | x :: rest =>
      if Found db c x then do
        let parties ← notNull x.parties
        let x' := if parties.contains c.userid ∧ x.wish = .neutral then edited c names x else x
        return x' :: (← editLoop c names rest)
      else do
        return x :: (← editLoop c names rest)

/-- The names of the parties that an edit brings. -/
def namesFor (users : List User) (c : ContractEntity) : Except JavaException StringMap :=
  match c.parties with
  | none => .ok {}
  | some parties => partiesNames db users parties

/-- `edit`. The token plays no role. -/
def edit (s : ContractStore) (users : List User) (c : ContractEntity) :
    Except JavaException (ContractStore × ContractsAnswer) := do
  let names ← namesFor db users c
  let copies ← editLoop db c names s.copies
  let found := copies.filter fun x => Found db c x
  return ({ s with copies },
    .contract ((found.reverse.find? fun x => some x.id == c.id).map StoredContract.entity))

/-! ## Signing and cancelling -/

/-- What the protocol that was started leaves of a copy: its status, its signatures and its data. -/
structure SignOutcome where
  status : Status
  signatures : StringMap
  data : String

/-- `findOneById`. -/
def findOneById (s : ContractStore) (id : String) : Option StoredContract :=
  db.findOneById (fun x => some x.id) s.copies (some id)

/-- Writes the copy with the id. -/
def write (s : ContractStore) (id : String) (f : StoredContract → StoredContract) : ContractStore :=
  { s with copies := s.copies.map fun x => if x.id = id then f x else x }

/-- `sign`, where the protocol ends with `outcome`. -/
def sign (s : ContractStore) (id : String) (outcome : Except JavaException SignOutcome) :
    Except JavaException (ContractStore × ContractsAnswer) := do
  let c ← notNull (findOneById db s id)
  if c.status = .nowhere then
    let o ← outcome
    let signed := fun x : StoredContract =>
      { x with wish := .accept, status := o.status, signatures := some o.signatures
               establisherType := some .sigma, establishementData := some o.data }
    return (write s c.id signed, .done true)
  else return (s, .done false)

def cancel (s : ContractStore) (id : String) :
    Except JavaException (ContractStore × ContractsAnswer) := do
  let c ← notNull (findOneById db s id)
  match c.status with
  | .nowhere =>
      return (write s c.id fun x => { x with wish := .refuse, status := .cancelled }, .done true)
  | .signing => return (write s c.id fun x => { x with wish := .refuse }, .done true)
  | _ => return (s, .done false)

end

end Contracts

/-! ## Runs -/

inductive ContractsRequest where
  | add (users : List User) (currentUser : Option User) (contract : ContractEntity)
      (literal : Bool) (now : Int) (ids : List String)
  | edit (users : List User) (c : ContractEntity)
  | sign (id : String) (outcome : Except JavaException Contracts.SignOutcome)
  | cancel (id : String)

namespace Contracts

def handle (db : Comparison) (s : ContractStore) :
    ContractsRequest → Except JavaException (ContractStore × ContractsAnswer)
  | .add users currentUser contract literal now ids =>
      add db s users currentUser contract literal now ids
  | .edit users c => edit db s users c
  | .sign id outcome => sign db s id outcome
  | .cancel id => cancel db s id

/-- A request that throws leaves the store as it was. -/
def requests (db : Comparison) (init : ContractStore) :
    Machine ContractStore ContractsRequest (Except JavaException ContractsAnswer) where
  init := init
  step s request :=
    match handle db s request with
    | .ok (s', answer) => (s', .ok answer)
    | .error e => (s, .error e)

end Contracts

end Sxp
