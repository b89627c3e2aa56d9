-- SUMMARY: What the network managers publish at the end of a transaction, against what the transaction committed.
import Sxp.Manager.SyncManager
import Sxp.Save.ContractsDecorator

/-!
# Network managers

The managers of items, messages and users publish the changes in the watch list before the end
of the transaction is known. The manager of contracts waits for it, and then reads a watch list
that the end has emptied.
-/

namespace Sxp

/-- How a call of a network manager's `end` went. -/
structure NetworkEnded (S E A : Type) where
  published : List (E × A)
  committed : List E
  result : Except JavaException Bool
  state : S

/-- What was published is what was committed. -/
def NetworkEnded.Exact {S E A : Type} (ended : NetworkEnded S E A) : Prop :=
  (ended.published.map Prod.fst).Perm ended.committed

namespace NetworkManager

variable {S E A : Type} (em : EntityManager S E) (validate : E → Bool)
  (advertisement : E → Except JavaException A)

/-- The loop that publishes; what an advertisement is made of can throw. -/
def publishAll : List E → List (E × A) × Except JavaException Unit
  | [] => ([], .ok ())
  | e :: rest =>
      match advertisement e with
      | .error x => ([], .error x)
      | .ok adv => ((e, adv) :: (publishAll rest).1, (publishAll rest).2)

/-- `end` as for items, messages and users: the changes are published first. -/
def publishAndEnd (s : S) : NetworkEnded S E A :=
  let (published, result) := publishAll advertisement (AbstractSyncManager.changesInWatchlist em s)
  match result with
  | .error x => { published, committed := [], result := .error x, state := s }
  | .ok _ =>
      let ended := AbstractSyncManager.end_ em validate s
      { published, committed := ended.committed, result := .ok ended.result, state := ended.state }

/-- `end` as for contracts: the watch list is published last. -/
def endAndPublish (s : S) : NetworkEnded S E A :=
  let ended := AbstractSyncManager.end_ em validate s
  if ended.result then
    let (published, result) :=
      publishAll advertisement (AbstractSyncManager.watchlist em ended.state)
    { published, committed := ended.committed, result := result.map fun _ => true,
      state := ended.state }
  else { published := [], committed := ended.committed, result := .ok false, state := ended.state }

end NetworkManager

structure ItemAdvertisement where
  title : Option String

structure MessageAdvertisement where
  senderId : Option String
  receiverId : Option String

structure UserAdvertisement where
  nick : Option String
  pbkey : String

structure EstablisherAdvertisement where
  title : Option String

namespace NetworkItemManagerDecorator

def end_ {S : Type} (em : EntityManager S Item) (validate : Item → Bool) (s : S) :
    NetworkEnded S Item ItemAdvertisement :=
  NetworkManager.publishAndEnd em validate (fun item => .ok { title := item.title }) s

end NetworkItemManagerDecorator

namespace NetworkMessageManagerDecorator

def end_ {S : Type} (em : EntityManager S Message) (validate : Message → Bool) (s : S) :
    NetworkEnded S Message MessageAdvertisement :=
  NetworkManager.publishAndEnd em validate (fun m =>
    .ok { senderId := m.senderId, receiverId := m.receiverId }) s

end NetworkMessageManagerDecorator

namespace NetworkUserManagerDecorator

/-- A user without a key has no advertisement. -/
def advertisement (u : User) : Except JavaException UserAdvertisement := do
  let key ← notNull u.keys
  return { nick := u.nick, pbkey := numberText key.publicKey }

def end_ {S : Type} (em : EntityManager S User) (validate : User → Bool) (s : S) :
    NetworkEnded S User UserAdvertisement :=
  NetworkManager.publishAndEnd em validate advertisement s

end NetworkUserManagerDecorator

namespace NetworkContractManagerDecorator

def end_ {S : Type} (em : EntityManager S ContractEntity)
    (validate : ContractEntity → Bool) (s : S) :
    NetworkEnded S ContractEntity EstablisherAdvertisement :=
  NetworkManager.endAndPublish em validate (fun c => .ok { title := c.id }) s

end NetworkContractManagerDecorator

/-! ## What is committed -/

namespace AbstractSyncManager

variable {S E : Type} {em : EntityManager S E} {validate : E → Bool} {s : S}

end AbstractSyncManager

/-! ## What is published -/

namespace NetworkManager

variable {S E A : Type} {em : EntityManager S E} {validate : E → Bool}
  {advertisement : E → Except JavaException A} {es : List E} {s : S}

end NetworkManager

namespace Sample

end Sample

namespace NetworkManager

end NetworkManager

end Sxp
