-- SUMMARY: One establisher: the signing step, the resolving step, and the messages they send and handle.
import Sxp.Contract.SigmaContract

/-!
# ProtocolSign and ProtocolResolve

The steps of one establisher, on the state they share. What the code encodes as JSON
and encrypts for a transport is passed as a value; the texts inside a message stay
texts. Listeners are left out: a message can be handled at any time, also after a
listener was removed, because the search listener of an advertisement is never removed.
-/

namespace Sxp

/-- The cryptography and the encodings of the steps. The number is the randomness used. -/
structure StepTools where
  hash : String → Int
  getPcs : Nat → (senderK trentK : ElGamalKey) → String → (receiverK : ElGamalKey) →
    Except JavaException Or
  getClearSignature : Nat → (senderK trentK : ElGamalKey) → String → (receiverK : ElGamalKey) →
    Except JavaException SigmaSignature
  sign : Nat → (senderK : ElGamalKey) → SigmaSigner → String → Except JavaException SigmaSignature
  encryptMsg : Nat → String → ElGamalKey → Except JavaException String
  decryptMsg : String → ElGamalKey → Except JavaException String
  getJson : Or → String
  getPrivateCS : String → Option Or
  signatureToJson : SigmaSignature → String
  signatureOfJson : String → Option SigmaSignature
  claimToJson : List (Option Or) → String
  signaturesOfJson : String → Option (List (Option SigmaSignature))

/-! ## Messages -/

/-- The content of a signing message: the number under `ROUND`, if it is one, and a text for
each receiver's public key. -/
structure SignMessage where
  round : Option Int
  entries : HashMap Int String
deriving Repr, DecidableEq

/-- The content of a resolve request as Trent reads it. -/
structure ResolveMessage where
  round : Int
  contract : ContractTerms
  m : String
  signature : SigmaSignature
deriving Repr, DecidableEq

/-- What Trent broadcasts: that a sender was dishonest, or an answer with his signature on
its token for each party. -/
inductive TrentMessage where
  | dishonest (sender : String)
  | answer (title token : String) (signatures : HashMap Int SigmaSignature)
deriving Repr, DecidableEq

/-- The data of a `SigmaEstablisher` and of its two steps, with what they have sent so far. -/
structure Establisher where
  key : ElGamalKey
  trentKey : ElGamalKey
  contract : SigmaContract
  resolver : SigmaSigner := {}
  round : Nat := 1
  roundReceived : List (List (Option Or)) := []
  sent : List SignMessage := []
  requests : List ResolveMessage := []
deriving Repr, DecidableEq

namespace Establisher

/-- The number of parties. -/
def N (e : Establisher) : Nat := e.contract.parties.length

def setStatus (e : Establisher) (s : Status) : Establisher :=
  { e with contract := e.contract.setStatus s }

def setWish (e : Establisher) (w : Wish) : Establisher :=
  { e with contract := { e.contract with wish := w } }

/-- `getRoundReceived()[round][k]`, null outside the array. -/
def stored (e : Establisher) (round k : Nat) : Option Or :=
  (e.roundReceived[round]?.bind fun row => row[k]?).join

/-- `getRoundReceived()[round][k] = o`. -/
def store (e : Establisher) (round k : Nat) (o : Or) : Establisher :=
  { e with roundReceived := e.roundReceived.modify round fun row => row.set k (some o) }

end Establisher

variable (tools : StepTools)

/-! ## Resolving -/

namespace ProtocolResolve

/-- The text of the claim: the promises of the round before, or `ABORT`. -/
def claim (e : Establisher) : String :=
  if e.round ≤ 1 then "ABORT"
  else tools.claimToJson (e.roundReceived[e.round - 1]?.getD [])

def sendMessage (e : Establisher) (coins : Nat) : Establisher × Except JavaException Unit :=
  let e := e.setStatus .resolving
  let e := { e with resolver := { e.resolver with receiverK := some e.trentKey } }
  match tools.sign coins e.key e.resolver (claim tools e) with
  | .error x => (e, .error x)
  | .ok signature =>
      let request : ResolveMessage :=
        { round := (e.round : Int) - 1
          contract := e.contract.toContractTerms
          m := claim tools e
          signature }
      ({ e with requests := e.requests ++ [request] }, .ok ())

/-- The three rounds a released signature may be made for. -/
def verifiesSome (e : Establisher) (s : SigmaSignature) : Except JavaException Bool :=
  [(e.round : Int), (e.round : Int) - 1, (e.round : Int) - 2].anyM fun round =>
    e.resolver.verify tools.hash (e.contract.roundData round) s

/-- The loop over released signatures, with the index of the one it looks at. -/
def addReleased : List (Option SigmaSignature) → Nat → Establisher →
    Establisher × Except JavaException Unit
  | [], _, e => (e, .ok ())
  | s :: rest, k, e =>
      match e.contract.parties[k]? with
      | none => (e, .error .indexOutOfBounds)
      | some party =>
          let e := { e with resolver := { e.resolver with receiverK := some party } }
          match s with
          | none => (e, .error .nullPointer)
          | some s =>
              match verifiesSome tools e s with
              | .error x => (e, .error x)
              | .ok false => addReleased rest (k + 1) e
              | .ok true =>
                  match e.contract.addSignature tools.hash party s with
                  | (contract, .error x) => ({ e with contract }, .error x)
                  | (contract, .ok ()) => addReleased rest (k + 1) { e with contract }

/-- The status after `isFinalized` was asked. -/
def finish (e : Establisher) : Establisher × Except JavaException Unit :=
  match e.contract.isFinalized tools.hash with
  | (contract, .error x) => ({ e with contract }, .error x)
  | (contract, .ok true) => ({ e with contract }.setStatus .finalized, .ok ())
  | (contract, .ok false) => ({ e with contract }, .ok ())

/-- The handler of Trent's broadcasts. -/
def notify (e : Establisher) (data : TrentMessage) (senderId : Int) :
    Establisher × Except JavaException Unit :=
  if senderId = e.trentKey.publicKey then
    match data with
    | .dishonest _ => (e, .ok ())
    | .answer title token signatures =>
        let e := { e with resolver := { e.resolver with trentK := some e.trentKey } }
        match signatures.get e.key.publicKey with
        | none => (e, .error .nullPointer)
        | some signature =>
            match e.resolver.verify tools.hash token signature with
            | .error x => (e, .error x)
            | .ok false => (e, .ok ())
            | .ok true =>
                if title = "aborted" ∨ title = "honestyToken" then (e.setStatus .cancelled, .ok ())
                else if title = "resolved" then
                  match tools.signaturesOfJson token with
                  | none => (e, .error .nullPointer)
                  | some sigSign =>
                      match addReleased tools sigSign 0 e with
                      | (e, .error x) => (e, .error x)
                      | (e, .ok ()) => finish tools e
                else (e, .ok ())
  else (e, .ok ())

end ProtocolResolve

/-! ## Signing -/

namespace ProtocolSign

/-- The loop of `sendMessage` over the receivers still to come: the clear signature in the
last round, a promise before. What the sender makes for itself it keeps. -/
def fillContent (coins : Nat → Nat) : List (ElGamalKey × Nat) → Establisher → HashMap Int String →
    Establisher × Except JavaException (HashMap Int String)
  | [], e, content => (e, .ok content)
  | (receiverK, k) :: rest, e, content =>
      let isSender := receiverK.publicKey == e.key.publicKey
      if e.round = e.N + 2 then
        match tools.getClearSignature (coins k) e.key e.trentKey e.contract.getHashableData
            receiverK with
        | .error x => (e, .error x)
        | .ok signature =>
            let content' := content.put receiverK.publicKey (tools.signatureToJson signature)
            if isSender then
              -- the sender adds its own signature to its contract as one of a party
              match e.contract.addSignature tools.hash receiverK signature with
              | (contract, .error x) => ({ e with contract }, .error x)
              | (contract, .ok ()) => fillContent coins rest { e with contract } content'
            else fillContent coins rest e content'
      else
        match tools.getPcs (coins k) e.key e.trentKey (e.contract.roundData e.round) receiverK with
        | .error x => (e, .error x)
        | .ok p =>
            match tools.encryptMsg (coins k) (tools.getJson p) receiverK with
            | .error x => (e, .error x)
            | .ok text =>
                fillContent coins rest (if isSender then e.store e.round k p else e)
                  (content.put receiverK.publicKey text)

def sendMessage (e : Establisher) (coins : Nat → Nat) : Establisher × Except JavaException Unit :=
  if e.contract.wish = .refuse then ProtocolResolve.sendMessage tools e (coins 0)
  else
    match fillContent tools coins e.contract.parties.zipIdx e {} with
    | (e, .error x) => (e, .error x)
    | (e, .ok content) =>
        if e.contract.parties.any fun k => k.publicKey == e.key.publicKey then
          ({ e with sent := e.sent ++ [{ round := some e.round, entries := content }] }, .ok ())
        else (e, .error .indexOutOfBounds)

/-- A clear signature of the party `senderKey`. -/
def storeSignature (e : Establisher) (senderKey : ElGamalKey) (signature : SigmaSignature) :
    Establisher × Except JavaException Unit :=
  let s : SigmaSigner := { trentK := some e.trentKey, receiverK := none }
  match s.verify tools.hash e.contract.getHashableData signature with
  | .error x => (e, .error x)
  | .ok false => (e, .ok ())
  | .ok true =>
      match e.contract.addSignature tools.hash senderKey signature with
      | (contract, .error x) => ({ e with contract }, .error x)
      | (contract, .ok ()) => ProtocolResolve.finish tools { e with contract }

/-- A promise for round `k` by the party of index `i`. -/
def storePromise (e : Establisher) (k i : Nat) (text : String) :
    Establisher × Except JavaException Unit :=
  match tools.decryptMsg text e.key with
  | .error x => (e, .error x)
  | .ok msg =>
      match tools.getPrivateCS msg with
      | none => (e, .error .nullPointer)
      | some pcs =>
          match pcs.verifies tools.hash (e.contract.roundData k) with
          | .error x => (e, .error x)
          | .ok true => (e.store k i pcs, .ok ())
          | .ok false => (e, .ok ())

/-- `roundReceived[k][i]` where `k` comes from a message. -/
def receivedAt (e : Establisher) (k : Int) (i : Nat) : Except JavaException (Option Or) :=
  if k < 0 then .error .indexOutOfBounds
  else
    match e.roundReceived[k.toNat]? with
    | none => .error .indexOutOfBounds
    | some _ => .ok (e.stored k.toNat i)

def verifyAndStoreSignature (e : Establisher) (message : SignMessage) (pubK : Int) :
    Establisher × Except JavaException Unit :=
  match e.contract.parties.findIdx? fun k => k.publicKey == pubK with
  -- the loop that looks for the sender runs off the list
  | none => (e, .error .indexOutOfBounds)
  | some i =>
      match e.contract.parties[i]?, message.round with
      | none, _ => (e, .error .indexOutOfBounds)
      | _, none => (e, .error (.numberFormat "ROUND"))
      | some senderKey, some k =>
          if senderKey.publicKey = e.key.publicKey then (e, .ok ())
          else if k = (e.N : Int) + 2 then
            match message.entries.get e.key.publicKey with
            | none => (e, .error .nullPointer)
            | some text =>
                match tools.signatureOfJson text with
                | none => (e, .ok ())
                | some signature => storeSignature tools e senderKey signature
          else
            match receivedAt e k i with
            | .error x => (e, .error x)
            -- a promise that is there is not replaced
            | .ok (some _) => (e, .ok ())
            | .ok none =>
                match message.entries.get e.key.publicKey with
                | none => (e, .error .nullPointer)
                | some text => storePromise tools e k.toNat i text

/-- The round is complete: every party's promise for it is there. -/
def claimFormed (e : Establisher) : Bool :=
  (List.range e.N).all fun k => !(decide (e.round < e.N + 2) && (e.stored e.round k).isNone)

/-- The condition of the loop in the handler. -/
def CanAdvance (e : Establisher) : Prop :=
  e.round ≤ e.N + 1 ∧ claimFormed e = true ∧ e.contract.status = .signing

instance (e : Establisher) : Decidable (CanAdvance e) :=
  inferInstanceAs (Decidable (_ ∧ _ ∧ _))

/-- One iteration of the loop: `round++` and `sendMessage()`. -/
def advance (e : Establisher) (coins : Nat → Nat) : Establisher × Except JavaException Unit :=
  sendMessage tools { e with round := e.round + 1 } coins

/-- The loop of the handler, with the number of iterations that is enough for it. -/
def advanceLoop (coins : Nat → Nat → Nat) : Nat → Establisher →
    Establisher × Except JavaException Unit
  | 0, e => (e, .ok ())
  | n + 1, e =>
      if CanAdvance e then
        match advance tools e (coins n) with
        | (e, .error x) => (e, .error x)
        | (e, .ok ()) => advanceLoop coins n e
      else (e, .ok ())

/-- The handler of signing messages. -/
def notify (e : Establisher) (message : SignMessage) (senderId : Int) (coins : Nat → Nat → Nat) :
    Establisher × Except JavaException Unit :=
  match verifyAndStoreSignature tools e message senderId with
  | (e, .error x) => (e, .error x)
  | (e, .ok ()) => advanceLoop tools coins (e.N + 2 - e.round) e

end ProtocolSign

namespace Establisher

/-- `setListenerOnTrent`, called once Trent is chosen: both steps are created and the first
promises are sent. -/
def setListenerOnTrent (e : Establisher) (coins : Nat → Nat) :
    Establisher × Except JavaException Unit :=
  ProtocolSign.sendMessage tools
    { e.setStatus .signing with
      resolver := { trentK := some e.trentKey, receiverK := none }
      round := 1
      roundReceived := List.replicate (e.N + 2) (List.replicate e.N none) } coins

end Establisher

end Sxp
