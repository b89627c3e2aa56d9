-- SUMMARY: The solver of one contract: its claim lists, the three cheater tests, and the answer to a resolve request.
import Sxp.Base.Machine
import Sxp.Contract.SigmaContract
import Sxp.Sigma.Trent

/-!
# TrentSolver

`resolveT` as the code runs it, with the exceptions it lets through. A round is an
`int` of the message; the sums `round + 1` of the code do not overflow, since a round
that is larger than the list by more than one ends the first loop with an exception.
-/

namespace Sxp

/-- A call of `resolveT`, with the random exponents and the text of the array object that
`resolveToken` uses in case the claim is resolved. -/
structure Request where
  m : String
  round : Int
  senderId : JString
  nonces : Nat → Nat := fun _ => 1
  messageText : String := ""

inductive AnswerKind where
  | resolved
  | aborted
  | honestyToken
deriving Repr, DecidableEq

structure Answer where
  kind : AnswerKind
  token : String
deriving Repr, DecidableEq

/-- What a call ends with: an answer, the null of a dishonest sender, or an exception. -/
abbrev Outcome := Except JavaException (Option Answer)

/-- The kind of an answer, if there is one. -/
def kindOf : Outcome → Option AnswerKind
  | .ok (some a) => some a.kind
  | _ => none

structure TrentSolver where
  contract : ContractTerms
  optimistic : Bool := true
  possiblyHonestClaims : List (HashMap JString String) := []
  dishonestClaims : HashMap JString (Option String × Option String) := {}
deriving Repr, DecidableEq

namespace TrentSolver

variable (trent : Trent)

/-! ## Tokens -/

/-- `honestyToken`: the JSON pair of both claim stores. -/
def honestyToken (s : TrentSolver) : String :=
  trent.json.tokenToJson
    [trent.json.claimsToJson s.possiblyHonestClaims, trent.json.dishonestToJson s.dishonestClaims]

/-- `orT[k]` where the element is dereferenced. -/
def orAt (orT : Option (List (Option Or))) (k : Nat) : Except JavaException Or :=
  match orT with
  | none => .error .nullPointer
  | some ors =>
      match ors[k]? with
      | none => .error .indexOutOfBounds
      | some none => .error .nullPointer
      | some (some o) => .ok o

/-- One iteration of the loop in `resolveToken`. -/
def releasedSignature (req : Request) (orT : Option (List (Option Or))) (k : Nat) :
    Except JavaException SigmaSignature := do
  let o ← orAt orT k
  let clause ← o.firstClause
  let response ← trent.sendResponse (req.nonces k) req.messageText clause.resEncrypt
  return { pcs := o, rpcs := response, trentK := trent.getKey }

/-- `resolveToken`: the full set of signatures. -/
def resolveToken (s : TrentSolver) (req : Request) : Except JavaException String := do
  let orT := trent.json.toOrs req.m
  let signatures ← (List.range s.contract.parties.length).mapM (releasedSignature trent req orT)
  return trent.json.signaturesToJson signatures

/-! ## Cheater tests -/

/-- The first key of a map that is not the same object as `senderId`. -/
def otherKey (claims : HashMap JString String) (senderId : JString) : Option JString :=
  claims.keySet.find? fun s => !s.same senderId

/-- The loop "j was dishonest and i shows it", over the slots still to come: a slot that
does not exist ends it with an exception. -/
def earlierClaim (s : TrentSolver) (senderId : JString) :
    List Nat → Except JavaException (Option (Nat × JString))
  | [] => .ok none
  | k :: ks =>
      match s.possiblyHonestClaims[k]? with
      | none => .error .indexOutOfBounds
      | some claims =>
          match otherKey claims senderId with
          -- the code returns from inside the loop
          | some j => .ok (some (k, j))
          | none => earlierClaim s senderId ks

/-- `possiblyHonestClaims.indexOf(claim)`: the first slot with an equal map. -/
def indexOf (s : TrentSolver) (claim : HashMap JString String) : Nat :=
  s.possiblyHonestClaims.findIdx fun claims => claim.equals claims

/-- The loop "i was dishonest and i shows it", over the slots still to come. -/
def ownClaim (s : TrentSolver) (req : Request) :
    List (HashMap JString String) → Option (Nat × String)
  | [] => none
  | claim :: rest =>
      match claim.get req.senderId with
      | none => ownClaim s req rest
      | some m => if (s.indexOf claim : Int) = req.round then ownClaim s req rest
          else some (s.indexOf claim, m)

/-- The loop "i was dishonest and j shows it", over the slots still to come: a slot that
does not exist is skipped. -/
def laterClaim (s : TrentSolver) (req : Request) : List Nat → Option (Nat × JString)
  | [] => none
  | k :: ks =>
      if req.round < k then
        match s.possiblyHonestClaims[k]? with
        | none => laterClaim s req ks
        | some claims =>
            match otherKey claims req.senderId with
            | some j => some (k, j)
            | none => laterClaim s req ks
      else laterClaim s req ks

/-! ## Resolving -/

/-- `claims.get(j)` in slot `k`. -/
def claimAt (s : TrentSolver) (k : Nat) (j : JString) : Option String :=
  s.possiblyHonestClaims[k]?.bind fun claims => claims.get j

/-- `dishonestClaims.put(party, proof)` and the removal of `party` from slot `k`. -/
def condemn (s : TrentSolver) (k : Nat) (party : JString) (proof : Option String × Option String) :
    TrentSolver :=
  { s with
    dishonestClaims := s.dishonestClaims.put party proof
    possiblyHonestClaims := s.possiblyHonestClaims.modify k fun claims => claims.remove party }

/-- `possiblyHonestClaims.add(k, h)` with the claim in a map of its own. -/
def keepClaim (s : TrentSolver) (k : Nat) (req : Request) : TrentSolver :=
  { s with
    possiblyHonestClaims := s.possiblyHonestClaims.insertIdx k
      (HashMap.singleton req.senderId req.m) }

def resolveT (s : TrentSolver) (req : Request) : TrentSolver × Outcome :=
  match s.earlierClaim req.senderId (List.range (req.round - 1).toNat) with
  | .error e => (s, .error e)
  | .ok (some (k, j)) =>
      let s' := s.condemn k j (s.claimAt k j, some req.m)
      (s', .ok (some ⟨.honestyToken, s'.honestyToken trent⟩))
  | .ok none =>
      match s.ownClaim req s.possiblyHonestClaims with
      | some (k, m) => (s.condemn k req.senderId (some req.m, some m), .ok none)
      | none =>
          match s.laterClaim req (List.range s.contract.parties.length) with
          | some (k, j) => (s.condemn k req.senderId (some req.m, s.claimAt k j), .ok none)
          | none =>
              -- the flag is set before the token is made: it stays set when that throws
              if (s.possiblyHonestClaims.isEmpty && decide (0 < req.round)) || !s.optimistic then
                ({ s with optimistic := false },
                  (s.resolveToken trent req).map fun token => some ⟨.resolved, token⟩)
              -- `add(round, h)` shifts the tail of the list, and throws for any other index
              else if 0 ≤ req.round ∧ req.round ≤ s.possiblyHonestClaims.length then
                let s' := s.keepClaim req.round.toNat req
                (s', .ok (some ⟨.aborted, s'.honestyToken trent⟩))
              else (s, .error .indexOutOfBounds)

/-- The solver of a contract as a machine that answers one request after the other. -/
def machine (c : ContractTerms) : Machine TrentSolver Request Outcome where
  init := { contract := c }
  step := resolveT trent

end TrentSolver

end Sxp
