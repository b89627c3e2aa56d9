-- SUMMARY: Trent's handler of resolve requests: what it checks, which solver it hands a request to, and what it announces.
import Sxp.Protocol.Steps
import Sxp.Trent.SolverRuns

/-!
# Trent.resolve

Trent keeps one solver for each contract, under the contract's hashable data. A request
whose content cannot be decoded ends before anything below happens.
-/

namespace Sxp

/-- The title under which an answer of this kind is sent. -/
def AnswerKind.title : AnswerKind → String
  | .resolved => "resolved"
  | .aborted => "aborted"
  | .honestyToken => "honestyToken"

/-- The request as the solver gets it: the sender's id is a new string object. -/
def ResolveMessage.request (q : ResolveMessage) (senderPubK : Int) (ref : Nat)
    (nonces : Nat → Nat) (messageText : String) : Request where
  m := q.m
  round := q.round
  senderId := ⟨BigInteger.text senderPubK, ref⟩
  nonces := nonces
  messageText := messageText

/-- A message on Trent's listener, with the sender the transport names and the choices made
while it is handled. -/
structure ResolveCall where
  message : ResolveMessage
  senderPubK : Int
  ref : Nat := 0
  nonces : Nat → Nat := fun _ => 1
  messageText : String := ""
  coins : Nat := 0

namespace ResolveCall

def request (call : ResolveCall) : Request :=
  call.message.request call.senderPubK call.ref call.nonces call.messageText

end ResolveCall

namespace Trent

variable (trent : Trent)

/-! ## The checks -/

/-- The sender's key as the listener builds it. -/
def senderKey (senderPubK : Int) : ElGamalKey := { trent.getKey with publicKey := senderPubK }

/-- `verifiedOr && o.Verifies(data) && VerifiesRes(o, senPubK)`. -/
def checksOr (data : String) (senPubK : Int) (verifiedOr : Bool) (o : Option Or) :
    Except JavaException Bool := do
  if verifiedOr then
    match o with
    | none => .error .nullPointer
    | some o => if ← o.verifies trent.hash data then trent.verifiesRes o senPubK else return false
  else return false

/-- The check of the promises, which a request of round zero does not have. -/
def checksClaim (message : ResolveMessage) (senPubK : Int) : Except JavaException Bool :=
  if 0 < message.round then
    match trent.json.toOrs message.m with
    | none => .error .nullPointer
    | some orT =>
        orT.foldlM (trent.checksOr (message.contract.roundData message.round) senPubK) true
  else .ok true

def accepts (message : ResolveMessage) (senPubK : Int) : Except JavaException Bool := do
  let verifiedOr ← trent.checksClaim message senPubK
  let s : SigmaSigner :=
    { trentK := some trent.getKey, receiverK := some (trent.senderKey senPubK) }
  return (← s.verify trent.hash message.m message.signature) && verifiedOr

/-- An entry of the array that passes the checks. -/
def Passes (data : String) (senPubK : Int) (o : Option Or) : Prop :=
  ∃ o', o = some o' ∧ o'.verifies trent.hash data = .ok true ∧
    trent.verifiesRes o' senPubK = .ok true

theorem checksOr_eq_true {data : String} {senPubK : Int} {b : Bool} {o : Option Or} :
    trent.checksOr data senPubK b o = .ok true ↔ b = true ∧ trent.Passes data senPubK o := by
  cases b with
  | false => simp [checksOr, pure, Except.pure]
  | true =>
      cases o with
      | none => simp [checksOr, Passes]
      | some o =>
          simp only [checksOr, if_true, Except.bind_eq_ok, Except.ite_ok_true, Passes,
            Option.some.injEq, exists_eq_left', true_and]
          constructor
          · rintro ⟨b, hb, rfl, hres⟩
            exact ⟨hb, hres⟩
          · rintro ⟨hverifies, hres⟩
            exact ⟨true, hverifies, rfl, hres⟩

/-- The loop ends with `true` if it starts with it and every entry passes. -/
theorem checks_eq_true {data : String} {senPubK : Int} {orT : List (Option Or)} {b : Bool} :
    orT.foldlM (trent.checksOr data senPubK) b = .ok true ↔
      b = true ∧ ∀ o ∈ orT, trent.Passes data senPubK o := by
  induction orT generalizing b with
  | nil => simp [pure, Except.pure]
  | cons o orT ih =>
      rw [List.foldlM_cons, Except.bind_eq_ok, List.forall_mem_cons]
      constructor
      · rintro ⟨b', hb', hrest⟩
        obtain ⟨rfl, hall⟩ := ih.mp hrest
        obtain ⟨hb, hpasses⟩ := trent.checksOr_eq_true.mp hb'
        exact ⟨hb, hpasses, hall⟩
      · rintro ⟨hb, hpasses, hall⟩
        exact ⟨true, trent.checksOr_eq_true.mpr ⟨hb, hpasses⟩, ih.mpr ⟨rfl, hall⟩⟩

theorem accepts_eq_true {message : ResolveMessage} {senPubK : Int} :
    trent.accepts message senPubK = .ok true ↔
      (0 < message.round → ∃ orT, trent.json.toOrs message.m = some orT ∧
        ∀ o ∈ orT, trent.Passes (message.contract.roundData message.round) senPubK o) ∧
      SigmaSigner.verify trent.hash
        { trentK := some trent.getKey, receiverK := some (trent.senderKey senPubK) }
        message.m message.signature = .ok true := by
  have hclaim : trent.checksClaim message senPubK = .ok true ↔
      (0 < message.round → ∃ orT, trent.json.toOrs message.m = some orT ∧
        ∀ o ∈ orT, trent.Passes (message.contract.roundData message.round) senPubK o) := by
    unfold checksClaim
    split
    · rename_i hround
      cases trent.json.toOrs message.m with
      | none => simp [hround]
      | some orT => simp [hround, checks_eq_true]
    · rename_i hround
      simp [hround]
  rw [← hclaim]
  simp only [accepts, Except.bind_eq_ok, Except.pure_eq_ok, Bool.and_eq_true]
  constructor
  · rintro ⟨b, hb, b', hb', rfl, rfl⟩
    exact ⟨hb, hb'⟩
  · rintro ⟨hb, hb'⟩
    exact ⟨true, hb, true, hb', rfl, rfl⟩

/-! ## The handler -/

/-- What Trent sends to everybody after a request, with his signature for every party. -/
def broadcast (signAnswer : Nat → ElGamalKey → String → SigmaSignature) (c : ContractTerms)
    (coins : Nat) (sender : JString) : Outcome → Option TrentMessage
  | .error _ => none
  | .ok none => some (.dishonest sender.chars)
  | .ok (some a) =>
      let signatures := c.parties.foldl (fun (m : HashMap Int SigmaSignature) k =>
        m.put k.publicKey (signAnswer coins k a.token)) {}
      some (.answer a.kind.title a.token signatures)

/-- The solver for a contract, a new one if there is none. -/
def solverOf (solvers : HashMap String TrentSolver) (c : ContractTerms) : TrentSolver :=
  (solvers.get c.getHashableData).getD { contract := c }

def resolve (signAnswer : Nat → ElGamalKey → String → SigmaSignature)
    (solvers : HashMap String TrentSolver) (call : ResolveCall) :
    HashMap String TrentSolver × Except JavaException (Option TrentMessage) :=
  match trent.accepts call.message call.senderPubK with
  | .error e => (solvers, .error e)
  | .ok false => (solvers, .ok none)
  | .ok true =>
      let c := call.message.contract
      let r := (solverOf solvers c).resolveT trent call.request
      (solvers.put c.getHashableData r.1,
        r.2.map fun _ => broadcast signAnswer c call.coins call.request.senderId r.2)

/-- Trent as a machine that handles one message after the other. -/
def handler (signAnswer : Nat → ElGamalKey → String → SigmaSignature) :
    Machine (HashMap String TrentSolver) ResolveCall
      (Except JavaException (Option TrentMessage)) where
  init := {}
  step := trent.resolve signAnswer

/-! ## Every solver is a solver of its contract -/

/-- All solvers have come to their states by requests. -/
def Kept (solvers : HashMap String TrentSolver) : Prop :=
  ∀ id s, solvers.get id = some s →
    ∃ c : ContractTerms, c.getHashableData = id ∧ (TrentSolver.machine trent c).Reachable s

theorem Kept.solverOf {solvers : HashMap String TrentSolver} (h : trent.Kept solvers)
    (c : ContractTerms) : ∃ c' : ContractTerms, c'.getHashableData = c.getHashableData ∧
      (TrentSolver.machine trent c').Reachable (solverOf solvers c) := by
  cases hget : solvers.get c.getHashableData with
  | none =>
      refine ⟨c, rfl, ?_⟩
      rw [Trent.solverOf, hget]
      exact (TrentSolver.machine trent c).reachable_init
  | some s =>
      obtain ⟨c', hid, hreach⟩ := h _ s hget
      refine ⟨c', hid, ?_⟩
      rw [Trent.solverOf, hget]
      exact hreach

theorem Kept.resolve {solvers : HashMap String TrentSolver} (h : trent.Kept solvers)
    (signAnswer : Nat → ElGamalKey → String → SigmaSignature) (call : ResolveCall) :
    trent.Kept (trent.resolve signAnswer solvers call).1 := by
  unfold Trent.resolve
  split
  · exact h
  · exact h
  · intro id s hget
    simp only [HashMap.get_put] at hget
    split at hget
    · rename_i hid
      rw [Option.some.injEq] at hget
      obtain ⟨c, hc, hreach⟩ := h.solverOf trent call.message.contract
      -- a contract with the same data shares the solver, whoever named it first
      refine ⟨c, hc.trans (beq_iff_eq.mp hid).symm, ?_⟩
      rw [← hget]
      exact hreach.next call.request
    · exact h id s hget

/-- What holds of a solver after all sequences of requests holds of the kept ones. -/
theorem Kept.sound {solvers : HashMap String TrentSolver} (h : trent.Kept solvers) {id : String}
    {s : TrentSolver} (hget : solvers.get id = some s) : s.Sound := by
  obtain ⟨c, -, hreach⟩ := h id s hget
  have hsound : TrentSolver.SoundFor c s :=
    hreach.invariant (TrentSolver.soundFor_init trent c) fun _ req hs => hs.next req
  exact hsound.toSound

/-- After any messages, every solver is in a state that its requests lead to. -/
theorem kept_exec (signAnswer : Nat → ElGamalKey → String → SigmaSignature)
    (calls : List ResolveCall) :
    trent.Kept ((trent.handler signAnswer).exec (trent.handler signAnswer).init calls) :=
  (trent.handler signAnswer).exec_preserves (fun _ call h => h.resolve trent signAnswer call)
    (fun _ _ h => by cases h) calls

end Trent

end Sxp
