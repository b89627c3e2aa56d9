-- SUMMARY: Establishers of a contract: the step that each is in, what it makes of its inputs, and how all of them move.
import Sxp.Choice.NextStep

/-!
# Establishers

A `SigmaEstablisher` and the step it is in. The listener of the choosing step is never removed, so
it goes on handling messages when the signing step is the current one, and both work on the same
key of Trent.
-/

namespace Sxp

/-! ## Establishers -/

/-- The step that `start` is passed to. What follows when the key of Trent is changed while the
signing step uses it is not modelled; it does not happen. -/
inductive CurrentStep where
  | chooseTrent (contract : SigmaContract)
  | sign (e : Establisher)
  | replaced
deriving Repr, DecidableEq

structure SigmaEstablisher where
  choosing : ProtocolChooseTrent
  protocolStep : CurrentStep

/-- What can happen to it. A message of the choosing step comes with the randomness of the promises
that are made if the choice is over. -/
inductive SigmaInput where
  | start (coins : Nat → Nat)
  | notify (message : ChooseMessage) (senderId : Int) (coins : Nat → Nat)
  | returns
  | throws
  | cancel
  | sign (x : LocalInput)

/-- The user wants to sign. -/
def SigmaContract.MayStart (c : SigmaContract) : Prop :=
  c.status ≠ .cancelled ∧ c.status ≠ .finalized ∧ c.wish = .accept

instance (c : SigmaContract) : Decidable c.MayStart := inferInstanceAs (Decidable (_ ∧ _ ∧ _))

namespace CurrentStep

/-- `setTrent`. -/
def setTrent (step : CurrentStep) (trentK : Option ElGamalKey) : CurrentStep :=
  match step with
  | .chooseTrent contract => .chooseTrent (contract.setTrentKey trentK)
  | .sign e => if trentK = some e.trentKey then .sign e else .replaced
  | .replaced => .replaced

def setListenerOnTrent (tools : StepTools) (step : CurrentStep) (key trentKey : ElGamalKey)
    (coins : Nat → Nat) : CurrentStep :=
  match step with
  | .chooseTrent contract =>
      let e : Establisher := { key, trentKey, contract }
      .sign (e.setListenerOnTrent tools coins).1
  | .sign e => .sign (e.setListenerOnTrent tools coins).1
  | .replaced => .replaced

end CurrentStep

namespace SigmaEstablisher

variable (tools : StepTools)

/-- The choosing step moves, and the key of Trent with it. -/
def moveTo (p : SigmaEstablisher) (c : ProtocolChooseTrent) : SigmaEstablisher :=
  { choosing := c, protocolStep := p.protocolStep.setTrent c.trentKey }

def start (p : SigmaEstablisher) (coins : Nat → Nat) : SigmaEstablisher :=
  match p.protocolStep with
  | .chooseTrent contract => if contract.MayStart then p.moveTo p.choosing.sendMessage else p
  | .sign e => { p with protocolStep := .sign (e.start tools coins).1 }
  | .replaced => p

def notify (p : SigmaEstablisher) (message : ChooseMessage) (senderId : Int) (coins : Nat → Nat) :
    SigmaEstablisher :=
  let p' := p.moveTo (p.choosing.notify message senderId).1
  match p.choosing.nextStepKey message senderId with
  | some trentKey =>
      { p' with protocolStep := p'.protocolStep.setListenerOnTrent tools p.choosing.key
                  trentKey coins }
  | none => p'

/-- `Contracts.cancel` before the signing step; afterwards it is a wish. -/
def cancel (p : SigmaEstablisher) : SigmaEstablisher :=
  match p.protocolStep with
  | .chooseTrent contract =>
      if contract.status = .nowhere then
        { p with protocolStep := .chooseTrent
                   { contract with wish := .refuse, status := .cancelled } }
      else p
  | _ => p

/-- An input of the signing step. Before that step there is only the wish. -/
def handle (p : SigmaEstablisher) (x : LocalInput) : SigmaEstablisher :=
  match p.protocolStep, x with
  | .chooseTrent contract, .wish w =>
      { p with protocolStep := .chooseTrent { contract with wish := w } }
  | .sign e, x => { p with protocolStep := .sign (e.handle tools x) }
  | _, _ => p

def respond (p : SigmaEstablisher) : SigmaInput → SigmaEstablisher
  | .start coins => p.start tools coins
  | .notify message senderId coins => p.notify tools message senderId coins
  | .returns => p.moveTo p.choosing.resume
  | .throws => p.moveTo p.choosing.abandon
  | .cancel => p.cancel
  | .sign x => p.handle tools x

end SigmaEstablisher

/-! ## All parties -/

/-- The parties that choose Trent for one contract and then sign it. -/
structure Establishment extends TrentChoice where
  tools : StepTools
  clauses : List String
  wish : Nat → Wish

abbrev EstablishmentState := Nat → Option SigmaEstablisher

inductive EstablishmentEvent where
  | start (i : Nat) (coins : Nat → Nat)
  | deliver (i j n : Nat) (coins : Nat → Nat)
  | returns (i : Nat)
  | throws (i : Nat)
  | cancel (i : Nat)
  | sign (i : Nat) (x : LocalInput)

namespace Establishment

variable (S : Establishment)

def terms : ContractTerms := { parties := S.parties, clauses := S.clauses }

/-- The party an event is for, with its input, when the event is possible. -/
def input (st : EstablishmentState) : EstablishmentEvent → Option (Nat × SigmaInput)
  | .start i coins => some (i, .start coins)
  | .deliver i j n coins =>
      (st j).bind fun p => p.choosing.sent[n]?.map fun message =>
        (i, .notify message p.choosing.key.publicKey coins)
  | .returns i => some (i, .returns)
  | .throws i => some (i, .throws)
  | .cancel i => some (i, .cancel)
  | .sign i x => some (i, .sign x)

def step (st : EstablishmentState) (ev : EstablishmentEvent) : EstablishmentState :=
  match input st ev with
  | none => st
  | some (i, x) => Function.update st i ((st i).map (·.respond S.tools x))

def start : EstablishmentState := fun i =>
  (S.party i).map fun c =>
    { choosing := c, protocolStep := .chooseTrent { toContractTerms := S.terms, wish := S.wish i } }

def machine : Machine EstablishmentState EstablishmentEvent Unit where
  init := S.start
  step st ev := (S.step st ev, ())

/-- The event starts party `i`, whose user wants to sign. -/
def Accepts (st : EstablishmentState) (ev : EstablishmentEvent) (i : Nat) : Prop :=
  ∃ coins p contract, ev = .start i coins ∧ st i = some p ∧ p.protocolStep = .chooseTrent contract ∧
    contract.MayStart

end Establishment

/-! ## The choosing steps -/

namespace SigmaEstablisher

variable {tools : StepTools} {p : SigmaEstablisher}

@[simp] theorem moveTo_choosing (c : ProtocolChooseTrent) : (p.moveTo c).choosing = c := rfl

@[simp] theorem notify_choosing (message : ChooseMessage) (senderId : Int) (coins : Nat → Nat) :
    (p.notify tools message senderId coins).choosing = (p.choosing.notify message senderId).1 := by
  unfold SigmaEstablisher.notify
  dsimp only
  split <;> rfl

@[simp] theorem cancel_choosing : p.cancel.choosing = p.choosing := by
  unfold cancel
  split
  · split <;> rfl
  · rfl

@[simp] theorem handle_choosing (x : LocalInput) : (p.handle tools x).choosing = p.choosing := by
  unfold handle
  split <;> rfl

/-- Only a user that wants to sign makes the choosing step send its list. -/
theorem start_choosing (coins : Nat → Nat) :
    (p.start tools coins).choosing = p.choosing ∨
      ((p.start tools coins).choosing = p.choosing.sendMessage ∧
        ∃ contract, p.protocolStep = .chooseTrent contract ∧ contract.MayStart) := by
  unfold start
  split
  · rename_i contract heq
    split
    · rename_i hmay
      exact Or.inr ⟨rfl, contract, heq, hmay⟩
    · exact Or.inl rfl
  · exact Or.inl rfl
  · exact Or.inl rfl

end SigmaEstablisher

namespace Establishment

variable (S : Establishment) {st : EstablishmentState}

/-- The choosing steps of all parties. -/
def choices (st : EstablishmentState) : ChooseState := fun i => (st i).map (·.choosing)

theorem choices_start : choices S.start = S.party := by
  funext i
  rw [choices, start, Option.map_map]
  exact Option.map_id'

theorem choices_update (st : EstablishmentState) (i : Nat) (o : Option SigmaEstablisher) :
    choices (Function.update st i o) = Function.update (choices st) i (o.map (·.choosing)) := by
  funext j
  by_cases hj : j = i
  · simp [hj, choices]
  · simp [choices, Function.update_of_ne hj]

/-- An event is one of the choosing parties, or leaves their choosing steps alone. -/
theorem choices_step (st : EstablishmentState) (ev : EstablishmentEvent) :
    choices (S.step st ev) = choices st ∨
      ∃ ev', (∀ i, ev' = .start i → Accepts st ev i) ∧
        choices (S.step st ev) = TrentChoice.step (choices st) ev' := by
  have hsame : ∀ i (f : SigmaEstablisher → SigmaEstablisher), (∀ p, (f p).choosing = p.choosing) →
      choices (Function.update st i ((st i).map f)) = choices st := by
    intro i f hf
    have hmap : ((st i).map f).map (·.choosing) = choices st i := by
      simp only [Option.map_map, choices]
      exact congrArg (fun g => (st i).map g) (funext hf)
    rw [choices_update, hmap, Function.update_eq_self]
  have hmove : ∀ i (f : SigmaEstablisher → SigmaEstablisher)
      (g : ProtocolChooseTrent → ProtocolChooseTrent),
      (∀ p, st i = some p → (f p).choosing = g p.choosing) →
        choices (Function.update st i ((st i).map f)) =
          Function.update (choices st) i ((choices st i).map g) := by
    intro i f g hf
    rw [choices_update]
    cases hi : st i with
    | none => simp [choices, hi]
    | some p => simp [choices, hi, hf p hi]
  cases ev with
  | start i coins =>
      cases hi : st i with
      | none =>
          refine Or.inl (congrArg choices ?_)
          rw [show S.step st (.start i coins) =
            Function.update st i ((st i).map (·.respond S.tools (.start coins)))
            from rfl, hi, Option.map_none, ← hi, Function.update_eq_self]
      | some p =>
          rcases @SigmaEstablisher.start_choosing S.tools p coins with
            hkept | ⟨hsent, contract, hstep, hmay⟩
          · refine Or.inl ?_
            have hupdate := choices_update st i (some (p.start S.tools coins))
            rw [Option.map_some, hkept, show some p.choosing = choices st i by simp [choices, hi],
              Function.update_eq_self] at hupdate
            simpa [step, input, hi, SigmaEstablisher.respond] using hupdate
          · refine Or.inr ⟨.start i, ?_, ?_⟩
            · intro k hk
              cases hk
              exact ⟨coins, p, contract, rfl, hi, hstep, hmay⟩
            · refine hmove i (fun p => p.start S.tools coins) (·.sendMessage) fun q hq => ?_
              rw [hi, Option.some.injEq] at hq
              exact hq ▸ hsent
  | deliver i j n coins =>
      refine Or.inr ⟨.deliver i j n, (fun _ hk => by cases hk), ?_⟩
      cases hj : st j with
      | none => simp [step, input, TrentChoice.step, choices, hj]
      | some p =>
          cases hmessage : p.choosing.sent[n]? with
          | none => simp [step, input, TrentChoice.step, choices, hj, hmessage]
          | some message =>
              have hmoved := hmove i (fun q =>
                q.notify S.tools message p.choosing.key.publicKey coins)
                (fun c => (c.notify message p.choosing.key.publicKey).1) fun q _ =>
                  SigmaEstablisher.notify_choosing ..
              have hsender : choices st j = some p.choosing := by simp [choices, hj]
              simpa [step, input, hj, hmessage, SigmaEstablisher.respond, TrentChoice.step, hsender]
                using hmoved
  | returns i => exact Or.inr ⟨.returns i, (fun _ hk => by cases hk), hmove i _ _ fun _ _ => rfl⟩
  | throws i => exact Or.inr ⟨.throws i, (fun _ hk => by cases hk), hmove i _ _ fun _ _ => rfl⟩
  | cancel i => exact Or.inl (hsame i _ fun _ => SigmaEstablisher.cancel_choosing)
  | sign i x => exact Or.inl (hsame i _ fun _ => SigmaEstablisher.handle_choosing x)

end Establishment

/-! ## The current step -/

/-- The input as one of the signing step. -/
def SigmaInput.establisherEvent : SigmaInput → Option EstablisherEvent
  | .start coins => some (.start coins)
  | .sign x => some (.input x)
  | _ => none

theorem Establisher.life_exec (tools : StepTools) (e e' s : Establisher)
    (events : List EstablisherEvent) :
    (e.life tools).exec s events = (e'.life tools).exec s events := by
  induction events generalizing s with
  | nil => rfl
  | cons ev events ih => exact ih (s.respond tools ev)

namespace SigmaEstablisher

variable {tools : StepTools} {p : SigmaEstablisher} {terms : ContractTerms}

/-- The current step fits the choosing step: the signing step is there once the choice is over, and
the key of Trent is the one that was chosen. -/
def InStep (terms : ContractTerms) (p : SigmaEstablisher) : Prop :=
  match p.protocolStep with
  | .chooseTrent contract =>
      p.choosing.signing = false ∧ contract.getTrentKey = p.choosing.trentKey ∧
        contract.toContractTerms = terms
  | .sign e => p.choosing.signing = true ∧ p.choosing.trentKey = some e.trentKey
  | .replaced => False

/-- The establisher that the choosing step hands over to. -/
def handedOver (key trentKey : ElGamalKey) (contract : SigmaContract) : Establisher :=
  { key, trentKey, contract := contract.setTrentKey (some trentKey) }

theorem handedOver_trentKey (key trentKey : ElGamalKey) (contract : SigmaContract)
    (coins : Nat → Nat) :
    ((handedOver key trentKey contract).setListenerOnTrent tools coins).1.trentKey = trentKey :=
  ProtocolSign.sendMessage_trentKey tools _ coins

/-- A party that is signing goes on with its establisher, on the same key of Trent. -/
theorem respond_of_sign {known : List ElGamalKey} {heard : Nat → Int → Prop} {e : Establisher}
    (hsound : p.choosing.Sound known heard) (h : p.InStep terms) (hstep : p.protocolStep = .sign e)
    (x : SigmaInput) :
    (p.respond tools x).InStep terms ∧
      (p.respond tools x).protocolStep =
      .sign ((e.life tools).exec e x.establisherEvent.toList) := by
  rw [InStep, hstep] at h
  obtain ⟨hsigning, htrent⟩ := h
  -- the choosing step moves on its own account
  have hmove : ∀ c, c.signing = p.choosing.signing → c.trentKey = p.choosing.trentKey →
      (p.moveTo c).InStep terms ∧ (p.moveTo c).protocolStep = .sign e := by
    intro c hsame hkey
    have hkept : (p.moveTo c).protocolStep = .sign e := by
      simp only [moveTo, hstep, CurrentStep.setTrent]
      rw [hkey, if_pos htrent]
    rw [InStep, hkept]
    exact ⟨⟨hsame.trans hsigning, hkey.trans htrent⟩, rfl⟩
  -- the establisher responds
  have hrespond : ∀ ev q, q = { p with protocolStep := .sign (e.respond tools ev) } →
      q.InStep terms ∧ q.protocolStep = .sign (e.respond tools ev) := by
    rintro ev q rfl
    exact ⟨⟨hsigning, by rw [htrent, Establisher.respond_trentKey]⟩, rfl⟩
  cases x with
  | start coins =>
      exact hrespond (.start coins) _ (by simp [respond, start, hstep, Establisher.respond])
  | notify message senderId coins =>
      obtain ⟨hkey, hnext⟩ := (hsound.agreed hsigning).notify message senderId
      have hkept : (p.choosing.notify message senderId).1.signing = p.choosing.signing := by
        rw [hsigning]
        exact (ProtocolChooseTrent.notify_signing _ _ _).mpr (Or.inl hsigning)
      have heq : p.respond tools (.notify message senderId coins) =
          p.moveTo (p.choosing.notify message senderId).1 := by
        simp [respond, SigmaEstablisher.notify, hnext]
      rw [heq]
      exact hmove _ hkept hkey
  | returns =>
      exact hmove _ (ProtocolChooseTrent.resume_signing _) (hsound.resume_trentKey hsigning)
  | throws => exact hmove _ rfl rfl
  | cancel =>
      have heq : p.respond tools .cancel = p := by simp [respond, cancel, hstep]
      rw [heq]
      exact ⟨by rw [InStep, hstep]; exact ⟨hsigning, htrent⟩, hstep⟩
  | sign x => exact hrespond (.input x) _ (by simp [respond, handle, hstep, Establisher.respond])

/-- A party that is choosing goes on so, unless the message is the one that ends the choice. -/
theorem respond_of_chooseTrent {contract : SigmaContract} (h : p.InStep terms)
    (hstep : p.protocolStep = .chooseTrent contract) (x : SigmaInput) :
    (p.respond tools x).InStep terms ∧
      ((∃ contract', (p.respond tools x).protocolStep = .chooseTrent contract') ∨
        ∃ message senderId coins trentKey, x = .notify message senderId coins ∧
          p.choosing.nextStepKey message senderId = some trentKey ∧
          (p.respond tools x).protocolStep =
            .sign ((handedOver p.choosing.key trentKey contract).setListenerOnTrent tools
              coins).1) := by
  rw [InStep, hstep] at h
  obtain ⟨hsigning, htrent, hterms⟩ := h
  have hmove : ∀ c, c.signing = p.choosing.signing →
      (p.moveTo c).InStep terms ∧
      (p.moveTo c).protocolStep = .chooseTrent (contract.setTrentKey c.trentKey) := by
    intro c hsame
    have hkept : (p.moveTo c).protocolStep = .chooseTrent (contract.setTrentKey c.trentKey) := by
      simp only [moveTo, hstep, CurrentStep.setTrent]
    rw [InStep, hkept]
    exact ⟨⟨hsame.trans hsigning, rfl, hterms⟩, rfl⟩
  -- what the user does to the contract
  have huser : ∀ contract' q, contract'.toContractTerms = contract.toContractTerms →
      contract'.getTrentKey = contract.getTrentKey →
        q = { p with protocolStep := .chooseTrent contract' } →
        q.InStep terms ∧ q.protocolStep = .chooseTrent contract' := by
    rintro contract' q hterms' hkey rfl
    exact ⟨⟨hsigning, hkey.trans htrent, hterms'.trans hterms⟩, rfl⟩
  have hsame : p.InStep terms ∧ p.protocolStep = .chooseTrent contract :=
    huser contract p rfl rfl (by rw [← hstep])
  cases x with
  | start coins =>
      simp only [respond, start, hstep]
      split
      · obtain ⟨hin, hkept⟩ := hmove p.choosing.sendMessage rfl
        exact ⟨hin, Or.inl ⟨_, hkept⟩⟩
      · exact ⟨hsame.1, Or.inl ⟨_, hstep⟩⟩
  | notify message senderId coins =>
      cases hnext : p.choosing.nextStepKey message senderId with
      | none =>
          have heq : p.respond tools (.notify message senderId coins) =
              p.moveTo (p.choosing.notify message senderId).1 := by
            simp [respond, SigmaEstablisher.notify, hnext]
          have hkept : (p.choosing.notify message senderId).1.signing = p.choosing.signing := by
            rw [hsigning, Bool.eq_false_iff]
            intro hover
            rcases (ProtocolChooseTrent.notify_signing _ _ _).mp hover with hold | ⟨key, hkey⟩
            · rw [hsigning] at hold
              cases hold
            · rw [hnext] at hkey
              cases hkey
          obtain ⟨hin, hstay⟩ := hmove _ hkept
          rw [heq]
          exact ⟨hin, Or.inl ⟨_, hstay⟩⟩
      | some trentKey =>
          have hkey := ProtocolChooseTrent.nextStepKey_trentKey hnext
          have hover : (p.choosing.notify message senderId).1.signing = true :=
            (ProtocolChooseTrent.notify_signing _ _ _).mpr (Or.inr ⟨trentKey, hnext⟩)
          have heq : p.respond tools (.notify message senderId coins) =
              { choosing := (p.choosing.notify message senderId).1
                protocolStep :=
                  .sign ((handedOver p.choosing.key trentKey contract).setListenerOnTrent tools
                    coins).1 } := by
            simp only [respond, SigmaEstablisher.notify, hnext, moveTo, hstep,
              CurrentStep.setTrent, hkey, CurrentStep.setListenerOnTrent, handedOver]
          rw [heq]
          refine ⟨⟨hover, hkey.trans ?_⟩,
            Or.inr ⟨message, senderId, coins, trentKey, rfl, hnext, rfl⟩⟩
          rw [handedOver_trentKey]
  | returns =>
      obtain ⟨hin, hkept⟩ := hmove _ (ProtocolChooseTrent.resume_signing p.choosing)
      exact ⟨hin, Or.inl ⟨_, hkept⟩⟩
  | throws =>
      obtain ⟨hin, hkept⟩ := hmove p.choosing.abandon rfl
      exact ⟨hin, Or.inl ⟨_, hkept⟩⟩
  | cancel =>
      simp only [respond, cancel, hstep]
      split
      · obtain ⟨hin, hkept⟩ :=
          huser { contract with wish := .refuse, status := .cancelled } _ rfl rfl rfl
        exact ⟨hin, Or.inl ⟨_, hkept⟩⟩
      · exact ⟨hsame.1, Or.inl ⟨_, hstep⟩⟩
  | sign x =>
      cases x with
      | wish w =>
          simp only [respond, handle, hstep]
          obtain ⟨hin, hkept⟩ := huser { contract with wish := w } _ rfl rfl rfl
          exact ⟨hin, Or.inl ⟨_, hkept⟩⟩
      | deliver | advance | ask | trentMessage =>
          simp only [respond, handle, hstep]
          exact ⟨hsame.1, Or.inl ⟨contract, rfl⟩⟩

end SigmaEstablisher

end Sxp
