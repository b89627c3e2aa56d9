-- SUMMARY: From choosing Trent to signing over all runs: one hand-over, one key of Trent, and everybody's consent.
import Sxp.Choice.Establisher

/-!
# From choosing Trent to signing

Every party is in its choosing step, or one message has handed it over to the signing step, which
is since then where its own later inputs take it. These are any inputs, in any order.
-/

namespace Sxp

/-! ## Runs -/

namespace Establishment

variable (S : Establishment) {st : EstablishmentState}
  {h : List (EstablishmentState × EstablishmentEvent)}

/-- What an event is for the signing step of party `i`. -/
def ownEvent (i : Nat) : EstablishmentEvent → Option EstablisherEvent
  | .start k coins => if k = i then some (.start coins) else none
  | .sign k x => if k = i then some (.input x) else none
  | _ => none

theorem establisherEvent_of_input {ev : EstablishmentEvent} {i : Nat} {x : SigmaInput}
    (h : input st ev = some (i, x)) : x.establisherEvent = ownEvent i ev := by
  cases ev with
  | start k coins =>
      cases h
      simp [SigmaInput.establisherEvent, ownEvent]
  | deliver k j n coins =>
      simp only [input, Option.bind_eq_some_iff, Option.map_eq_some_iff] at h
      obtain ⟨p, -, message, -, heq⟩ := h
      cases heq
      rfl
  | returns k =>
      cases h
      rfl
  | throws k =>
      cases h
      rfl
  | cancel k =>
      cases h
      rfl
  | sign k y =>
      cases h
      simp [SigmaInput.establisherEvent, ownEvent]

theorem ownEvent_eq_none {ev : EstablishmentEvent} {i : Nat} (h : ∀ x, input st ev ≠ some (i, x)) :
    ownEvent i ev = none := by
  cases ev with
  | start k coins =>
      have hk : k ≠ i := fun hk => h (.start coins) (by rw [hk]; rfl)
      exact if_neg hk
  | sign k x =>
      have hk : k ≠ i := fun hk => h (.sign x) (by rw [hk]; rfl)
      exact if_neg hk
  | deliver | returns | throws | cancel => rfl

/-- A party keeps its state, or responds to the input that the event is for it. -/
theorem step_at (st : EstablishmentState) (ev : EstablishmentEvent) (i : Nat) :
    (S.step st ev i = st i ∧ ownEvent i ev = none) ∨
      ∃ x, input st ev = some (i, x) ∧ S.step st ev i = (st i).map (·.respond S.tools x) := by
  by_cases hown : ∃ x, input st ev = some (i, x)
  · obtain ⟨x, hinput⟩ := hown
    refine Or.inr ⟨x, hinput, ?_⟩
    simp only [step, hinput]
    exact Function.update_self ..
  · have hother : ∀ x, input st ev ≠ some (i, x) := fun x hx => hown ⟨x, hx⟩
    refine Or.inl ⟨?_, ownEvent_eq_none hother⟩
    unfold step
    cases hinput : input st ev with
    | none => rfl
    | some kx =>
        have hk : i ≠ kx.1 := fun hk => hother kx.2 (by rw [hinput, hk])
        exact Function.update_of_ne hk ..

/-- Party `i` was started in the run so far, by a user that wanted to sign. -/
def Accepted (h : List (EstablishmentState × EstablishmentEvent)) (i : Nat) : Prop :=
  ∃ t ∈ h, Accepts t.1 t.2 i

structure Invariant (h : List (EstablishmentState × EstablishmentEvent))
    (st : EstablishmentState) : Prop where
  choice : S.toTrentChoice.Invariant (choices st)
  willing : S.toTrentChoice.Willing (Accepted h) (choices st)
  inStep : ∀ i p, st i = some p → p.InStep S.terms

variable {S}

theorem Invariant.sound (hinv : S.Invariant h st) {i : Nat} {p : SigmaEstablisher}
    (hp : st i = some p) : p.choosing.Sound (S.known i) (TrentChoice.Heard (choices st)) :=
  hinv.choice.sound i p.choosing (by simp [choices, hp])

theorem InStep.respond {S : Establishment} {p : SigmaEstablisher} {known : List ElGamalKey}
    {heard : Nat → Int → Prop} (hsound : p.choosing.Sound known heard) (hin : p.InStep S.terms)
    (x : SigmaInput) : (p.respond S.tools x).InStep S.terms := by
  cases hstep : p.protocolStep with
  | chooseTrent contract => exact (SigmaEstablisher.respond_of_chooseTrent hin hstep x).1
  | sign e => exact (SigmaEstablisher.respond_of_sign hsound hin hstep x).1
  | replaced =>
      rw [SigmaEstablisher.InStep, hstep] at hin
      exact hin.elim

theorem invariant_start (S : Establishment) : S.Invariant [] S.start where
  choice := by
    rw [choices_start]
    exact TrentChoice.invariant_party _
  willing := by
    rw [choices_start]
    exact TrentChoice.willing_party _ _
  inStep i p hp := by
    obtain ⟨c, hc, rfl⟩ := Option.map_eq_some_iff.mp hp
    obtain ⟨key, -, rfl⟩ := Option.map_eq_some_iff.mp hc
    exact ⟨rfl, rfl, rfl⟩

theorem Invariant.step (hinv : S.Invariant h st) (ev : EstablishmentEvent) :
    S.Invariant (h ++ [(st, ev)]) (S.step st ev) := by
  have hmore : ∀ i, Accepted h i → Accepted (h ++ [(st, ev)]) i := by
    rintro i ⟨t, ht, hi⟩
    exact ⟨t, List.mem_append_left _ ht, hi⟩
  have hwilling := hinv.willing.mono hmore
  constructor
  · rcases S.choices_step st ev with hsame | ⟨ev', -, hstep⟩
    · rw [hsame]
      exact hinv.choice
    · rw [hstep]
      exact hinv.choice.step ev'
  · rcases S.choices_step st ev with hsame | ⟨ev', hstart, hstep⟩
    · rw [hsame]
      exact hwilling
    · rw [hstep]
      refine hwilling.step hinv.choice ev' fun i hi => ?_
      exact ⟨(st, ev), List.mem_append_right _ List.mem_cons_self, hstart i hi⟩
  · intro i p hp
    rcases S.step_at st ev i with ⟨hsame, -⟩ | ⟨x, -, hstep⟩
    · exact hinv.inStep i p (hsame ▸ hp)
    · rw [hstep] at hp
      obtain ⟨q, hq, rfl⟩ := Option.map_eq_some_iff.mp hp
      exact InStep.respond (hinv.sound hq) (hinv.inStep i q hq) x

theorem invariant_exec (S : Establishment) (events : List EstablishmentEvent) :
    S.Invariant (S.machine.trace S.machine.init events) (S.machine.exec S.machine.init events) :=
  S.machine.exec_records (fun _ _ ev hinv => hinv.step ev) S.invariant_start events

/-! ## The hand-over -/

/-- Party `i` is choosing. -/
def Chooses (i : Nat) (st : EstablishmentState) : Prop :=
  ∃ p contract, st i = some p ∧ p.protocolStep = .chooseTrent contract

/-- Party `i` is signing, with the establisher `e`. -/
def Signs (i : Nat) (st : EstablishmentState) (e : Establisher) : Prop :=
  ∃ p, st i = some p ∧ p.protocolStep = .sign e

theorem Signs.unique {i : Nat} {e e' : Establisher} (h : Signs i st e) (h' : Signs i st e') :
    e = e' := by
  obtain ⟨p, hp, hstep⟩ := h
  obtain ⟨p', hp', hstep'⟩ := h'
  rw [hp, Option.some.injEq] at hp'
  rw [← hp', hstep, CurrentStep.sign.injEq] at hstep'
  exact hstep'

theorem not_signs_of_chooses {i : Nat} {e : Establisher} (h : Chooses i st) : ¬ Signs i st e := by
  obtain ⟨p, contract, hp, hstep⟩ := h
  rintro ⟨p', hp', hstep'⟩
  rw [hp, Option.some.injEq] at hp'
  rw [← hp', hstep] at hstep'
  cases hstep'

theorem Invariant.chooses (hinv : S.Invariant h st) {i : Nat} {p : SigmaEstablisher}
    {contract : SigmaContract} (hp : st i = some p) (hstep : p.protocolStep = .chooseTrent contract)
    (ev : EstablishmentEvent) :
    Chooses i (S.step st ev) ∨ ∃ j n coins trentKey, ev = .deliver i j n coins ∧
      Signs i (S.step st ev)
        ((SigmaEstablisher.handedOver p.choosing.key trentKey contract).setListenerOnTrent S.tools
          coins).1 := by
  rcases S.step_at st ev i with ⟨hsame, -⟩ | ⟨x, hinput, hnext⟩
  · exact Or.inl ⟨p, contract, hsame.trans hp, hstep⟩
  · rw [hp, Option.map_some] at hnext
    rcases (SigmaEstablisher.respond_of_chooseTrent (hinv.inStep i p hp) hstep x).2 with
      ⟨contract', hstay⟩ | ⟨message, senderId, coins, trentKey, rfl, -, hsign⟩
    · exact Or.inl ⟨_, contract', hnext, hstay⟩
    · cases ev with
      | deliver k j n coins' =>
          simp only [input, Option.bind_eq_some_iff, Option.map_eq_some_iff] at hinput
          obtain ⟨d, -, message', -, heq⟩ := hinput
          cases heq
          exact Or.inr ⟨j, n, coins, trentKey, rfl, _, hnext, hsign⟩
      | start | returns | throws | cancel | sign => cases hinput

theorem Invariant.signs (hinv : S.Invariant h st) {i : Nat} {e : Establisher}
    (hsigns : Signs i st e) (e' : Establisher) (ev : EstablishmentEvent) :
    Signs i (S.step st ev) ((e'.life S.tools).exec e (ownEvent i ev).toList) := by
  obtain ⟨p, hp, hstep⟩ := hsigns
  rcases S.step_at st ev i with ⟨hsame, hown⟩ | ⟨x, hinput, hnext⟩
  · rw [hown]
    exact ⟨p, hsame.trans hp, hstep⟩
  · rw [hp, Option.map_some] at hnext
    have hsign := (@SigmaEstablisher.respond_of_sign S.tools p S.terms _ _ e (hinv.sound hp)
      (hinv.inStep i p hp) hstep x).2
    rw [← establisherEvent_of_input hinput, Establisher.life_exec S.tools e' e]
    exact ⟨_, hnext, hsign⟩

/-- In every run a party is still choosing Trent, or there is one message that has ended the choice
for it. The establisher that the signing step was created for then has done since what it does on
the party's own inputs alone: nothing that the choosing step still handles concerns it. -/
theorem run_hands_over (S : Establishment) (events : List EstablishmentEvent) {i : Nat}
    (hi : i < S.parties.length) :
    Chooses i (S.machine.exec S.machine.init events) ∨
      ∃ before j n coins after p contract trentKey,
        events = before ++ .deliver i j n coins :: after ∧
        S.machine.exec S.machine.init before i = some p ∧ p.protocolStep = .chooseTrent contract ∧
        S.parties[i]? = some p.choosing.key ∧ contract.toContractTerms = S.terms ∧
        let e := SigmaEstablisher.handedOver p.choosing.key trentKey contract
        Signs i (S.machine.exec S.machine.init events)
          ((e.life S.tools).exec (e.setListenerOnTrent S.tools coins).1
            (after.filterMap (ownEvent i))) := by
  have hstart : Chooses i S.machine.init := by
    have hparty : S.start i = some _ :=
      congrArg (Option.map _) (congrArg (Option.map _) (List.getElem?_eq_getElem hi))
    exact ⟨_, _, hparty, rfl⟩
  have hinvariant : ∀ t ∈ S.machine.trace S.machine.init events, ∃ h, S.Invariant h t.1 :=
    S.machine.trace_forall_of_step (Q := fun st _ => ∃ h, S.Invariant h st)
      (fun st ev ⟨h, hinv⟩ => ⟨_, hinv.step ev⟩) (fun _ _ hinv => hinv) ⟨_,
        S.invariant_start⟩ events
  -- any establisher will do to name the machine
  let e₀ := SigmaEstablisher.handedOver S.parties[i] S.parties[i] { toContractTerms := S.terms }
  have hbefore : ∀ st ev, Chooses i st → (∃ h, S.Invariant h st) →
      Chooses i (S.machine.next st ev) ∨ ∃ e, Signs i (S.machine.next st ev) e := by
    rintro st ev ⟨p, contract, hp, hstep⟩ ⟨h, hinv⟩
    rcases hinv.chooses hp hstep ev with hstill | ⟨j, n, coins, trentKey, -, hover⟩
    · exact Or.inl hstill
    · exact Or.inr ⟨_, hover⟩
  have hafter : ∀ st e ev, Signs i st e → (∃ h, S.Invariant h st) →
      Signs i (S.machine.next st ev) ((e₀.life S.tools).exec e (ownEvent i ev).toList) := by
    rintro st e ev hsigns ⟨h, hinv⟩
    exact hinv.signs hsigns e₀ ev
  rcases Machine.exec_hands_over hbefore hafter hstart hinvariant with
    hstill | ⟨before, ev, after, s', rfl, ⟨p, contract, hp, hstep⟩, hsigns, hrun⟩
  · exact Or.inl hstill
  · have hinv := S.invariant_exec before
    have hin := hinv.inStep i p hp
    rw [SigmaEstablisher.InStep, hstep] at hin
    have hc : choices (S.machine.exec S.machine.init before) i = some p.choosing := by
      simp [choices, hp]
    rw [S.machine.exec_append] at hsigns
    rcases hinv.chooses hp hstep ev with hstill | ⟨j, n, coins, trentKey, rfl, hover⟩
    · exact absurd hsigns (not_signs_of_chooses hstill)
    · have hsame := Signs.unique hsigns hover
      subst hsame
      refine Or.inr ⟨before, j, n, coins, after, p, contract, trentKey, rfl, hp, hstep,
        (hinv.choice.placed i _ hc).key, hin.2.2, ?_⟩
      dsimp only
      rwa [Establisher.life_exec S.tools _ e₀]

/-! ## What the run before the signing step leaves -/

/-- Whatever the messages, their order, repetitions and losses, and whatever is done to the parties
that sign already: nobody gets to the signing step before the user of every party has started it
while wanting to sign, and any two parties in the signing step have the same public key of Trent,
that of a user every party knew and of no signer. -/
theorem signers_agreed (S : Establishment) (events : List EstablishmentEvent) {i j : Nat}
    {p q : SigmaEstablisher} {e f : Establisher}
    (hp : S.machine.exec S.machine.init events i = some p)
    (hq : S.machine.exec S.machine.init events j = some q) (he : p.protocolStep = .sign e)
    (hf : q.protocolStep = .sign f) :
    e.trentKey.publicKey = f.trentKey.publicKey ∧
      (∀ k < S.parties.length, ∃ u ∈ S.users k, u.publicKey = e.trentKey.publicKey) ∧
      (∀ key ∈ S.parties, key.publicKey ≠ e.trentKey.publicKey) ∧
      ∀ k < S.parties.length, ∃ t ∈ S.machine.trace S.machine.init events, Accepts t.1 t.2 k := by
  have hinv := S.invariant_exec events
  generalize S.machine.exec S.machine.init events = st at hinv hp hq
  have hchosen : ∀ {i : Nat} {p : SigmaEstablisher} {e : Establisher}, st i = some p →
      p.protocolStep = .sign e → choices st i = some p.choosing ∧
        p.choosing.announced = some e.trentKey.publicKey ∧
        ∀ k, (S.toTrentChoice.view (choices st)).announced k = some e.trentKey.publicKey := by
    intro i p e hp hstep
    have hin := hinv.inStep i p hp
    rw [SigmaEstablisher.InStep, hstep] at hin
    have hc : choices st i = some p.choosing := by simp [choices, hp]
    obtain ⟨a, hdecided, hsent, hall⟩ := hinv.choice.decided hc hin.1
    rw [ProtocolChooseTrent.decided, if_pos hin.1, hin.2, Option.map_some,
      Option.some.injEq] at hdecided
    subst hdecided
    exact ⟨hc, hsent, hall⟩
  obtain ⟨hc, hsent, hall⟩ := hchosen hp he
  obtain ⟨-, -, hall'⟩ := hchosen hq hf
  obtain ⟨hi, -⟩ := List.getElem?_eq_some_iff.mp (hinv.choice.placed i _ hc).key
  -- everybody has announced the key, each from the users it knew
  have hknown : ∀ k < S.parties.length, ∃ u ∈ S.known k, u.publicKey = e.trentKey.publicKey := by
    intro k hk
    obtain ⟨d, hd, hannounced⟩ := Option.bind_eq_some_iff.mp (hall ⟨k, hk⟩)
    exact (hinv.choice.sound k d hd).offered _ hannounced
  refine ⟨Option.some.inj ((hall ⟨i, hi⟩).symm.trans (hall' ⟨i, hi⟩)), fun k hk => ?_,
    fun key hkey => ?_, fun k hk => ?_⟩
  · obtain ⟨u, hu, hkey⟩ := hknown k hk
    exact ⟨u, (ProtocolChooseTrent.mem_candidates.mp hu).1, hkey⟩
  · obtain ⟨u, hu, hsame⟩ := hknown i hi
    rw [← hsame]
    exact (ProtocolChooseTrent.mem_candidates.mp hu).2 key hkey
  · obtain ⟨message, hmessage, hchoice⟩ := List.exists_of_findSome?_eq_some hsent
    cases message with
    | list l => cases hchoice
    | number n => cases hchoice
    | choice a => exact hinv.willing.everyone hinv.choice hc hmessage hk

end Establishment

namespace Sample

/-- Two parties that want to sign. -/
def establishment : Establishment where
  toTrentChoice := trentChoice
  tools := tools fun _ => 0
  clauses := ["clause"]
  wish _ := .accept

def withPromises : ChooseEvent → EstablishmentEvent
  | .start i => .start i fun _ => 0
  | .deliver i j n => .deliver i j n fun _ => 0
  | .returns i => .returns i
  | .throws i => .throws i

/-- Both choose the same Trent, go on, and one of them wants to resolve. -/
def signingRun : List EstablishmentEvent := agreeingRun.map withPromises ++ [.sign 0 (.ask 0)]

def isSigning (p : SigmaEstablisher) : Bool :=
  match p.protocolStep with
  | .sign _ => true
  | _ => false

theorem signs_signingRun {i : Nat} (hi : i < 2) :
    ∃ p e, establishment.machine.exec establishment.machine.init signingRun i = some p ∧
      p.protocolStep = .sign e := by
  have hsigning : ∀ i < 2, ((establishment.machine.exec establishment.machine.init signingRun
      i).map isSigning) = some true := by decide +kernel
  obtain ⟨p, hp, hsign⟩ := Option.map_eq_some_iff.mp (hsigning i hi)
  unfold isSigning at hsign
  split at hsign
  · rename_i e hstep
    exact ⟨p, e, hp, hstep⟩
  · cases hsign

end Sample

namespace Establishment

open Sample in
/-- There are runs in which both parties sign. -/
theorem signers_agreed_signingRun :
    ∃ p q e f, establishment.machine.exec establishment.machine.init signingRun 0 = some p ∧
      establishment.machine.exec establishment.machine.init signingRun 1 = some q ∧
      p.protocolStep = .sign e ∧ q.protocolStep = .sign f ∧
      e.trentKey.publicKey = f.trentKey.publicKey ∧
      (∀ k < establishment.parties.length, ∃ u ∈ establishment.users k,
        u.publicKey = e.trentKey.publicKey) ∧
      (∀ key ∈ establishment.parties, key.publicKey ≠ e.trentKey.publicKey) ∧
      ∀ k < establishment.parties.length,
        ∃ t ∈ establishment.machine.trace establishment.machine.init signingRun,
        Accepts t.1 t.2 k := by
  obtain ⟨p, e, hp, he⟩ := signs_signingRun (i := 0) (by decide)
  obtain ⟨q, f, hq, hf⟩ := signs_signingRun (i := 1) (by decide)
  exact ⟨p, q, e, f, hp, hq, he, hf, signers_agreed establishment signingRun hp hq he hf⟩

open Sample in
theorem run_hands_over_signingRun :
    Chooses 0 (establishment.machine.exec establishment.machine.init signingRun) ∨
      ∃ before j n coins after p contract trentKey,
        signingRun = before ++ .deliver 0 j n coins :: after ∧
        establishment.machine.exec establishment.machine.init before 0 = some p ∧
        p.protocolStep = .chooseTrent contract ∧ establishment.parties[0]? = some p.choosing.key ∧
        contract.toContractTerms = establishment.terms ∧
        let e := SigmaEstablisher.handedOver p.choosing.key trentKey contract
        Signs 0 (establishment.machine.exec establishment.machine.init signingRun)
          ((e.life establishment.tools).exec (e.setListenerOnTrent establishment.tools coins).1
            (after.filterMap (ownEvent 0))) :=
  run_hands_over establishment signingRun (by decide)

end Establishment

end Sxp
