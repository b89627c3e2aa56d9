-- SUMMARY: All parties and Trent following the code, under every schedule: an abort excludes clear signatures and releases.
import Sxp.Protocol.Party
import Sxp.Protocol.Resolve

/-!
# The network of honest parties

Messages that were sent can be handled by anybody at any time, any number of times or
never, so order, duplication, loss and delay are all in the choice of events. A request
that does not pass Trent's checks is one that is never handled. Sender ids are authentic.
An event that is not possible does nothing.
-/

namespace Sxp

/-- One contract, its parties and Trent. -/
structure Setting where
  tools : StepTools
  trent : Trent
  terms : ContractTerms
  /-- Trent's signature on a token, for a receiver. -/
  signAnswer : Nat → ElGamalKey → String → SigmaSignature
  two_parties : 2 ≤ terms.parties.length
  distinct : (terms.parties.map (·.publicKey)).Nodup

structure Network where
  party : Nat → Option Establisher
  solver : TrentSolver
  answers : List (JString × Outcome)

inductive NetworkEvent where
  | start (i : Nat) (wish : Wish) (coins : Nat → Nat)
  | wish (i : Nat) (w : Wish)
  | deliver (i j n : Nat)
  | advance (i : Nat) (coins : Nat → Nat)
  | ask (i : Nat) (coins : Nat)
  | request (j n : Nat) (ref : Nat) (nonces : Nat → Nat) (messageText : String)
  | answer (i n : Nat) (coins : Nat)

/-- The rounds for which an establisher tries a signature that Trent released. -/
def ProtocolResolve.roundsTried (e : Establisher) : List Int :=
  [(e.round : Int), (e.round : Int) - 1, (e.round : Int) - 2]

theorem ProtocolResolve.verifiesSome_eq (tools : StepTools) (e : Establisher) (s : SigmaSignature) :
    verifiesSome tools e s = (roundsTried e).anyM fun round =>
      e.resolver.verify tools.hash (e.contract.roundData round) s :=
  rfl

namespace Setting

variable (S : Setting)

/-- An establisher when Trent has just been chosen. -/
def establisher (key : ElGamalKey) (wish : Wish) : Establisher where
  key := key
  trentKey := S.trent.getKey
  contract := {
    toContractTerms := S.terms
    signer := { trentK := some S.trent.getKey, receiverK := none }
    wish := wish }

/-- The party an event is for, with its input, when the event is possible. -/
def localInput (st : Network) : NetworkEvent → Option (Nat × LocalInput)
  | .wish i w => some (i, .wish w)
  | .deliver i j n =>
      (st.party j).bind fun e => e.sent[n]?.map fun msg => (i, .deliver msg e.key.publicKey)
  | .advance i coins => some (i, .advance coins)
  | .ask i coins => some (i, .ask coins)
  | .answer i n coins =>
      st.answers[n]?.bind fun a =>
        (Trent.broadcast S.signAnswer S.terms coins a.1 a.2).map fun data =>
          (i, .trentMessage data S.trent.getKey.publicKey)
  | _ => none

def setParty (st : Network) (i : Nat) (e : Option Establisher) : Network :=
  { st with party := Function.update st.party i e }

def step (st : Network) : NetworkEvent → Network
  | .start i wish coins =>
      match S.terms.parties[i]?, st.party i with
      | some key, none =>
          setParty st i (((S.establisher key wish).setListenerOnTrent S.tools coins).1)
      | _, _ => st
  | .request j n ref nonces messageText =>
      match (st.party j).bind fun e => e.requests[n]?.map fun q => (e.key, q) with
      | none => st
      | some (key, q) =>
          let req := q.request key.publicKey ref nonces messageText
          let r := st.solver.resolveT S.trent req
          { st with solver := r.1, answers := st.answers ++ [(req.senderId, r.2)] }
  | ev =>
      match S.localInput st ev with
      | none => st
      | some (i, x) => setParty st i ((st.party i).map fun e => e.handle S.tools x)

def network : Machine Network NetworkEvent Unit where
  init := { party := fun _ => none, solver := { contract := S.terms }, answers := [] }
  step st ev := (S.step st ev, ())

/-! ## What an event does -/

/-- What the step does with an event that is an input of a party. -/
theorem input_cases (st : Network) (ev : NetworkEvent) :
    let st' := match S.localInput st ev with
      | none => st
      | some (i, x) => setParty st i ((st.party i).map fun e => e.handle S.tools x)
    st' = st ∨ ∃ i x e, S.localInput st ev = some (i, x) ∧ st.party i = some e ∧
      st' = setParty st i (some (e.handle S.tools x)) := by
  intro st'
  cases hlocal : S.localInput st ev with
  | none => exact Or.inl (by simp [st', hlocal])
  | some ix =>
      obtain ⟨i, x⟩ := ix
      cases hparty : st.party i with
      | none =>
          -- a party that has not started takes no input
          apply Or.inl
          simp only [st', hlocal, setParty, hparty, Option.map_none]
          rw [← hparty, Function.update_eq_self]
      | some e => exact Or.inr ⟨i, x, e, rfl, hparty, by simp [st', hlocal, hparty]⟩

/-- An event starts a party, gives a party an input, gives the solver a request, or does
nothing. -/
theorem step_cases (st : Network) (ev : NetworkEvent) :
    S.step st ev = st ∨
    (∃ i key wish coins, S.terms.parties[i]? = some key ∧ st.party i = none ∧
      S.step st ev =
        setParty st i (some ((S.establisher key wish).setListenerOnTrent S.tools coins).1)) ∨
    (∃ i x e, S.localInput st ev = some (i, x) ∧ st.party i = some e ∧
      S.step st ev = setParty st i (some (e.handle S.tools x))) ∨
    (∃ j e q ref nonces messageText, st.party j = some e ∧ q ∈ e.requests ∧
      S.step st ev = { st with
        solver := (st.solver.resolveT S.trent (q.request e.key.publicKey ref nonces messageText)).1
        answers := st.answers ++ [((q.request e.key.publicKey ref nonces messageText).senderId,
          (st.solver.resolveT S.trent
            (q.request e.key.publicKey ref nonces messageText)).2)] }) := by
  have hinput := S.input_cases st ev
  cases ev with
  | start i wish coins =>
      simp only [step]
      split
      · rename_i key hkey hnone
        exact Or.inr (Or.inl ⟨i, key, wish, coins, hkey, hnone, rfl⟩)
      · exact Or.inl rfl
  | request j n ref nonces messageText =>
      simp only [step]
      split
      · exact Or.inl rfl
      · rename_i key q heq
        simp only [Option.bind_eq_some_iff, Option.map_eq_some_iff, Prod.mk.injEq] at heq
        obtain ⟨e, he, q', hq, rfl, rfl⟩ := heq
        exact Or.inr (Or.inr (Or.inr
          ⟨j, e, q', ref, nonces, messageText, he, List.mem_of_getElem? hq, rfl⟩))
  | _ => exact hinput.imp_right fun h => Or.inr (Or.inl h)

/-! ## The invariant of all runs -/

/-- Rounds are within one of each other, a claim is kept only after some party stopped in
round one, and the solver's answers fit its state. -/
structure Sane (st : Network) : Prop where
  consistent : ∀ i e, st.party i = some e → e.Consistent
  identity : ∀ i e, st.party i = some e →
    S.terms.parties[i]? = some e.key ∧ e.contract.toContractTerms = S.terms
  promised : ∀ i e r k, st.party i = some e → e.stored r k ≠ none →
    ∃ e', st.party k = some e' ∧ r ≤ e'.round
  sound : st.solver.Sound
  first : st.solver.possiblyHonestClaims ≠ [] →
    ∃ i e q, st.party i = some e ∧ q ∈ e.requests ∧ q.round = 0
  cancelled : ∀ a ∈ st.answers, kindOf a.2 = some .aborted ∨ kindOf a.2 = some .honestyToken →
    st.solver.Contested
  released : ∀ a ∈ st.answers, kindOf a.2 = some .resolved → st.solver.Closed

theorem index_unique {i k : Nat} {a b : ElGamalKey} (hi : S.terms.parties[i]? = some a)
    (hk : S.terms.parties[k]? = some b) (heq : b.publicKey = a.publicKey) : k = i := by
  have hlt : k < (S.terms.parties.map (·.publicKey)).length := by
    rw [List.length_map]
    exact (List.getElem?_eq_some_iff.mp hk).1
  refine (List.getElem?_inj hlt S.distinct).mp ?_
  simp [hi, hk, heq]

@[simp] theorem setParty_self (st : Network) (i : Nat) (e : Option Establisher) :
    (setParty st i e).party i = e := by
  simp [setParty]

@[simp] theorem setParty_of_ne (st : Network) {i k : Nat} (h : k ≠ i) (e : Option Establisher) :
    (setParty st i e).party k = st.party k := by
  simp [setParty, h]

/-- Replacing a party by a later state of it. -/
theorem Sane.setParty {st : Network} (h : S.Sane st) {i : Nat} {e' : Establisher}
    (hextends : ∀ e, st.party i = some e → Establisher.Extends e e') (hconsistent : e'.Consistent)
    (hidentity : S.terms.parties[i]? = some e'.key ∧ e'.contract.toContractTerms = S.terms)
    (hpromised : ∀ r k, e'.stored r k ≠ none →
      ∃ e'', (setParty st i (some e')).party k = some e'' ∧ r ≤ e''.round) :
    S.Sane (Setting.setParty st i (some e')) where
  consistent k e hk := by
    rcases Decidable.em (k = i) with rfl | hne
    · rw [setParty_self, Option.some.injEq] at hk
      exact hk ▸ hconsistent
    · rw [setParty_of_ne st hne] at hk
      exact h.consistent k e hk
  identity k e hk := by
    rcases Decidable.em (k = i) with rfl | hne
    · rw [setParty_self, Option.some.injEq] at hk
      exact hk ▸ hidentity
    · rw [setParty_of_ne st hne] at hk
      exact h.identity k e hk
  promised k e r j hk hstored := by
    rcases Decidable.em (k = i) with rfl | hne
    · rw [setParty_self, Option.some.injEq] at hk
      exact hpromised r j (hk ▸ hstored)
    · rw [setParty_of_ne st hne] at hk
      obtain ⟨e'', hj, hr⟩ := h.promised k e r j hk hstored
      rcases Decidable.em (j = i) with rfl | hji
      · exact ⟨e', setParty_self st j _, le_trans hr (hextends e'' hj).round⟩
      · exact ⟨e'', by rw [setParty_of_ne st hji, hj], hr⟩
  sound := h.sound
  first hne := by
    obtain ⟨k, e, q, hk, hq, hround⟩ := h.first hne
    rcases Decidable.em (k = i) with rfl | hki
    · exact ⟨k, e', q, setParty_self st k _, (hextends e hk).requests q hq, hround⟩
    · exact ⟨k, e, q, by rw [setParty_of_ne st hki, hk], hq, hround⟩
  cancelled := h.cancelled
  released := h.released

theorem Sane.start {st : Network} (h : S.Sane st) {i : Nat} {key : ElGamalKey} (wish : Wish)
    (coins : Nat → Nat) (hkey : S.terms.parties[i]? = some key) (hnone : st.party i = none) :
    S.Sane (Setting.setParty st i
      (some ((S.establisher key wish).setListenerOnTrent S.tools coins).1)) := by
  have hmoves := @Establisher.setListenerOnTrent_moves S.tools (S.establisher key wish) coins
  -- the first promises of a party are its own
  apply h.setParty S
  · intro e he
    rw [hnone] at he
    cases he
  · exact (Establisher.consistent_started rfl rfl).moves hmoves
  · rw [hmoves.key, hmoves.terms]
    exact ⟨hkey, rfl⟩
  · intro r k hstored
    rcases hmoves.stored r k hstored with hold | ⟨hr, party, hparty, hown⟩
    · exact absurd (Establisher.stored_started _ r k) hold
    · have hki : k = i := S.index_unique hkey hparty hown
      subst hki
      exact ⟨_, setParty_self st k _, by rw [hr]; exact hmoves.round.ge⟩

theorem Sane.input {st : Network} (h : S.Sane st) {ev : NetworkEvent} {i : Nat} {x : LocalInput}
    {e : Establisher} (hlocal : S.localInput st ev = some (i, x)) (he : st.party i = some e) :
    S.Sane (Setting.setParty st i (some (e.handle S.tools x))) := by
  have hextends := @Establisher.handle_extends S.tools e x
  obtain ⟨hkey, hterms⟩ := h.identity i e he
  refine h.setParty S ?_ ((h.consistent i e he).handle x) ?_ ?_
  · intro e₀ he₀
    rw [he, Option.some.injEq] at he₀
    exact he₀ ▸ hextends
  · rw [hextends.key, hextends.terms]
    exact ⟨hkey, hterms⟩
  · -- a promise that is new comes from the sender of a message or from the party itself
    have hround : ∀ {r k : Nat} {e'' : Establisher}, st.party k = some e'' → r ≤ e''.round →
        ∃ e', (Setting.setParty st i (some (e.handle S.tools x))).party k = some e' ∧
          r ≤ e'.round := by
      intro r k e'' hk hr
      rcases Decidable.em (k = i) with rfl | hne
      · rw [he, Option.some.injEq] at hk
        subst hk
        exact ⟨_, setParty_self st k _, le_trans hr hextends.round⟩
      · exact ⟨e'', by rw [setParty_of_ne st hne, hk], hr⟩
    intro r k hstored
    rcases Establisher.stored_handle hstored with hold | hsource
    · obtain ⟨e'', hk, hr⟩ := h.promised i e r k he hold
      exact hround hk hr
    · cases x with
      | deliver message senderId =>
          obtain ⟨hmsg, party, hparty, hsender⟩ := hsource
          obtain ⟨j, e'', hj, hsent, rfl⟩ : ∃ j e'', st.party j = some e'' ∧
              message ∈ e''.sent ∧ e''.key.publicKey = senderId := by
            cases ev with
            | deliver i' j n =>
                simp only [localInput, Option.bind_eq_some_iff, Option.map_eq_some_iff,
                  Prod.mk.injEq, LocalInput.deliver.injEq] at hlocal
                obtain ⟨e'', hj, msg, hget, -, rfl, hid⟩ := hlocal
                exact ⟨j, e'', hj, List.mem_of_getElem? hget, hid⟩
            | answer i' n coins =>
                simp [localInput, Option.bind_eq_some_iff] at hlocal
            | _ => simp [localInput] at hlocal
          rw [hterms] at hparty
          have hkj : k = j := S.index_unique (h.identity j e'' hj).1 hparty hsender
          subst hkj
          obtain ⟨r', hr', hle⟩ := (h.consistent k e'' hj).sent_le message hsent
          rw [hmsg, Option.some.injEq, Int.natCast_inj] at hr'
          exact hround hj (hr' ▸ hle)
      | advance coins =>
          have hr := @Establisher.own_source_le S.tools _ _ _ _ hsource
          obtain ⟨-, -, party, hparty, hown⟩ := hsource
          have hparty' : S.terms.parties[k]? = some party := hterms ▸ hparty
          have hki : k = i := S.index_unique hkey hparty' hown
          subst hki
          exact ⟨_, setParty_self st k _, hr⟩
      | wish w => cases hsource
      | ask coins => cases hsource
      | trentMessage data senderId => cases hsource

theorem Sane.request {st : Network} (h : S.Sane st) {j : Nat} {e : Establisher}
    {q : ResolveMessage} (he : st.party j = some e) (hq : q ∈ e.requests) (ref : Nat)
    (nonces : Nat → Nat) (messageText : String) :
    let req := q.request e.key.publicKey ref nonces messageText
    S.Sane { st with
      solver := (st.solver.resolveT S.trent req).1
      answers := st.answers ++ [(req.senderId, (st.solver.resolveT S.trent req).2)] } := by
  intro req
  rw [TrentSolver.resolveT_eq]
  have hsound := h.sound.after req
  refine { h with sound := hsound, first := ?_, cancelled := ?_, released := ?_ }
  · intro hne
    rcases Decidable.em (st.solver.possiblyHonestClaims = []) with hnil | hold
    · -- the first claim that is kept is at index zero
      have hcons := h.consistent j e he
      have hround : q.round = (e.round : Int) - 1 := (hcons.asked q hq).1
      have hpos := hcons.round_pos
      have hreq : req.round = q.round := rfl
      refine ⟨j, e, q, he, hq, ?_⟩
      rcases st.solver.after_list req (st.solver.ruling req) with hsame | hkeep
      · rw [hnil, List.length_nil] at hsame
        exact absurd (List.eq_nil_of_length_eq_zero hsame) hne
      · have hjust := TrentSolver.justified_of_ruling hkeep
        have hle := hjust.2.2.2
        rw [hnil, List.length_nil] at hle
        omega
    · exact h.first hold
  · intro a ha hkind
    rcases List.mem_append.mp ha with hold | hnew
    · exact (h.cancelled a hold hkind).after req
    · rw [List.mem_singleton.mp hnew] at hkind
      rcases hkind with hkind | hkind
      · have hkeep : st.solver.ruling req = .keep := TrentSolver.ruling_of_kindOf S.trent hkind
        simp only [hkeep]
        exact TrentSolver.contested_of_keep hkeep
      · obtain ⟨k, j', hover⟩ := TrentSolver.ruling_of_kindOf S.trent hkind
        exact (TrentSolver.contested_of_overturn h.sound hover).after req
  · intro a ha hkind
    rcases List.mem_append.mp ha with hold | hnew
    · exact (h.released a hold hkind).after req
    · rw [List.mem_singleton.mp hnew] at hkind
      have hresolve : st.solver.ruling req = .resolve := TrentSolver.ruling_of_kindOf S.trent hkind
      simp only [hresolve]
      exact TrentSolver.closed_of_resolve h.sound hresolve

theorem sane_init : S.Sane S.network.init where
  consistent := by simp [network]
  identity := by simp [network]
  promised := by simp [network]
  sound := TrentSolver.sound_init S.terms
  first := by simp [network]
  cancelled := by simp [network]
  released := by simp [network]

theorem Sane.step {st : Network} (h : S.Sane st) (ev : NetworkEvent) : S.Sane (S.step st ev) := by
  rcases S.step_cases st ev with hsame | ⟨i, key, wish, coins, hkey, hnone, hstep⟩ |
    ⟨i, x, e, hlocal, he, hstep⟩ | ⟨j, e, q, ref, nonces, messageText, he, hq, hstep⟩
  · rw [hsame]
    exact h
  · rw [hstep]
    exact h.start S wish coins hkey hnone
  · rw [hstep]
    exact h.input S hlocal he
  · rw [hstep]
    exact h.request S he hq ref nonces messageText

theorem sane_exec (events : List NetworkEvent) :
    S.Sane (S.network.exec S.network.init events) :=
  S.network.exec_preserves (fun _ ev h => h.step S ev) S.sane_init events

/-! ## An abort is an abort -/

/-- Nobody is ahead of anybody else by more than one round. -/
theorem Sane.round_le {st : Network} (h : S.Sane st) {i k : Nat} {e e' : Establisher}
    (hi : st.party i = some e) (hk : st.party k = some e') : e.round ≤ e'.round + 1 := by
  by_contra hgt
  have hkN : k < e.N := by
    have hlt := (List.getElem?_eq_some_iff.mp (h.identity k e' hk).1).1
    rw [Establisher.N, (h.identity i e hi).2]
    exact hlt
  have hpos := (h.consistent k e' hk).round_pos
  have hstored := (h.consistent i e hi).behind (e.round - 1) (by omega) (by omega) k hkN
  obtain ⟨e'', hk', hr⟩ := h.promised i e (e.round - 1) k hi hstored
  rw [hk, Option.some.injEq] at hk'
  subst hk'
  omega

/-- Trent has told somebody to cancel. -/
def Cancelled (st : Network) : Prop :=
  ∃ a ∈ st.answers, kindOf a.2 = some .aborted ∨ kindOf a.2 = some .honestyToken

/-- Some party has sent its clear signature. -/
def ClearSent (st : Network) : Prop :=
  ∃ i e msg, st.party i = some e ∧ msg ∈ e.sent ∧
    msg.round = some ((S.terms.parties.length : Int) + 2)

/-- Trent has released the signatures. -/
def Released (st : Network) : Prop := ∃ a ∈ st.answers, kindOf a.2 = some .resolved

theorem Sane.not_clearSent {st : Network} (h : S.Sane st) (hcancelled : Cancelled st) :
    ¬ S.ClearSent st := by
  rintro ⟨i, e, msg, he, hmsg, hround⟩
  obtain ⟨a, ha, hkind⟩ := hcancelled
  obtain ⟨k, e', q, hk, hq, hzero⟩ := h.first (h.cancelled a ha hkind).1
  have hstopped := ((h.consistent k e' hk).asked q hq).1
  obtain ⟨r, hr, hle⟩ := (h.consistent i e he).sent_le msg hmsg
  have hslack := h.round_le S he hk
  have htwo := S.two_parties
  rw [hround, Option.some.injEq] at hr
  omega

/-! ## What stays on record -/

/-- `st'` has all parties and answers of `st`, the parties in later states. -/
structure Later (st st' : Network) : Prop where
  party : ∀ i e, st.party i = some e → ∃ e', st'.party i = some e' ∧ Establisher.Extends e e'
  answers : ∀ a ∈ st.answers, a ∈ st'.answers

theorem Later.refl (st : Network) : Later st st :=
  ⟨fun _ e he => ⟨e, he, Establisher.Extends.refl e⟩, fun _ h => h⟩

theorem Later.trans {st st' st'' : Network} (h : Later st st') (h' : Later st' st'') :
    Later st st'' where
  party i e he := by
    obtain ⟨e', he', hextends⟩ := h.party i e he
    obtain ⟨e'', he'', hextends'⟩ := h'.party i e' he'
    exact ⟨e'', he'', hextends.trans hextends'⟩
  answers a ha := h'.answers a (h.answers a ha)

theorem later_setParty (st : Network) {i : Nat} {e' : Establisher}
    (h : ∀ e, st.party i = some e → Establisher.Extends e e') :
    Later st (setParty st i (some e')) where
  party k e hk := by
    rcases Decidable.em (k = i) with rfl | hne
    · exact ⟨e', setParty_self st k _, h e hk⟩
    · exact ⟨e, by rw [setParty_of_ne st hne, hk], Establisher.Extends.refl e⟩
  answers _ h := h

theorem later_step (st : Network) (ev : NetworkEvent) : Later st (S.step st ev) := by
  rcases S.step_cases st ev with hsame | ⟨i, key, wish, coins, -, hnone, hstep⟩ |
    ⟨i, x, e, -, he, hstep⟩ | ⟨j, e, q, ref, nonces, messageText, -, -, hstep⟩
  · rw [hsame]
    exact Later.refl st
  · rw [hstep]
    refine later_setParty st fun e he => ?_
    rw [hnone] at he
    cases he
  · rw [hstep]
    refine later_setParty st fun e₀ he₀ => ?_
    rw [he, Option.some.injEq] at he₀
    exact he₀ ▸ e.handle_extends x
  · rw [hstep]
    exact ⟨(Later.refl st).party, fun a ha => List.mem_append_left _ ha⟩

/-- The network after some events. -/
def after (events : List NetworkEvent) : Network := S.network.exec S.network.init events

theorem later_after_take (events : List NetworkEvent) (n : Nat) :
    Later (S.after (events.take n)) (S.after events) := by
  have hsplit : S.after events =
      S.network.exec (S.after (events.take n)) (events.drop n) := by
    rw [after, after, ← Machine.exec_append, List.take_append_drop]
  rw [hsplit]
  exact S.network.exec_preserves (fun st ev h => h.trans (S.later_step st ev)) (Later.refl _) _

theorem Cancelled.later {st st' : Network} (h : Cancelled st) (hl : Later st st') :
    Cancelled st' := by
  obtain ⟨a, ha, hkind⟩ := h
  exact ⟨a, hl.answers a ha, hkind⟩

theorem Released.later {st st' : Network} (h : Released st) (hl : Later st st') :
    Released st' := by
  obtain ⟨a, ha, hkind⟩ := h
  exact ⟨a, hl.answers a ha, hkind⟩

theorem ClearSent.later {st st' : Network} (h : S.ClearSent st) (hl : Later st st') :
    S.ClearSent st' := by
  obtain ⟨i, e, msg, he, hmsg, hround⟩ := h
  obtain ⟨e', he', hextends⟩ := hl.party i e he
  exact ⟨i, e', msg, he', hextends.sent msg hmsg, hround⟩

/-- When Trent tells somebody to cancel at some time of a run, no clear signature is sent and
no signatures are released, at any time of the run before or after. -/
theorem abort_excludes_signatures (events : List NetworkEvent) (n m : Nat) :
    ¬ (Cancelled (S.after (events.take n)) ∧
      (S.ClearSent (S.after (events.take m)) ∨ Released (S.after (events.take m)))) := by
  rintro ⟨hcancelled, hsigned⟩
  have hsane : S.Sane (S.after events) := S.sane_exec events
  have hcancelled' := hcancelled.later (S.later_after_take events n)
  rcases hsigned with hclear | hreleased
  · exact hsane.not_clearSent S hcancelled' (hclear.later S (S.later_after_take events m))
  · obtain ⟨a, ha, hkind⟩ := hcancelled'
    obtain ⟨b, hb, hresolved⟩ := hreleased.later (S.later_after_take events m)
    exact (hsane.cancelled a ha hkind).1 (hsane.released b hb hresolved).1

/-! ## A claim is one that everybody can check -/

/-- Every claim with promises that was made in `st` is for one of the rounds that each party
tries in `st'`. -/
def ClaimsTried (st st' : Network) : Prop :=
  ∀ i e q, st.party i = some e → q ∈ e.requests → 1 ≤ q.round →
    ∀ j < S.terms.parties.length, ∃ e', st'.party j = some e' ∧
      q.round ≤ e'.round ∧ (e'.round : Int) ≤ q.round + 2 ∧
      q.round ∈ ProtocolResolve.roundsTried e'

/-- Whoever claims the promises of a round has left it, so everybody has entered it, and
nobody is two rounds ahead of the one who stopped. -/
theorem Sane.claim_tried {st : Network} (h : S.Sane st) : S.ClaimsTried st st := by
  intro i e q hi hq hround j hj
  have hconsistent := h.consistent i e hi
  have hasked := (hconsistent.asked q hq).1
  have hjN : j < e.N := by
    rw [Establisher.N, (h.identity i e hi).2]
    exact hj
  have hstored := hconsistent.behind (e.round - 1) (by omega) (by omega) j hjN
  obtain ⟨e', hj', hentered⟩ := h.promised i e (e.round - 1) j hi hstored
  have hahead := h.round_le S hj' hi
  refine ⟨e', hj', by omega, by omega, ?_⟩
  have hrounds : q.round = e'.round ∨ q.round = (e'.round : Int) - 1 ∨
      q.round = (e'.round : Int) - 2 := by omega
  simpa [ProtocolResolve.roundsTried] using hrounds

/-- From the moment a claim is made every party tries its round, whatever happens next. -/
theorem claims_tried (events : List NetworkEvent) (n : Nat) :
    S.ClaimsTried (S.after (events.take n)) (S.after events) := by
  intro i e q hi hq hround j hj
  obtain ⟨e', hi', hextends⟩ := (S.later_after_take events n).party i e hi
  exact (S.sane_exec events).claim_tried S i e' q hi' (hextends.requests q hq) hround j hj

end Setting

end Sxp
