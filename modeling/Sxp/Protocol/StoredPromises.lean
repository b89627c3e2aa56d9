-- SUMMARY: Which promises an establisher stores: its own, and what it accepted; and when those of the others are promises of the right party.
import Sxp.Protocol.CompleteClaim
import Sxp.Protocol.Fairness

/-!
# Stored promises

Moves say where promises are stored. Here is which promises they are: those the tools made
for the establisher itself, and those of other senders that verified under the keys they
brought along. Whether these are the sender's, the establisher's and Trent's is never asked.
-/

namespace Sxp

namespace Establisher

/-! ## Everything but the promises -/

/-- `e'` differs from `e` in neither the promises, what was sent, nor Trent's key. -/
structure Adjusts (e e' : Establisher) : Prop where
  trentKey : e'.trentKey = e.trentKey
  roundReceived : e'.roundReceived = e.roundReceived
  sent : e'.sent = e.sent
  requests : e'.requests = e.requests

namespace Adjusts

variable {e e' e'' : Establisher}

theorem refl (e : Establisher) : Adjusts e e := ⟨rfl, rfl, rfl, rfl⟩

theorem trans (h : Adjusts e e') (h' : Adjusts e' e'') : Adjusts e e'' where
  trentKey := h'.trentKey.trans h.trentKey
  roundReceived := h'.roundReceived.trans h.roundReceived
  sent := h'.sent.trans h.sent
  requests := h'.requests.trans h.requests

theorem contract (e : Establisher) (c : SigmaContract) : Adjusts e { e with contract := c } :=
  ⟨rfl, rfl, rfl, rfl⟩

theorem resolver (e : Establisher) (s : SigmaSigner) : Adjusts e { e with resolver := s } :=
  ⟨rfl, rfl, rfl, rfl⟩

end Adjusts

end Establisher

variable (tools : StepTools)

open Establisher (Adjusts)

theorem Establisher.Adjusts.keeps (e : Establisher) : Establisher.Keeps tools (Adjusts e) where
  resolver e' s h := h.trans (Adjusts.resolver e' s)
  addSignature e' _ _ h := h.trans (Adjusts.contract e' _)
  isFinalized e' h := h.trans (Adjusts.contract e' _)
  setStatus e' _ _ h := h.trans (Adjusts.contract e' _)

namespace ProtocolResolve

theorem notify_adjusts (e : Establisher) (data : TrentMessage) (senderId : Int) :
    Adjusts e (notify tools e data senderId).1 :=
  (Adjusts.keeps tools e).notify (Adjusts.refl e) data senderId

end ProtocolResolve

/-! ## The promises -/

namespace Establisher

/-- `e'` has the slots and the promises of `e`, and promises with the property `P`. -/
structure Stores (P : Nat → Nat → Or → Prop) (e e' : Establisher) : Prop where
  trentKey : e'.trentKey = e.trentKey
  slots : ∀ r k, e'.HasSlot r k ↔ e.HasSlot r k
  stored : ∀ r k o, e'.stored r k = some o → e.stored r k = some o ∨ P r k o

namespace Stores

variable {P : Nat → Nat → Or → Prop} {e e' e'' : Establisher}

theorem refl (P : Nat → Nat → Or → Prop) (e : Establisher) : Stores P e e :=
  ⟨rfl, fun _ _ => Iff.rfl, fun _ _ _ h => Or.inl h⟩

theorem trans (h : Stores P e e') (h' : Stores P e' e'') : Stores P e e'' where
  trentKey := h'.trentKey.trans h.trentKey
  slots r k := (h'.slots r k).trans (h.slots r k)
  stored r k o ho := by
    rcases h'.stored r k o ho with hold | hnew
    · exact h.stored r k o hold
    · exact Or.inr hnew

theorem of_adjusts (P : Nat → Nat → Or → Prop) (h : Adjusts e e') : Stores P e e' where
  trentKey := h.trentKey
  slots r k := by rw [HasSlot, HasSlot, h.roundReceived]
  stored r k o ho := by
    rw [Establisher.stored, h.roundReceived] at ho
    exact Or.inl ho

end Stores

theorem hasSlot_store (e : Establisher) (r' k' : Nat) (o : Or) (r k : Nat) :
    (e.store r' k' o).HasSlot r k ↔ e.HasSlot r k := by
  refine ⟨?_, fun h => h.store r' k' o⟩
  rintro ⟨row, hrow, hk⟩
  simp only [store, List.getElem?_modify] at hrow
  obtain ⟨row', hrow', rfl⟩ := Option.map_eq_some_iff.mp hrow
  refine ⟨row', hrow', ?_⟩
  split at hk
  · rwa [List.length_set] at hk
  · exact hk

/-- Where something is stored there is a slot. -/
theorem hasSlot_of_stored {e : Establisher} {r k : Nat} {o : Or} (h : e.stored r k = some o) :
    e.HasSlot r k := by
  rw [stored, Option.join_eq_some_iff] at h
  obtain ⟨row, hrow, hget⟩ := Option.bind_eq_some_iff.mp h
  exact ⟨row, hrow, (List.getElem?_eq_some_iff.mp hget).1⟩

/-- What is stored after a store: the new promise in its place, or what was there. -/
theorem stored_store {e : Establisher} {r' k' r k : Nat} {o o' : Or}
    (h : (e.store r' k' o).stored r k = some o') :
    e.stored r k = some o' ∨ (r = r' ∧ k = k' ∧ o' = o) := by
  rcases Decidable.em (r = r' ∧ k = k') with ⟨rfl, rfl⟩ | hne
  · have hslot := (hasSlot_store e r k o r k).mp (hasSlot_of_stored h)
    rw [stored_store_self hslot, Option.some.injEq] at h
    exact Or.inr ⟨rfl, rfl, h.symm⟩
  · rw [stored_store_of_ne hne] at h
    exact Or.inl h

theorem Stores.store {P : Nat → Nat → Or → Prop} (e : Establisher) {r k : Nat} {o : Or}
    (h : P r k o) : Stores P e (e.store r k o) where
  trentKey := rfl
  slots := hasSlot_store e r k o
  stored r' k' o' ho' := by
    rcases stored_store ho' with hold | ⟨rfl, rfl, rfl⟩
    · exact Or.inl hold
    · exact Or.inr h

end Establisher

open Establisher (Stores)

theorem Establisher.Stores.keeps (P : Nat → Nat → Or → Prop) (e : Establisher) :
    Establisher.Keeps tools (Stores P e) where
  resolver e' s h := h.trans (Stores.of_adjusts P (Adjusts.resolver e' s))
  addSignature e' _ _ h := h.trans (Stores.of_adjusts P (Adjusts.contract e' _))
  isFinalized e' h := h.trans (Stores.of_adjusts P (Adjusts.contract e' _))
  setStatus e' _ _ h := h.trans (Stores.of_adjusts P (Adjusts.contract e' _))

theorem ProtocolResolve.sendMessage_stores (P : Nat → Nat → Or → Prop) (e : Establisher)
    (coins : Nat) : Stores P e (sendMessage tools e coins).1 := by
  simp only [sendMessage]
  split
  · exact ⟨rfl, fun _ _ => Iff.rfl, fun _ _ _ h => Or.inl h⟩
  · exact ⟨rfl, fun _ _ => Iff.rfl, fun _ _ _ h => Or.inl h⟩

namespace ProtocolSign

/-- The promises that the tools make for an establisher itself in its current round. -/
def Makes (e : Establisher) (r k : Nat) (o : Or) : Prop :=
  r = e.round ∧ ∃ party coins, e.contract.parties[k]? = some party ∧
    party.publicKey = e.key.publicKey ∧
    tools.getPcs coins e.key e.trentKey (e.contract.roundData r) party = .ok o

theorem fillContent_stores (coins : Nat → Nat) (ks : List (ElGamalKey × Nat)) (e : Establisher)
    (content : HashMap Int String)
    (hks : ∀ x ∈ ks, e.contract.parties[x.2]? = some x.1) :
    Stores (Makes tools e) e (fillContent tools coins ks e content).1 := by
  have hkeeps := (Establisher.Moves.keeps tools (Own e) e).and
    (Stores.keeps tools (Makes tools e) e)
  refine (hkeeps.fillContent (fun e' x hx p h hown hp => ?_)
    ⟨Establisher.Moves.refl _ e, Stores.refl _ e⟩ content).2
  -- the loop is still in the round and has the keys and parties it began with
  obtain ⟨hmoves, hstores⟩ := h
  rw [hmoves.key] at hown
  rw [hmoves.key, hmoves.terms, hmoves.round, hstores.trentKey] at hp
  have hmade : Makes tools e e'.round x.2 p :=
    ⟨hmoves.round, x.1, coins x.2, hks x hx, hown, hmoves.round ▸ hp⟩
  exact ⟨hmoves.trans (Establisher.Moves.store e' ⟨hmoves.round, x.1, hks x hx, hown⟩ p),
    hstores.trans (Stores.store e' hmade)⟩

theorem sendMessage_stores (e : Establisher) (coins : Nat → Nat) :
    Stores (Makes tools e) e (sendMessage tools e coins).1 := by
  have hstores := fillContent_stores tools coins e.contract.parties.zipIdx e {} fun _ hx =>
    List.mem_zipIdx_iff_getElem?.mp hx
  rcases sendMessage_cases tools e coins with hasks | hfilled | ⟨content, hsends⟩
  · rw [hasks]
    exact ProtocolResolve.sendMessage_stores tools _ e (coins 0)
  · rwa [hfilled]
  · rw [hsends]
    exact ⟨hstores.trentKey, hstores.slots, hstores.stored⟩

theorem verifyAndStoreSignature_stores (e : Establisher) (message : SignMessage) (pubK : Int) :
    Stores (Brings tools e message pubK) e (verifyAndStoreSignature tools e message pubK).1 :=
  (Stores.keeps tools _ e).verifyAndStoreSignature (Stores.refl _ e) fun _ _ _ h =>
    Stores.store e h

end ProtocolSign

namespace Establisher

/-- The promises that an input brings in. -/
def news (e : Establisher) : LocalInput → Nat → Nat → Or → Prop
  | .deliver message senderId => ProtocolSign.Brings tools e message senderId
  | .advance _ => ProtocolSign.Makes tools e.nextRound
  | _ => fun _ _ _ => False

theorem handle_stores (e : Establisher) (x : LocalInput) :
    Stores (e.news tools x) e (e.handle tools x) := by
  cases x with
  | wish w => exact Stores.of_adjusts _ (Adjusts.contract e _)
  | deliver message senderId =>
      exact ProtocolSign.verifyAndStoreSignature_stores tools e message senderId
  | advance coins =>
      simp only [handle]
      split
      · have hstores := ProtocolSign.sendMessage_stores tools e.nextRound coins
        exact ⟨hstores.trentKey, hstores.slots, hstores.stored⟩
      · exact Stores.refl _ e
  | ask coins => exact ProtocolResolve.sendMessage_stores tools _ e coins
  | trentMessage data senderId =>
      exact Stores.of_adjusts _ (ProtocolResolve.notify_adjusts tools e data senderId)

end Establisher

/-! ## Promises of the right party -/

/-- What can happen to an establisher in the signing step: it sends the message of its round,
which it does once by itself, or it gets an input. -/
inductive SignEvent where
  | send (coins : Nat → Nat)
  | input (x : LocalInput)

namespace Establisher

/-- The effect of an event. -/
def onEvent (e : Establisher) : SignEvent → Establisher
  | .send coins => (ProtocolSign.sendMessage tools e coins).1
  | .input x => e.handle tools x

/-- The signing step of `e`, from its creation on. -/
def signingStep (e : Establisher) : Machine Establisher SignEvent Unit where
  init := e.started
  step e ev := (e.onEvent tools ev, ())

/-- Every promise stored for another party is a promise of that party to the establisher, for a
promising round and under the agreed Trent's key. -/
def PromisesRight (e : Establisher) : Prop :=
  ∀ k i party o, e.contract.parties[i]? = some party → party.publicKey ≠ e.key.publicKey →
    e.stored k i = some o →
      1 ≤ k ∧ k ≤ e.N + 1 ∧ o.verifies tools.hash (e.contract.roundData k) = .ok true ∧
        ∃ res, o.PcsOf party e.key e.trentKey res

/-- A promise that is about to be stored has the clauses that its sender makes for this
establisher, and is not for round zero. -/
def BringsRight (e : Establisher) (ev : SignEvent) : Prop :=
  ∀ message senderId r i party o, ev = .input (.deliver message senderId) →
    ProtocolSign.Brings tools e message senderId r i o → r ≤ e.N + 1 →
    e.contract.parties[i]? = some party →
      1 ≤ r ∧ ∃ res, o.PcsOf party e.key e.trentKey res

/-- The array has the size it was made with. -/
def Sized (e : Establisher) : Prop := ∀ r k, e.HasSlot r k ↔ r ≤ e.N + 1 ∧ k < e.N

theorem sized_started (e : Establisher) : e.started.Sized := by
  intro r k
  have hN : e.started.N = e.N := rfl
  have hrows : e.started.roundReceived = List.replicate (e.N + 2) (List.replicate e.N none) := rfl
  rw [HasSlot, hrows, hN]
  simp only [List.getElem?_replicate]
  constructor
  · rintro ⟨row, hrow, hk⟩
    split at hrow
    · rename_i hr
      rw [Option.some.injEq] at hrow
      rw [← hrow, List.length_replicate] at hk
      exact ⟨by omega, hk⟩
    · cases hrow
  · rintro ⟨hr, hk⟩
    exact ⟨_, if_pos (by omega), by rwa [List.length_replicate]⟩

theorem Sized.stores {P : Nat → Nat → Or → Prop} {e e' : Establisher} (h : e.Sized)
    (hstores : Stores P e e') (hN : e'.N = e.N) : e'.Sized := by
  intro r k
  rw [hstores.slots, h r k, hN]

variable {tools}

/-- The data of an establisher that no event changes. -/
theorem onEvent_frame (e : Establisher) (ev : SignEvent) :
    (e.onEvent tools ev).key = e.key ∧ (e.onEvent tools ev).trentKey = e.trentKey ∧
      (e.onEvent tools ev).contract.toContractTerms = e.contract.toContractTerms := by
  cases ev with
  | send coins =>
      have hmoves := ProtocolSign.sendMessage_moves tools e coins
      exact ⟨hmoves.key, (ProtocolSign.sendMessage_stores tools e coins).trentKey, hmoves.terms⟩
  | input x =>
      have hextends : Extends e (e.handle tools x) := e.handle_extends x
      exact ⟨hextends.key, (e.handle_stores tools x).trentKey, hextends.terms⟩

theorem Sized.onEvent {e : Establisher} (h : e.Sized) (ev : SignEvent) :
    (e.onEvent tools ev).Sized := by
  have hN : (e.onEvent tools ev).N = e.N := by
    rw [N, N, (onEvent_frame e ev).2.2]
  cases ev with
  | send coins => exact h.stores (ProtocolSign.sendMessage_stores tools e coins) hN
  | input x => exact h.stores (e.handle_stores tools x) hN

/-- What an event stores for another party, it was brought. -/
theorem brought_of_stored {e : Establisher} {ev : SignEvent} {k i : Nat} {party : ElGamalKey}
    {o : Or} (hparty : e.contract.parties[i]? = some party)
    (hother : party.publicKey ≠ e.key.publicKey) (h : (e.onEvent tools ev).stored k i = some o) :
    e.stored k i = some o ∨ ∃ message senderId, ev = .input (.deliver message senderId) ∧
      ProtocolSign.Brings tools e message senderId k i o := by
  have hown : ∀ {e' : Establisher}, e'.contract = e.contract → e'.key = e.key →
      ¬ ProtocolSign.Makes tools e' k i o := by
    rintro e' hcontract hkey ⟨-, party', -, hparty', hown, -⟩
    rw [hcontract, hparty, Option.some.injEq] at hparty'
    rw [← hparty', hkey] at hown
    exact hother hown
  cases ev with
  | send coins =>
      rcases (ProtocolSign.sendMessage_stores tools e coins).stored k i o h with hold | hmade
      · exact Or.inl hold
      · exact absurd hmade (hown rfl rfl)
  | input x =>
      rcases (e.handle_stores tools x).stored k i o h with hold | hnew
      · exact Or.inl hold
      · cases x with
        | deliver message senderId => exact Or.inr ⟨message, senderId, rfl, hnew⟩
        | advance coins => exact absurd hnew (hown rfl rfl)
        | wish w => cases hnew
        | ask coins => cases hnew
        | trentMessage data senderId => cases hnew

/-- A step keeps the promises right exactly if what it is brought is right. -/
theorem promisesRight_onEvent_iff {e : Establisher} (hsized : e.Sized)
    (h : e.PromisesRight tools) (ev : SignEvent) :
    (e.onEvent tools ev).PromisesRight tools ↔ e.BringsRight tools ev := by
  obtain ⟨hkey, htrent, hterms⟩ := @onEvent_frame tools e ev
  have hN : (e.onEvent tools ev).N = e.N := by rw [N, N, hterms]
  constructor
  · rintro hright message senderId r i party o rfl ⟨haccepted, hempty⟩ hr hparty
    obtain ⟨hlt, hfound, -⟩ := List.findIdx?_eq_some_iff_getElem.mp haccepted.sender
    have hslot : e.HasSlot r i := (hsized r i).mpr ⟨hr, hlt⟩
    have hother : party.publicKey ≠ e.key.publicKey := by
      rw [List.getElem?_eq_getElem hlt, Option.some.injEq] at hparty
      rw [← hparty, beq_iff_eq.mp hfound]
      exact haccepted.other
    have hstored : (e.onEvent tools (.input (.deliver message senderId))).stored r i = some o := by
      obtain ⟨hne, hsame | hstore⟩ := haccepted.stores hr hslot
      · rw [hsame] at hne
        exact absurd hempty hne
      · rw [show e.onEvent tools (.input (.deliver message senderId)) = e.store r i o from hstore]
        exact stored_store_self hslot o
    have hpromise := hright r i party o
    rw [hterms, hkey, htrent] at hpromise
    obtain ⟨hpos, -, -, hpcs⟩ := hpromise hparty hother hstored
    exact ⟨hpos, hpcs⟩
  · intro hbrings k i party o hparty hother hstored
    rw [hterms] at hparty
    rw [hkey] at hother
    rw [hterms, hkey, htrent, hN]
    rcases brought_of_stored hparty hother hstored with hold | ⟨message, senderId, rfl, hnew⟩
    · exact h k i party o hparty hother hold
    · have hslot := (hsized.onEvent (.input (.deliver message senderId)) k i).mp
        (hasSlot_of_stored hstored)
      rw [hN] at hslot
      obtain ⟨hpos, hpcs⟩ := hbrings message senderId k i party o rfl hnew hslot.1 hparty
      exact ⟨hpos, hslot.1, hnew.1.verified, hpcs⟩

theorem promisesRight_started (e : Establisher) : e.started.PromisesRight tools := by
  intro k i party o _ _ hstored
  rw [stored_started] at hstored
  cases hstored

variable (tools)

/-- In every run of the signing step, the promises are right in every state exactly if every
promise that was about to be stored was right. -/
theorem promises_right_iff (e : Establisher) (events : List SignEvent) :
    (∀ t ∈ (e.signingStep tools).trace (e.signingStep tools).init events,
        (t.1.onEvent tools t.2).PromisesRight tools) ↔
      ∀ t ∈ (e.signingStep tools).trace (e.signingStep tools).init events,
        t.1.BringsRight tools t.2 :=
  @Machine.trace_forall_iff _ _ _ (e.signingStep tools)
    (fun e => e.Sized ∧ e.PromisesRight tools) _ _
    (fun _ ev h => promisesRight_onEvent_iff h.1 h.2 ev)
    (fun _ ev h hright => ⟨h.1.onEvent ev, hright⟩)
    _ ⟨sized_started e, promisesRight_started e⟩ events

end Establisher

namespace Establisher

/-- Alice stores a promise under a key that Bob made up. -/
theorem wrong_promise_stored :
    ¬ ∃ hash : String → Int,
      let e := (Sample.setting hash).establisher Sample.aliceKey .accept
      ∀ t ∈ (e.signingStep (Sample.tools hash)).trace (e.signingStep (Sample.tools hash)).init
          [.input (.deliver (Sample.bobMessage 1) Sample.bobKey.publicKey)],
        (t.1.onEvent (Sample.tools hash) t.2).PromisesRight (Sample.tools hash) := by
  rintro ⟨hash, hclaim⟩
  let e := ((Sample.setting hash).establisher Sample.aliceKey .accept).started
  have hslot : e.HasSlot 1 1 :=
    (sized_started _ 1 1).mpr ⟨(by decide : 1 ≤ 2 + 1), (by decide : 1 < 2)⟩
  have haccepted := Sample.bobMessage_accepted hash le_rfl (by omega) (show e.key = _ from rfl)
    (show e.contract = Sample.signing hash from rfl)
  have hstored : (e.onEvent (Sample.tools hash)
      (.input (.deliver (Sample.bobMessage 1) Sample.bobKey.publicKey))).stored 1 1 =
        some (Sample.bobPromise hash 1) := by
    obtain ⟨hne, hsame | hstore⟩ := haccepted.stores (show 1 ≤ 2 + 1 by decide) hslot
    · rw [hsame, stored_started] at hne
      exact absurd rfl hne
    · exact (congrArg (fun e' => stored e' 1 1) hstore).trans (stored_store_self hslot _)
  have hright := hclaim (e, _) List.mem_cons_self 1 1 Sample.bobKey
  obtain ⟨hkey, -, hterms⟩ := @onEvent_frame (Sample.tools hash) e
    (.input (.deliver (Sample.bobMessage 1) Sample.bobKey.publicKey))
  have hother : Sample.bobKey.publicKey ≠ e.key.publicKey :=
    (by decide +kernel : Sample.bobKey.publicKey ≠ Sample.aliceKey.publicKey)
  obtain ⟨-, -, -, res, first, second, hands, -⟩ :=
    hright _ (by rw [hterms]; rfl) (by rw [hkey]; exact hother) hstored
  -- a single clause, of no kind that a party makes
  have hlength : 1 = 2 := congrArg List.length hands
  exact absurd hlength (by decide)

end Establisher

end Sxp
