-- SUMMARY: Signing messages of strangers, for rounds that do not exist, or without an entry: which of them the handler passes over, and what the others do to the listeners that come after it.
import Sxp.Protocol.StoredPromises
import Sxp.Protocol.Terminal

/-!
# Malformed messages

The handler looks for the sender in the list of parties, reads the round and indexes its array
before it checks anything, so that it throws on most of the messages that are not for it. It is
called from a loop over all listeners, which an exception ends.
-/

namespace Sxp

/-! ## The loop over the listeners -/

/-- A listener of the service, which acts on the state of the virtual machine. -/
structure ListenerWithParam (σ : Type) where
  param : Option String
  notify : String → String → String → σ → σ × Except JavaException Unit

namespace JxtaEstablisherService

variable {σ : Type}

/-- The loop of `sendContract` over the local listeners. -/
def notifyListeners (title data sourceKey : String) : List (ListenerWithParam σ) → σ →
    σ × Except JavaException Unit
  | [], s => (s, .ok ())
  | l :: rest, s =>
      if l.param = none ∨ l.param = some title then
        match l.notify title data sourceKey s with
        | (s, .error x) => (s, .error x)
        | (s, .ok ()) => notifyListeners title data sourceKey rest s
      else notifyListeners title data sourceKey rest s

/-- The listeners that come later are notified if none before them throws. -/
theorem notifyListeners_append {title data sourceKey : String}
    {before : List (ListenerWithParam σ)} {s s' : σ}
    (h : notifyListeners title data sourceKey before s = (s', .ok ()))
    (rest : List (ListenerWithParam σ)) :
    notifyListeners title data sourceKey (before ++ rest) s =
    notifyListeners title data sourceKey rest s' := by
  induction before generalizing s with
  | nil =>
      cases h
      rfl
  | cons l before ih =>
      rw [List.cons_append, notifyListeners]
      rw [notifyListeners] at h
      split at h
      · rename_i hparam
        rw [if_pos hparam]
        split at h
        · cases h
        · exact ih h
      · rename_i hparam
        rw [if_neg hparam]
        exact ih h

end JxtaEstablisherService

/-! ## The array -/

namespace Establisher

/-- The array is the one that was made for the contract: N + 2 rounds, with a place for every
party. -/
structure Arrayed (e : Establisher) : Prop where
  rows : e.roundReceived.length = e.N + 2
  sized : e.Sized

theorem arrayed_started (e : Establisher) : e.started.Arrayed where
  rows := List.length_replicate
  sized := e.sized_started

variable (tools : StepTools)

/-- `e'` has as many rows as `e`. -/
def SameRows (e e' : Establisher) : Prop := e'.roundReceived.length = e.roundReceived.length

theorem sameRows_store (e : Establisher) (r k : Nat) (o : Or) : e.SameRows (e.store r k o) :=
  List.length_modify ..

theorem sameRows_keeps (e : Establisher) : Keeps tools (SameRows e) where
  resolver _ _ h := h
  addSignature _ _ _ h := h
  isFinalized _ h := h
  setStatus _ _ _ h := h

end Establisher

open Establisher (SameRows)

variable (tools : StepTools)

theorem ProtocolResolve.sendMessage_sameRows (e : Establisher) (coins : Nat) :
    e.SameRows (sendMessage tools e coins).1 := by
  simp only [sendMessage]
  split <;> rfl

theorem ProtocolSign.sendMessage_sameRows (e : Establisher) (coins : Nat → Nat) :
    e.SameRows (sendMessage tools e coins).1 := by
  have hfill : e.SameRows (fillContent tools coins e.contract.parties.zipIdx e {}).1 :=
    (Establisher.sameRows_keeps tools e).fillContent
      (fun e' x _ p h _ _ => (Establisher.sameRows_store e' _ _ p).trans h) rfl {}
  rcases sendMessage_cases tools e coins with hasks | hfilled | ⟨content, hsends⟩
  · rw [hasks]
    exact ProtocolResolve.sendMessage_sameRows tools e (coins 0)
  · rwa [hfilled]
  · rw [hsends]
    exact hfill

namespace Establisher

theorem onEvent_sameRows (e : Establisher) (ev : SignEvent) : e.SameRows (e.onEvent tools ev) := by
  cases ev with
  | send coins => exact ProtocolSign.sendMessage_sameRows tools e coins
  | input x =>
      cases x with
      | wish w => rfl
      | deliver message senderId =>
          exact (sameRows_keeps tools e).verifyAndStoreSignature rfl fun r i o _ =>
            sameRows_store e r i o
      | advance coins =>
          rw [onEvent, handle]
          split
          · exact ProtocolSign.sendMessage_sameRows tools e.nextRound coins
          · rfl
      | ask coins => exact ProtocolResolve.sendMessage_sameRows tools e coins
      | trentMessage data senderId => exact (sameRows_keeps tools e).notify rfl data senderId

theorem Arrayed.onEvent {e : Establisher} (h : e.Arrayed) (ev : SignEvent) :
    (e.onEvent tools ev).Arrayed where
  rows := by
    have hN : (e.onEvent tools ev).N = e.N := by
      rw [N, N, (onEvent_frame e ev).2.2]
    rw [hN, e.onEvent_sameRows tools ev, h.rows]
  sized := h.sized.onEvent ev

/-- The array keeps its size through the signing step. -/
theorem signingStep_arrayed (e : Establisher) (events : List SignEvent) :
    ((e.signingStep tools).exec (e.signingStep tools).init events).Arrayed :=
  (e.signingStep tools).exec_preserves (P := Arrayed) (fun _ ev h =>
    h.onEvent tools ev) e.arrayed_started events

end Establisher

/-! ## What the handler does not take back -/

/-- The round only grows, and what is stored stays. -/
structure Establisher.Grows (e e' : Establisher) : Prop where
  round : e.round ≤ e'.round
  kept : ∀ r k, e.stored r k ≠ none → e'.stored r k ≠ none

theorem Establisher.Grows.trans {e e' e'' : Establisher} (h : Grows e e') (h' : Grows e' e'') :
    Grows e e'' where
  round := h.round.trans h'.round
  kept r k hk := h'.kept r k (h.kept r k hk)

namespace ProtocolSign

open Establisher (Grows)

theorem advance_grows (e : Establisher) (coins : Nat → Nat) :
    Grows e.nextRound (advance tools e coins).1 := by
  have hmoves := sendMessage_moves tools e.nextRound coins
  exact ⟨hmoves.round.ge, hmoves.kept⟩

theorem advanceLoop_grows (coins : Nat → Nat → Nat) (n : Nat) (e : Establisher) :
    Grows e (advanceLoop tools coins n e).1 := by
  induction n generalizing e with
  | zero => exact ⟨le_rfl, fun _ _ h => h⟩
  | succ n ih =>
      have hnext : Grows e e.nextRound := ⟨Nat.le_succ _, fun _ _ h => h⟩
      have hadvance := hnext.trans (advance_grows tools e (coins n))
      unfold advanceLoop
      split
      · split
        · rename_i heq
          rw [heq] at hadvance
          exact hadvance
        · rename_i e' heq
          rw [heq] at hadvance
          exact hadvance.trans (ih e')
      · exact ⟨le_rfl, fun _ _ h => h⟩

/-- A loop that has something to do changes the round. -/
theorem advanceLoop_round_lt {coins : Nat → Nat → Nat} {n : Nat} {e : Establisher}
    (hadvance : CanAdvance e) (hn : n ≠ 0) : e.round < (advanceLoop tools coins n e).1.round := by
  obtain ⟨n, rfl⟩ := Nat.exists_eq_succ_of_ne_zero hn
  have hgrows := advance_grows tools e (coins n)
  rw [advanceLoop, if_pos hadvance]
  split
  · rename_i heq
    rw [heq] at hgrows
    exact hgrows.round
  · rename_i e' heq
    rw [heq] at hgrows
    exact (hgrows.trans (advanceLoop_grows tools coins n e')).round

theorem advanceLoop_of_not {coins : Nat → Nat → Nat} {n : Nat} {e : Establisher}
    (hadvance : ¬ CanAdvance e) : advanceLoop tools coins n e = (e, .ok ()) := by
  cases n with
  | zero => rfl
  | succ n => rw [advanceLoop, if_neg hadvance]

/-! ## Malformed messages -/

/-- The message is not for this party: its sender is none of the parties, its round does not
exist, or it has no entry for this party. -/
def Misdirected (e : Establisher) (message : SignMessage) (pubK : Int) : Prop :=
  (∀ party ∈ e.contract.parties, party.publicKey ≠ pubK) ∨
    (∀ k, message.round = some k → ¬ (1 ≤ k ∧ k ≤ (e.N : Int) + 2)) ∨
    message.entries.get e.key.publicKey = none

/-- The text is a promise that does not verify for round 0. -/
def Unverified (e : Establisher) (text : String) : Prop :=
  ∃ msg pcs, tools.decryptMsg text e.key = .ok msg ∧ tools.getPrivateCS msg = some pcs ∧
    pcs.verifies tools.hash (e.contract.roundData 0) = .ok false

/-- The sender is this party itself; or a party whose place in a round of the array is taken, or
whose promise for round 0 does not verify. -/
def Skips (e : Establisher) (message : SignMessage) (pubK : Int) : Prop :=
  ∃ i k, e.contract.parties.findIdx? (fun party => party.publicKey == pubK) = some i ∧
    message.round = some k ∧ (pubK = e.key.publicKey ∨ (0 ≤ k ∧ k ≤ (e.N : Int) + 1) ∧
      (e.stored k.toNat i ≠ none ∨
        k = 0 ∧ ∃ text, message.entries.get e.key.publicKey = some text ∧ Unverified tools e text))

variable {tools} {e : Establisher} {message : SignMessage} {pubK : Int} {i : Nat} {k : Int}

theorem receivedAt_of_range (harrayed : e.Arrayed) (hk : 0 ≤ k ∧ k ≤ (e.N : Int) + 1) :
    receivedAt e k i = .ok (e.stored k.toNat i) := by
  have hrow : k.toNat < e.roundReceived.length := by
    rw [harrayed.rows]
    omega
  rw [receivedAt, if_neg (by omega), List.getElem?_eq_getElem hrow]

theorem receivedAt_of_not_range (harrayed : e.Arrayed) (hk : ¬ (0 ≤ k ∧ k ≤ (e.N : Int) + 1)) :
    receivedAt e k i = .error .indexOutOfBounds := by
  rw [receivedAt]
  split
  · rfl
  · rw [List.getElem?_eq_none]
    rw [harrayed.rows]
    omega

/-- A message that is passed over changes nothing. -/
theorem verifyAndStoreSignature_of_skips (harrayed : e.Arrayed) (h : Skips tools e message pubK) :
    verifyAndStoreSignature tools e message pubK = (e, .ok ()) := by
  obtain ⟨i, k, hfound, hround, hcase⟩ := h
  obtain ⟨hlt, hsender, -⟩ := List.findIdx?_eq_some_iff_getElem.mp hfound
  have hkey : (e.contract.parties[i]).publicKey = pubK := beq_iff_eq.mp hsender
  unfold verifyAndStoreSignature
  simp only [hfound, List.getElem?_eq_getElem hlt, hround, hkey]
  by_cases hown : pubK = e.key.publicKey
  · rw [if_pos hown]
  · obtain ⟨hrange, hplace⟩ := hcase.resolve_left hown
    have hlast : ¬ k = (e.N : Int) + 2 := by omega
    rw [if_neg hown, if_neg hlast, receivedAt_of_range harrayed hrange]
    cases hstored : e.stored k.toNat i with
    | some o => rfl
    | none =>
        obtain ⟨rfl, text, hentry, msg, pcs, hmsg, hpcs, hverifies⟩ :=
          hplace.resolve_left (not_not.mpr hstored)
        rw [hentry]
        simp only [storePromise, hmsg, hpcs]
        rw [show ((Int.toNat 0 : Nat) : Int) = 0 from rfl, hverifies]

/-- A text that is no refuted promise for round 0 throws, or is stored. -/
theorem storePromise_of_not_unverified {text : String} (hslot : e.HasSlot 0 i)
    (h : ¬ Unverified tools e text) :
    (∃ x, (storePromise tools e 0 i text).2 = .error x) ∨
    (storePromise tools e 0 i text).1.stored 0 i ≠ none := by
  unfold storePromise
  split
  · exact Or.inl ⟨_, rfl⟩
  · rename_i msg hmsg
    split
    · exact Or.inl ⟨_, rfl⟩
    · rename_i pcs hpcs
      split
      · exact Or.inl ⟨_, rfl⟩
      · refine Or.inr ?_
        rw [Establisher.stored_store_self hslot]
        exact Option.some_ne_none pcs
      · rename_i hverifies
        exact absurd ⟨msg, pcs, hmsg, hpcs, hverifies⟩ h

/-- A message that is not for this party and is not passed over throws, or is stored. -/
theorem verifyAndStoreSignature_of_not_skips (harrayed : e.Arrayed)
    (hmis : Misdirected e message pubK) (h : ¬ Skips tools e message pubK) :
    (∃ x, (verifyAndStoreSignature tools e message pubK).2 = .error x) ∨
      ∃ r i, e.stored r i = none ∧
      (verifyAndStoreSignature tools e message pubK).1.stored r i ≠ none := by
  cases hfound : e.contract.parties.findIdx? fun party => party.publicKey == pubK with
  | none =>
      refine Or.inl ⟨.indexOutOfBounds, ?_⟩
      rw [verifyAndStoreSignature, hfound]
  | some i =>
      obtain ⟨hlt, hsender, -⟩ := List.findIdx?_eq_some_iff_getElem.mp hfound
      have hkey : (e.contract.parties[i]).publicKey = pubK := beq_iff_eq.mp hsender
      have hwrong := hmis.resolve_left fun hforeign => hforeign _ (List.getElem_mem hlt) hkey
      unfold verifyAndStoreSignature
      cases hround : message.round with
      | none =>
          simp only [hfound, List.getElem?_eq_getElem hlt]
          exact Or.inl ⟨_, rfl⟩
      | some k =>
          have hown : pubK ≠ e.key.publicKey := fun hown => h ⟨i, k, hfound, hround, Or.inl hown⟩
          simp only [hfound, List.getElem?_eq_getElem hlt, hkey, if_neg hown]
          by_cases hlast : k = (e.N : Int) + 2
          · have hentry := hwrong.resolve_left fun hrounds => hrounds k hround (by omega)
            rw [if_pos hlast, hentry]
            exact Or.inl ⟨_, rfl⟩
          · rw [if_neg hlast]
            by_cases hrange : 0 ≤ k ∧ k ≤ (e.N : Int) + 1
            · have hstored : e.stored k.toNat i = none := by
                by_contra hstored
                exact h ⟨i, k, hfound, hround, Or.inr ⟨hrange, Or.inl hstored⟩⟩
              rw [receivedAt_of_range harrayed hrange, hstored]
              cases hentry : message.entries.get e.key.publicKey with
              | none => exact Or.inl ⟨_, rfl⟩
              | some text =>
                  have hrounds := hwrong.resolve_right (by simp [hentry])
                  have hzero : k = 0 := by
                    have hk := hrounds k hround
                    omega
                  subst hzero
                  have hslot : e.HasSlot 0 i := (harrayed.sized 0 i).mpr ⟨Nat.zero_le _, hlt⟩
                  have hverified : ¬ Unverified tools e text := fun hunverified =>
                    h ⟨i, 0, hfound, hround,
                      Or.inr ⟨hrange, Or.inr ⟨rfl, text, hentry, hunverified⟩⟩⟩
                  exact (storePromise_of_not_unverified hslot hverified).imp_right fun hstores =>
                    ⟨0, i, hstored, hstores⟩
            · rw [receivedAt_of_not_range harrayed hrange]
              exact Or.inl ⟨_, rfl⟩

/-! ## Events -/

section

variable (tools) (ofJson : String → Option SignMessage)

/-- The listener on the texts of an event. What `data` is read as is null for a text that is no
message; a field of it is read after the sender was looked for. -/
def notifyTexts (e : Establisher) (data senderId : String) (coins : Nat → Nat → Nat) :
    Establisher × Except JavaException Unit :=
  match BigInteger.ofText senderId with
  | .error x => (e, .error x)
  | .ok pubK =>
      match ofJson data with
      | some message => notify tools e message pubK coins
      | none =>
          if e.contract.parties.any fun party =>
            party.publicKey == pubK then (e, .error .nullPointer)
          else (e, .error .indexOutOfBounds)

/-- The listener of an establisher that is a part of the state. -/
def listener {σ : Type} (own : σ → Establisher) (update : σ → Establisher → σ) (param : String)
    (coins : Nat → Nat → Nat) : ListenerWithParam σ where
  param := some param
  notify _ data senderId s :=
    let (e, r) := notifyTexts tools ofJson (own s) data senderId coins
    (update s e, r)

/-- The event is not for this party. -/
def Malformed (e : Establisher) (data senderId : String) : Prop :=
  (∀ party ∈ e.contract.parties, BigInteger.ofText senderId ≠ .ok party.publicKey) ∨
    (∀ message k, ofJson data = some message → message.round = some k →
      ¬ (1 ≤ k ∧ k ≤ (e.N : Int) + 2)) ∨
    ∀ message, ofJson data = some message → message.entries.get e.key.publicKey = none

/-- The event is handled normally, changes nothing, and reaches the listeners after this one. -/
structure Ignored (e : Establisher) (data senderId : String) (coins : Nat → Nat → Nat) : Prop where
  ends : (notifyTexts tools ofJson e data senderId coins).2 = .ok ()
  roundReceived : (notifyTexts tools ofJson e data senderId coins).1.roundReceived = e.roundReceived
  round : (notifyTexts tools ofJson e data senderId coins).1.round = e.round
  signatures : (notifyTexts tools ofJson e data senderId coins).1.contract.signatures =
    e.contract.signatures
  status : (notifyTexts tools ofJson e data senderId coins).1.contract.status = e.contract.status
  reaches : ∀ (σ : Type) (own : σ → Establisher) (update : σ → Establisher → σ) (title : String)
    (before after : List (ListenerWithParam σ)) (s s' : σ),
    JxtaEstablisherService.notifyListeners title data senderId before s = (s', .ok ()) →
      own s' = e → JxtaEstablisherService.notifyListeners title data senderId
          (before ++ listener tools ofJson own update title coins :: after) s =
        JxtaEstablisherService.notifyListeners title data senderId after
          (update s' (notifyTexts tools ofJson e data senderId coins).1)

/-- The loop of the handler has nothing to do, and the message is one that is passed over. -/
def PassedOver (e : Establisher) (data senderId : String) : Prop :=
  ¬ CanAdvance e ∧ ∃ pubK message, BigInteger.ofText senderId = .ok pubK ∧
    ofJson data = some message ∧ Skips tools e message pubK

end

theorem notifyListeners_listener {σ : Type} {ofJson : String → Option SignMessage}
    {own : σ → Establisher}
    {update : σ → Establisher → σ} {title data senderId : String} {coins : Nat → Nat → Nat} {s : σ}
    (hends : (notifyTexts tools ofJson (own s) data senderId coins).2 = .ok ())
    (after : List (ListenerWithParam σ)) :
    JxtaEstablisherService.notifyListeners title data senderId
        (listener tools ofJson own update title coins :: after) s =
      JxtaEstablisherService.notifyListeners title data senderId after
        (update s (notifyTexts tools ofJson (own s) data senderId coins).1) := by
  have hparam : (listener tools ofJson own update title coins).param = some title := rfl
  rw [JxtaEstablisherService.notifyListeners, if_pos (Or.inr hparam)]
  simp only [listener, hends]

/-- A message that is passed over is handled without an effect when the loop has nothing to do. -/
theorem notify_of_skips (harrayed : e.Arrayed) (hidle : ¬ CanAdvance e)
    (h : Skips tools e message pubK)
    (coins : Nat → Nat → Nat) : notify tools e message pubK coins = (e, .ok ()) := by
  rw [notify, verifyAndStoreSignature_of_skips harrayed h]
  exact advanceLoop_of_not tools hidle

/-- A message that is not for this party and is handled without an effect was passed over, and
the loop had nothing to do. -/
theorem skips_of_notify (harrayed : e.Arrayed) (hmis : Misdirected e message pubK)
    {coins : Nat → Nat → Nat} (hends : (notify tools e message pubK coins).2 = .ok ())
    (hreceived : (notify tools e message pubK coins).1.roundReceived = e.roundReceived)
    (hround : (notify tools e message pubK coins).1.round = e.round) :
    ¬ CanAdvance e ∧ Skips tools e message pubK := by
  by_cases hskips : Skips tools e message pubK
  · refine ⟨fun hadvance => ?_, hskips⟩
    rw [notify, verifyAndStoreSignature_of_skips harrayed hskips] at hround
    have hturns : e.N + 2 - e.round ≠ 0 := by
      have hle := hadvance.1
      omega
    exact absurd hround (advanceLoop_round_lt tools hadvance hturns).ne'
  · exfalso
    have hchanged := verifyAndStoreSignature_of_not_skips harrayed hmis hskips
    rw [notify] at hends hreceived
    rcases hverify : verifyAndStoreSignature tools e message pubK with ⟨e', x | _⟩
    · rw [hverify] at hends
      cases hends
    · rw [hverify] at hchanged hreceived
      rcases hchanged with ⟨x, hx⟩ | ⟨r, i, hempty, hstored⟩
      · cases hx
      -- what was stored is still there after the loop
      · have hkept := (advanceLoop_grows tools coins (e'.N + 2 - e'.round) e').kept r i hstored
        rw [Establisher.stored, hreceived] at hkept
        exact hkept hempty

theorem passedOver_of_ignored {ofJson : String → Option SignMessage} (harrayed : e.Arrayed)
    {data senderId : String} (hmal : Malformed ofJson e data senderId) {coins : Nat → Nat → Nat}
    (h : Ignored tools ofJson e data senderId coins) : PassedOver tools ofJson e data senderId := by
  obtain ⟨hends, hreceived, hround, -, -, -⟩ := h
  unfold notifyTexts at hends hreceived hround
  cases hsender : BigInteger.ofText senderId with
  | error x =>
      rw [hsender] at hends
      cases hends
  | ok pubK =>
      simp only [hsender] at hends hreceived hround
      cases hdata : ofJson data with
      | none =>
          simp only [hdata] at hends
          split at hends <;> cases hends
      | some message =>
          simp only [hdata] at hends hreceived hround
          have hmis : Misdirected e message pubK := by
            refine hmal.imp (fun hforeign party hparty hkey => ?_)
              (Or.imp (fun hrounds k => hrounds message k hdata) (fun hentry =>
                hentry message hdata))
            exact hforeign party hparty (hkey ▸ hsender)
          obtain ⟨hidle, hskips⟩ := skips_of_notify harrayed hmis hends hreceived hround
          exact ⟨hidle, pubK, message, hsender, hdata, hskips⟩

theorem ignored_of_passedOver {ofJson : String → Option SignMessage} (harrayed : e.Arrayed)
    {data senderId : String}
    (h : PassedOver tools ofJson e data senderId) (coins : Nat → Nat → Nat) :
    Ignored tools ofJson e data senderId coins := by
  obtain ⟨hidle, pubK, message, hsender, hdata, hskips⟩ := h
  have hnotify : notifyTexts tools ofJson e data senderId coins = (e, .ok ()) := by
    simp only [notifyTexts, hsender, hdata]
    exact notify_of_skips harrayed hidle hskips coins
  refine ⟨by rw [hnotify], by rw [hnotify], by rw [hnotify], by rw [hnotify], by rw [hnotify], ?_⟩
  intro σ own update title before after s s' hbefore hown
  subst hown
  rw [JxtaEstablisherService.notifyListeners_append hbefore]
  exact notifyListeners_listener (by rw [hnotify]) after

/-- An event that is not for a party is ignored, and reaches the listeners after it, exactly if it
is passed over. -/
theorem ignored_iff (tools : StepTools) (ofJson : String → Option SignMessage) {e : Establisher}
    (harrayed : e.Arrayed)
    {data senderId : String} (hmal : Malformed ofJson e data senderId) (coins : Nat → Nat → Nat) :
    Ignored tools ofJson e data senderId coins ↔ PassedOver tools ofJson e data senderId :=
  ⟨passedOver_of_ignored harrayed hmal, fun h => ignored_of_passedOver harrayed h coins⟩

end ProtocolSign

namespace Sample

/-- A message for a round that does not exist, with entries for nobody. -/
def roundZero : SignMessage where
  round := some 0
  entries := {}

/-- Bob in the signing step, with nothing stored yet. -/
def waitingBob : Establisher := (bobParty fun _ => 0).started

end Sample

namespace ProtocolSign

theorem roundZero_malformed (senderId : String) :
    Malformed (fun _ => some Sample.roundZero) Sample.waitingBob "0" senderId := by
  refine Or.inr (Or.inr ?_)
  rintro message hmessage
  cases hmessage
  rfl

/-- What Bob's own listener gets from Bob is passed over. -/
theorem ignored_iff_own : Ignored (Sample.bobTools fun _ => 0) (fun _ =>
    some Sample.roundZero) Sample.waitingBob "0"
    (BigInteger.text Sample.bobKey.publicKey) (fun _ _ => 0) := by
  have hwaiting : claimFormed Sample.waitingBob = false := by
    decide +kernel
  have hbob : Sample.waitingBob.contract.parties.findIdx? (fun party =>
      party.publicKey == Sample.bobKey.publicKey) = some 1 := by
    decide +kernel
  refine (ignored_iff _ _ (Establisher.arrayed_started _) (roundZero_malformed _) _).mpr ⟨?_, ?_⟩
  · rintro ⟨-, hformed, -⟩
    exact absurd (hwaiting.symm.trans hformed) Bool.false_ne_true
  · exact ⟨_, _, BigInteger.ofText_text _, rfl, 1, 0, hbob, rfl, Or.inl rfl⟩

/-- A message of a stranger throws. -/
theorem stranger_not_ignored :
    Malformed (fun _ => some Sample.roundZero) Sample.waitingBob "0" "5" ∧
    ¬ Ignored (Sample.bobTools fun _ => 0) (fun _ =>
      some Sample.roundZero) Sample.waitingBob "0" "5" (fun _ _ => 0) := by
  refine ⟨roundZero_malformed _, fun hignored => ?_⟩
  have hnobody : Sample.waitingBob.contract.parties.findIdx? (fun party =>
    party.publicKey == 5) = none := by
    decide +kernel
  obtain ⟨-, pubK, message, hsender, -, i, k, hfound, -, -⟩ :=
    passedOver_of_ignored (Establisher.arrayed_started _) (roundZero_malformed _) hignored
  have hfive : BigInteger.ofText "5" = .ok 5 := by
    rfl
  obtain rfl : (5 : Int) = pubK := Except.ok.inj (hfive.symm.trans hsender)
  cases hnobody.symm.trans hfound

end ProtocolSign

end Sxp
