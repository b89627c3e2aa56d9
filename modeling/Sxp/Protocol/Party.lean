-- SUMMARY: An establisher driven by inputs in any order, the invariant of its rounds, and the handler as a sequence of inputs.
import Sxp.Protocol.Moves

/-!
# Parties

The pieces of the two steps as inputs that can come in any order. The handler of
signing messages runs several of them in a row; whatever happens in between (a local
delivery calls handlers from within `sendMessage`) only interleaves more of them.
-/

namespace Sxp

/-- What can happen to an establisher whose steps are created. -/
inductive LocalInput where
  | wish (w : Wish)
  | deliver (message : SignMessage) (senderId : Int)
  | advance (coins : Nat → Nat)
  | ask (coins : Nat)
  | trentMessage (data : TrentMessage) (senderId : Int)

namespace Establisher

variable (tools : StepTools)

/-- The effect of an input. Going on is one iteration of the handler's loop and does nothing
where the loop would stop. -/
def handle (e : Establisher) : LocalInput → Establisher
  | .wish w => e.setWish w
  | .deliver message senderId => (ProtocolSign.verifyAndStoreSignature tools e message senderId).1
  | .advance coins =>
      if ProtocolSign.CanAdvance e then (ProtocolSign.advance tools e coins).1 else e
  | .ask coins => (ProtocolResolve.sendMessage tools e coins).1
  | .trentMessage data senderId => (ProtocolResolve.notify tools e data senderId).1

/-- The state in which the next round's promises are sent. -/
def nextRound (e : Establisher) : Establisher := { e with round := e.round + 1 }

/-- Where an input can store promises. -/
def sources (e : Establisher) : LocalInput → Nat → Nat → Prop
  | .deliver message senderId => ProtocolSign.From e message senderId
  | .advance _ => fun r k => ProtocolSign.CanAdvance e ∧ ProtocolSign.Own e.nextRound r k
  | _ => fun _ _ => False

/-- An input moves the establisher within its round, or takes it to the next round, which
needs a complete round and the status SIGNING. -/
theorem handle_cases (e : Establisher) (input : LocalInput) :
    Moves (e.sources input) e (e.handle tools input) ∨
      (ProtocolSign.CanAdvance e ∧ Moves (e.sources input) e.nextRound (e.handle tools input)) := by
  cases input with
  | wish w => exact Or.inl (Moves.ofContract _ e rfl id)
  | deliver message senderId =>
      exact Or.inl (ProtocolSign.verifyAndStoreSignature_moves tools e message senderId)
  | advance coins =>
      simp only [handle]
      split
      · rename_i hadvance
        exact Or.inr ⟨hadvance, (ProtocolSign.sendMessage_moves tools e.nextRound coins).mono
          fun r k hown => ⟨hadvance, hown⟩⟩
      · exact Or.inl (Moves.refl _ e)
  | ask coins => exact Or.inl (ProtocolResolve.sendMessage_moves tools _ e coins)
  | trentMessage data senderId =>
      exact Or.inl (ProtocolResolve.notify_moves tools _ e data senderId)

/-- The handler is a delivery followed by some iterations of its loop. -/
theorem notify_eq_handles (e : Establisher) (message : SignMessage) (senderId : Int)
    (coins : Nat → Nat → Nat) :
    ∃ inputs : List LocalInput, (ProtocolSign.notify tools e message senderId coins).1 =
      inputs.foldl (handle tools) e := by
  -- every iteration of the loop is one advance
  have hloop : ∀ (n : Nat) (e : Establisher), ∃ inputs : List LocalInput,
      (ProtocolSign.advanceLoop tools coins n e).1 = inputs.foldl (handle tools) e := by
    intro n
    induction n with
    | zero => exact fun e => ⟨[], rfl⟩
    | succ n ih =>
        intro e
        unfold ProtocolSign.advanceLoop
        split
        · rename_i hadvance
          have hhandle : e.handle tools (.advance (coins n)) =
              (ProtocolSign.advance tools e (coins n)).1 := if_pos hadvance
          split
          · rename_i heq
            exact ⟨[.advance (coins n)], by simp [hhandle, heq]⟩
          · rename_i e' heq
            obtain ⟨inputs, hinputs⟩ := ih e'
            exact ⟨.advance (coins n) :: inputs, by simp [hhandle, heq, hinputs]⟩
        · exact ⟨[], rfl⟩
  unfold ProtocolSign.notify
  split
  · rename_i heq
    exact ⟨[.deliver message senderId], by simp [handle, heq]⟩
  · rename_i e' heq
    obtain ⟨inputs, hinputs⟩ := hloop (e'.N + 2 - e'.round) e'
    exact ⟨.deliver message senderId :: inputs, by simp [handle, heq, hinputs]⟩

/-! ## The invariant of the rounds -/

/-- Rounds are finished one after the other, messages belong to rounds that were entered, and
whoever has asked Trent stays in the round it asked from. -/
structure Consistent (e : Establisher) : Prop where
  round_pos : 1 ≤ e.round
  round_le : e.round ≤ e.N + 2
  sent_le : ∀ msg ∈ e.sent, ∃ r : Nat, msg.round = some (r : Int) ∧ r ≤ e.round
  asked : ∀ q ∈ e.requests, q.round = (e.round : Int) - 1 ∧ e.contract.status ≠ .signing
  behind : ∀ r, 1 ≤ r → r < e.round → ∀ k < e.N, e.stored r k ≠ none

variable {tools}

theorem Consistent.moves {e e' : Establisher} {src : Nat → Nat → Prop} (h : e.Consistent)
    (hmoves : Moves src e e') : e'.Consistent where
  round_pos := by
    rw [hmoves.round]
    exact h.round_pos
  round_le := by
    rw [hmoves.round, hmoves.N_eq]
    exact h.round_le
  sent_le := by
    obtain ⟨new, heq, hnew⟩ := hmoves.sent
    intro msg hmsg
    rw [hmoves.round]
    rw [heq] at hmsg
    rcases List.mem_append.mp hmsg with hold | hadded
    · exact h.sent_le msg hold
    · exact ⟨e.round, hnew msg hadded, le_rfl⟩
  asked := by
    obtain ⟨new, heq, hnew⟩ := hmoves.requests
    intro q hq
    rw [hmoves.round]
    rw [heq] at hq
    rcases List.mem_append.mp hq with hold | hadded
    · obtain ⟨hround, hstatus⟩ := h.asked q hold
      exact ⟨hround, fun hs => hstatus (hmoves.signing hs)⟩
    · exact hnew q hadded
  behind := by
    intro r hpos hr k hk
    rw [hmoves.round] at hr
    rw [hmoves.N_eq] at hk
    exact hmoves.kept r k (h.behind r hpos hr k hk)

/-- A complete round has everybody's promise in it. -/
theorem stored_of_claimFormed {e : Establisher} (hround : e.round ≤ e.N + 1)
    (h : ProtocolSign.claimFormed e = true) {k : Nat} (hk : k < e.N) :
    e.stored e.round k ≠ none := by
  have hall := List.all_eq_true.mp h k (List.mem_range.mpr hk)
  have hlt : e.round < e.N + 2 := by omega
  intro hnone
  simp [hlt, hnone] at hall

theorem Consistent.nextRound {e : Establisher} (h : e.Consistent)
    (hadvance : ProtocolSign.CanAdvance e) : e.nextRound.Consistent where
  round_pos := Nat.succ_pos _
  round_le := Nat.succ_le_succ hadvance.1
  sent_le := by
    intro msg hmsg
    obtain ⟨r, hr, hle⟩ := h.sent_le msg hmsg
    exact ⟨r, hr, Nat.le_succ_of_le hle⟩
  -- whoever has asked is no longer signing and does not go on
  asked q hq := absurd hadvance.2.2 (h.asked q hq).2
  behind := by
    intro r hpos hr k hk
    rcases Nat.lt_succ_iff_lt_or_eq.mp hr with hlt | rfl
    · exact h.behind r hpos hlt k hk
    · exact stored_of_claimFormed hadvance.1 hadvance.2.1 hk

theorem Consistent.handle {e : Establisher} (h : e.Consistent) (input : LocalInput) :
    (e.handle tools input).Consistent := by
  rcases e.handle_cases tools input with hmoves | ⟨hadvance, hmoves⟩
  · exact h.moves hmoves
  · exact (h.nextRound hadvance).moves hmoves

/-- What an input never takes back. -/
structure Extends (e e' : Establisher) : Prop where
  key : e'.key = e.key
  terms : e'.contract.toContractTerms = e.contract.toContractTerms
  round : e.round ≤ e'.round
  sent : ∀ msg ∈ e.sent, msg ∈ e'.sent
  requests : ∀ q ∈ e.requests, q ∈ e'.requests

theorem Extends.refl (e : Establisher) : Extends e e :=
  ⟨rfl, rfl, le_rfl, fun _ h => h, fun _ h => h⟩

theorem Extends.trans {e e' e'' : Establisher} (h : Extends e e') (h' : Extends e' e'') :
    Extends e e'' where
  key := h'.key.trans h.key
  terms := h'.terms.trans h.terms
  round := h.round.trans h'.round
  sent msg hmsg := h'.sent msg (h.sent msg hmsg)
  requests q hq := h'.requests q (h.requests q hq)

theorem Moves.extends {src : Nat → Nat → Prop} {e e' : Establisher} (h : Moves src e e') :
    Extends e e' where
  key := h.key
  terms := h.terms
  round := h.round.ge
  sent msg hmsg := by
    obtain ⟨new, heq, -⟩ := h.sent
    rw [heq]
    exact List.mem_append_left _ hmsg
  requests q hq := by
    obtain ⟨new, heq, -⟩ := h.requests
    rw [heq]
    exact List.mem_append_left _ hq

theorem handle_extends (e : Establisher) (input : LocalInput) :
    Extends e (e.handle tools input) := by
  rcases e.handle_cases tools input with hmoves | ⟨-, hmoves⟩
  · exact hmoves.extends
  · exact { hmoves.extends with round := Nat.le_of_succ_le hmoves.extends.round }

/-- An input stores promises at its sources only. -/
theorem stored_handle {e : Establisher} {input : LocalInput} {r k : Nat}
    (h : (e.handle tools input).stored r k ≠ none) : e.stored r k ≠ none ∨ e.sources input r k := by
  rcases e.handle_cases tools input with hmoves | ⟨-, hmoves⟩
  · exact hmoves.stored r k h
  · exact hmoves.stored r k h

/-- What an establisher stores of its own belongs to a round it is in. -/
theorem own_source_le {e : Establisher} {coins : Nat → Nat} {r k : Nat}
    (h : e.sources (.advance coins) r k) : r ≤ (e.handle tools (.advance coins)).round := by
  obtain ⟨hadvance, hr, -⟩ := h
  have hmoves := ProtocolSign.sendMessage_moves tools e.nextRound coins
  rw [hr, handle, if_pos hadvance]
  exact hmoves.round.ge

/-- The establisher in which the first promises are sent. -/
def started (e : Establisher) : Establisher :=
  { e.setStatus .signing with
    resolver := { trentK := some e.trentKey, receiverK := none }
    round := 1
    roundReceived := List.replicate (e.N + 2) (List.replicate e.N none) }

theorem setListenerOnTrent_moves (e : Establisher) (coins : Nat → Nat) :
    Moves (ProtocolSign.Own e.started) e.started (e.setListenerOnTrent tools coins).1 :=
  ProtocolSign.sendMessage_moves tools e.started coins

theorem stored_started (e : Establisher) (r k : Nat) : e.started.stored r k = none := by
  simp only [Establisher.stored, started, List.getElem?_replicate]
  split
  · rw [Option.bind_some, List.getElem?_replicate]
    split <;> rfl
  · rfl

/-- An establisher that has sent nothing yet starts consistently. -/
theorem consistent_started {e : Establisher} (hsent : e.sent = []) (hrequests : e.requests = []) :
    e.started.Consistent where
  round_pos := le_rfl
  round_le := Nat.le_add_left 1 _
  sent_le := by simp [started, setStatus, hsent]
  asked := by simp [started, setStatus, hrequests]
  behind r hpos hr := absurd hr (Nat.not_lt.mpr hpos)

end Establisher

end Sxp
