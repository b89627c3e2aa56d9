-- SUMMARY: Handlers called from within broadcasts: rounds are still sent once and in order, and every claim is complete.
import Sxp.Protocol.StoredPromises
import Sxp.Sigma.Completeness

/-!
# Re-entrant delivery

A broadcast calls the local listeners before it returns, and these may call the handlers of
the one that is broadcasting. The calls that wait inside a broadcast are a stack; everything
the innermost of them does when its broadcast returns is to look at the loop's condition again.
-/

/-- A list without gaps. -/
theorem List.exists_eq_map_some {α : Type*} {row : List (Option α)} (h : ∀ x ∈ row, x ≠ none) :
    ∃ xs : List α, row = xs.map some := by
  induction row with
  | nil => exact ⟨[], rfl⟩
  | cons x row ih =>
      obtain ⟨a, rfl⟩ := Option.ne_none_iff_exists'.mp (h x List.mem_cons_self)
      obtain ⟨xs, rfl⟩ := ih fun y hy => h y (List.mem_cons_of_mem _ hy)
      exact ⟨a :: xs, rfl⟩

namespace Sxp

variable (tools : StepTools)

/-! ## What is sent -/

/-- `e'` has sent what `e` has. -/
def Establisher.Silent (e e' : Establisher) : Prop :=
  e'.sent = e.sent ∧ e'.requests = e.requests

open Establisher (Silent)

/-- A request is for the promises of the round before. -/
theorem ProtocolResolve.sendMessage_outgoing (e : Establisher) (coins : Nat) :
    let e' := (sendMessage tools e coins).1
    e'.sent = e.sent ∧ (e'.requests = e.requests ∨ ∃ q, e'.requests = e.requests ++ [q] ∧
      q.round = (e.round : Int) - 1 ∧ q.m = claim tools e) := by
  intro e'
  simp only [e', sendMessage]
  split
  · exact ⟨rfl, Or.inl rfl⟩
  · exact ⟨rfl, Or.inr ⟨_, rfl, rfl, rfl⟩⟩

namespace ProtocolSign

theorem silent_keeps (e : Establisher) : Establisher.Keeps tools (Silent e) where
  resolver _ _ h := h
  addSignature _ _ _ h := h
  isFinalized _ h := h
  setStatus _ _ _ h := h

theorem fillContent_silent (coins : Nat → Nat) (ks : List (ElGamalKey × Nat)) (e : Establisher)
    (content : HashMap Int String) : e.Silent (fillContent tools coins ks e content).1 :=
  (silent_keeps tools e).fillContent (fun _ _ _ _ h _ _ => h) ⟨rfl, rfl⟩ content

/-- One message of the current round, or one request, or nothing. -/
theorem sendMessage_outgoing (e : Establisher) (coins : Nat → Nat) :
    let e' := (sendMessage tools e coins).1
    (e'.sent = e.sent ∨
      ∃ content, e'.sent = e.sent ++ [{ round := some (e.round : Int), entries := content }]) ∧
    (e'.requests = e.requests ∨ ∃ q, e'.requests = e.requests ++ [q] ∧
      q.round = (e.round : Int) - 1 ∧ q.m = ProtocolResolve.claim tools e) := by
  intro e'
  have hsilent := fillContent_silent tools coins e.contract.parties.zipIdx e {}
  rcases sendMessage_cases tools e coins with hasks | hfilled | ⟨content, hsends⟩
  · obtain ⟨hsent, hrequests⟩ := ProtocolResolve.sendMessage_outgoing tools e (coins 0)
    rw [← hasks] at hsent hrequests
    exact ⟨Or.inl hsent, hrequests⟩
  · rw [← hfilled] at hsilent
    exact ⟨Or.inl hsilent.1, Or.inl hsilent.2⟩
  · have hround := (fillContent_moves_all tools coins e).round
    simp only [e', hsends]
    refine ⟨Or.inr ⟨content, ?_⟩, Or.inl hsilent.2⟩
    rw [hsilent.1, hround]

theorem verifyAndStoreSignature_silent (e : Establisher) (message : SignMessage) (pubK : Int) :
    e.Silent (verifyAndStoreSignature tools e message pubK).1 :=
  (silent_keeps tools e).verifyAndStoreSignature ⟨rfl, rfl⟩ fun _ _ _ _ => ⟨rfl, rfl⟩

end ProtocolSign

namespace Establisher

variable {tools}

/-- Only the next round's message is ever added by an input. -/
theorem handle_sent (e : Establisher) (x : LocalInput) :
    (e.handle tools x).sent = e.sent ∨
      (ProtocolSign.CanAdvance e ∧ ∃ content, (e.handle tools x).sent =
        e.sent ++ [{ round := some ((e.round : Int) + 1), entries := content }]) := by
  cases x with
  | wish w => exact Or.inl rfl
  | deliver message senderId =>
      exact Or.inl (ProtocolSign.verifyAndStoreSignature_silent tools e message senderId).1
  | advance coins =>
      simp only [handle]
      split
      · rename_i hadvance
        exact (ProtocolSign.sendMessage_outgoing tools e.nextRound coins).1.imp_right
          fun hnew => ⟨hadvance, hnew⟩
      · exact Or.inl rfl
  | ask coins => exact Or.inl (ProtocolResolve.sendMessage_outgoing tools e coins).1
  | trentMessage data senderId =>
      exact Or.inl (ProtocolResolve.notify_adjusts tools e data senderId).sent

/-- A request that an input adds claims the promises of the round before the input's. -/
theorem handle_requests (e : Establisher) (x : LocalInput) :
    let e' := e.handle tools x
    e'.requests = e.requests ∨ ∃ q e₁, e'.requests = e.requests ++ [q] ∧
      (e₁ = e ∨ ProtocolSign.CanAdvance e ∧ e₁ = e.nextRound) ∧
      q.round = (e₁.round : Int) - 1 ∧ q.m = ProtocolResolve.claim tools e₁ := by
  intro e'
  cases x with
  | wish w => exact Or.inl rfl
  | deliver message senderId =>
      exact Or.inl (ProtocolSign.verifyAndStoreSignature_silent tools e message senderId).2
  | advance coins =>
      simp only [e', handle]
      split
      · rename_i hadvance
        rcases (ProtocolSign.sendMessage_outgoing tools e.nextRound coins).2 with
          hsame | ⟨q, heq, hq⟩
        · exact Or.inl hsame
        · exact Or.inr ⟨q, e.nextRound, heq, Or.inr ⟨hadvance, rfl⟩, hq⟩
      · exact Or.inl rfl
  | ask coins =>
      rcases (ProtocolResolve.sendMessage_outgoing tools e coins).2 with hsame | ⟨q, heq, hq⟩
      · exact Or.inl hsame
      · exact Or.inr ⟨q, e, heq, Or.inl rfl, hq⟩
  | trentMessage data senderId =>
      exact Or.inl (ProtocolResolve.notify_adjusts tools e data senderId).requests

end Establisher

/-! ## Calls that wait -/

/-- A call that waits for its broadcast to return: the loop of the handler, or a caller that
is done then. -/
inductive Frame where
  | loop
  | caller
deriving Repr, DecidableEq

/-- An establisher with the calls that wait, the innermost one first. -/
structure Activity where
  e : Establisher
  begun : Bool := false
  stack : List Frame := []
deriving Repr, DecidableEq

inductive CallEvent where
  /-- The first message, which is sent once. -/
  | begin (coins : Nat → Nat)
  /-- The handler of signing messages, up to its first broadcast. -/
  | call (message : SignMessage) (senderId : Int) (coins : Nat → Nat)
  /-- The innermost broadcast returns. -/
  | return (coins : Nat → Nat)
  /-- The innermost broadcast ends with an exception of a listener. -/
  | throw
  | wish (w : Wish)
  | ask (coins : Nat)
  | trentMessage (data : TrentMessage) (senderId : Int)

namespace Activity

/-- The effect of an operation that broadcasts at its end: unless it ends with an exception,
the call waits. -/
def broadcast (st : Activity) (frame : Frame) (r : Establisher × Except JavaException Unit) :
    Activity :=
  match r with
  | (e, .error _) => { st with e }
  | (e, .ok ()) => { st with e, stack := frame :: st.stack }

/-- The handler's loop looks at its condition. -/
def iterate (st : Activity) (coins : Nat → Nat) : Activity :=
  if ProtocolSign.CanAdvance st.e then st.broadcast .loop (ProtocolSign.advance tools st.e coins)
  else st

def step (st : Activity) : CallEvent → Activity
  | .begin coins =>
      if st.begun then st
      else { st with begun := true }.broadcast .caller (ProtocolSign.sendMessage tools st.e coins)
  | .call message senderId coins =>
      match ProtocolSign.verifyAndStoreSignature tools st.e message senderId with
      | (e, .error _) => { st with e }
      | (e, .ok ()) => { st with e }.iterate tools coins
  | .return coins =>
      match st.stack with
      | [] => st
      | .caller :: stack => { st with stack }
      | .loop :: stack => { st with stack }.iterate tools coins
  | .throw => { st with stack := st.stack.tail }
  | .wish w => { st with e := st.e.setWish w }
  | .ask coins => st.broadcast .caller (ProtocolResolve.sendMessage tools st.e coins)
  | .trentMessage data senderId =>
      { st with e := (ProtocolResolve.notify tools st.e data senderId).1 }

/-- The signing step of `e` with re-entrant calls. -/
def machine (e : Establisher) : Machine Activity CallEvent Unit where
  init := { e := e.started }
  step st ev := (st.step tools ev, ())

variable {tools}

@[simp] theorem broadcast_e (st : Activity) (frame : Frame)
    (r : Establisher × Except JavaException Unit) : (st.broadcast frame r).e = r.1 := by
  obtain ⟨e, _ | _⟩ := r <;> rfl

@[simp] theorem broadcast_begun (st : Activity) (frame : Frame)
    (r : Establisher × Except JavaException Unit) : (st.broadcast frame r).begun = st.begun := by
  obtain ⟨e, _ | _⟩ := r <;> rfl

theorem iterate_e (st : Activity) (coins : Nat → Nat) :
    (st.iterate tools coins).e = st.e.handle tools (.advance coins) ∧
      (st.iterate tools coins).begun = st.begun := by
  simp only [iterate, Establisher.handle]
  split
  · exact ⟨broadcast_e _ _ _, broadcast_begun _ _ _⟩
  · exact ⟨rfl, rfl⟩

/-- However calls are nested, an event is the first message or some inputs in a row. -/
theorem step_eq_handles (st : Activity) (ev : CallEvent) :
    (∃ coins, st.begun = false ∧ (st.step tools ev).begun = true ∧
      (st.step tools ev).e = (ProtocolSign.sendMessage tools st.e coins).1) ∨
    ((st.step tools ev).begun = st.begun ∧ ∃ inputs : List LocalInput,
      (st.step tools ev).e = inputs.foldl (Establisher.handle tools) st.e) := by
  cases ev with
  | begin coins =>
      simp only [step]
      cases hbegun : st.begun with
      | true => exact Or.inr ⟨hbegun, [], rfl⟩
      | false => exact Or.inl ⟨coins, rfl, by simp, by simp⟩
  | call message senderId coins =>
      refine Or.inr ?_
      simp only [step]
      split
      · rename_i e x heq
        exact ⟨rfl, [.deliver message senderId], by simp [Establisher.handle, heq]⟩
      · rename_i e heq
        obtain ⟨he, hbegun⟩ := @iterate_e tools { st with e } coins
        refine ⟨hbegun, [.deliver message senderId, .advance coins], ?_⟩
        rw [he, List.foldl_cons, List.foldl_cons, List.foldl_nil]
        congr 1
        simp [Establisher.handle, heq]
  | «return» coins =>
      refine Or.inr ?_
      simp only [step]
      split
      · exact ⟨rfl, [], rfl⟩
      · exact ⟨rfl, [], rfl⟩
      · rename_i stack hstack
        obtain ⟨he, hbegun⟩ := @iterate_e tools { st with stack } coins
        exact ⟨hbegun, [.advance coins], he⟩
  | throw => exact Or.inr ⟨rfl, [], rfl⟩
  | wish w => exact Or.inr ⟨rfl, [.wish w], rfl⟩
  | ask coins => exact Or.inr ⟨broadcast_begun _ _ _, [.ask coins], broadcast_e _ _ _⟩
  | trentMessage data senderId => exact Or.inr ⟨rfl, [.trentMessage data senderId], rfl⟩

end Activity

/-! ## A party with working keys -/

/-- A party of a contract whose promises to itself are made by `PCS`, with keys that fit. -/
structure SigningParty where
  tools : StepTools
  keys : ElGamalKeyPair
  trentKey : ElGamalKey
  terms : ContractTerms
  wish : Wish
  p : ℕ
  [prime : Fact p.Prime]
  member : ∃ party ∈ terms.parties, party.publicKey = keys.publicKey
  fits : ∀ party ∈ terms.parties, party.publicKey = keys.publicKey → KeysFor p keys party trentKey
  made : ∀ coins data party o,
    tools.getPcs coins keys.toElGamalKey trentKey data party = .ok o →
      ∃ (pcs pcs' : PCS) (k : Nat) (pcsCoins : PcsCoins), pcs.sender.keys = keys ∧
        pcs.trentK = trentKey ∧
        pcs.getPcs tools.hash data party true k pcsCoins = .ok (o, pcs')

namespace SigningParty

variable (S : SigningParty)

/-- The establisher of the party when Trent has just been chosen. -/
def establisher : Establisher where
  key := S.keys.toElGamalKey
  trentKey := S.trentKey
  contract := {
    toContractTerms := S.terms
    signer := { trentK := some S.trentKey, receiverK := none }
    wish := S.wish }

def machine : Machine Activity CallEvent Unit := Activity.machine S.tools S.establisher

/-- What the party promises itself is accepted. -/
theorem own_verifies {coins : Nat} {data : String} {party : ElGamalKey} {o : Or}
    (hmem : party ∈ S.terms.parties) (hown : party.publicKey = S.keys.publicKey)
    (h : S.tools.getPcs coins S.keys.toElGamalKey S.trentKey data party = .ok o) :
    o.verifies S.tools.hash data = .ok true := by
  have := S.prime
  obtain ⟨pcs, pcs', k, pcsCoins, hkeys, htrent, hmade⟩ := S.made coins data party o h
  obtain ⟨o', pcs'', hmade', hverifies⟩ :=
    (S.fits party hmem hown).getPcs_verifies S.tools.hash hkeys htrent data k pcsCoins
  rw [hmade, Except.ok.injEq] at hmade'
  rw [(Prod.mk.inj hmade').1]
  exact hverifies

/-! ## The invariant -/

/-- The first of two messages is of an earlier round. -/
def Before (m m' : SignMessage) : Prop :=
  ∃ r r' : Int, m.round = some r ∧ m'.round = some r' ∧ r < r'

/-- The promises of a round are all there and verify. -/
def Complete (e : Establisher) (round : Nat) : Prop :=
  ∃ ors : List Or, e.roundReceived[round]? = some (ors.map some) ∧ ors.length = e.N ∧
    ∀ o ∈ ors, o.verifies S.tools.hash (e.contract.roundData round) = .ok true

/-- A request claims all promises of its round, or none for round zero. -/
def CompleteClaim (q : ResolveMessage) : Prop :=
  0 ≤ q.round ∧ (1 ≤ q.round → ∃ ors : List Or, q.m = S.tools.claimToJson (ors.map some) ∧
    ors.length = S.terms.parties.length ∧
      ∀ o ∈ ors, o.verifies S.tools.hash (S.terms.roundData q.round) = .ok true)

/-- The rounds are consistent, all promises verify, messages go up, and before the first message
nothing is sent and no promise to itself is stored. -/
structure Orderly (begun : Bool) (e : Establisher) : Prop where
  key : e.key = S.keys.toElGamalKey
  trentKey : e.trentKey = S.trentKey
  terms : e.contract.toContractTerms = S.terms
  consistent : e.Consistent
  sized : e.Sized
  verified : ∀ r k o, e.stored r k = some o →
    o.verifies S.tools.hash (e.contract.roundData r) = .ok true
  increasing : e.sent.Pairwise Before
  claims : ∀ q ∈ e.requests, S.CompleteClaim q
  fresh : begun = false → e.sent = [] ∧ ∀ r k party, e.contract.parties[k]? = some party →
    party.publicKey = e.key.publicKey → e.stored r k = none

namespace Orderly

variable {S} {begun : Bool} {e : Establisher}

theorem N_eq (h : S.Orderly begun e) : e.N = S.terms.parties.length := by
  rw [Establisher.N, h.terms]

/-- A row without gaps is a list of promises that verify. -/
theorem complete (h : S.Orderly begun e) {r : Nat} (hr : r ≤ e.N + 1)
    (hall : ∀ k < e.N, e.stored r k ≠ none) : S.Complete e r := by
  obtain ⟨party, hmem, -⟩ := S.member
  have hpos : 0 < e.N := by
    rw [h.N_eq]
    exact List.length_pos_of_mem hmem
  obtain ⟨row, hrow, -⟩ := (h.sized r 0).mpr ⟨hr, hpos⟩
  have hslot : ∀ k, e.HasSlot r k ↔ k < row.length := by
    intro k
    simp only [Establisher.HasSlot, hrow, Option.some.injEq, exists_eq_left']
  have hlength : row.length = e.N := by
    have hlt : ∀ k, k < row.length ↔ k < e.N := by
      intro k
      rw [← hslot k, h.sized r k]
      exact ⟨fun hk => hk.2, fun hk => ⟨hr, hk⟩⟩
    exact Nat.le_antisymm (Nat.not_lt.mp fun hlt' => Nat.lt_irrefl _ ((hlt _).mp hlt'))
      (Nat.not_lt.mp fun hlt' => Nat.lt_irrefl _ ((hlt _).mpr hlt'))
  have hstored : ∀ k (hk : k < row.length), e.stored r k = row[k] := by
    intro k hk
    simp [Establisher.stored, hrow, hk]
  have hsome : ∀ x ∈ row, x ≠ none := by
    intro x hx
    obtain ⟨k, hk, rfl⟩ := List.getElem_of_mem hx
    rw [← hstored k hk]
    exact hall k (by omega)
  obtain ⟨ors, rfl⟩ := List.exists_eq_map_some hsome
  refine ⟨ors, hrow, by rwa [List.length_map] at hlength, fun o ho => ?_⟩
  obtain ⟨k, hk, hget⟩ := List.getElem_of_mem (List.mem_map_of_mem ho)
  exact h.verified r k o ((hstored k hk).trans hget)

/-- What is claimed of a round that was left, or is just being left, is complete. -/
theorem completeClaim (h : S.Orderly begun e) {q : ResolveMessage} {e₁ : Establisher}
    (he₁ : e₁ = e ∨ ProtocolSign.CanAdvance e ∧ e₁ = e.nextRound)
    (hround : q.round = (e₁.round : Int) - 1) (hm : q.m = ProtocolResolve.claim S.tools e₁) :
    S.CompleteClaim q := by
  have hconsistent : e₁.Consistent := by
    rcases he₁ with rfl | ⟨hadvance, rfl⟩
    · exact h.consistent
    · exact h.consistent.nextRound hadvance
  have hrows : e₁.roundReceived = e.roundReceived ∧ e₁.N = e.N := by
    rcases he₁ with rfl | ⟨-, rfl⟩
    · exact ⟨rfl, rfl⟩
    · exact ⟨rfl, rfl⟩
  have hpos := hconsistent.round_pos
  refine ⟨by omega, fun hq => ?_⟩
  have hall : ∀ k < e.N, e.stored (e₁.round - 1) k ≠ none := by
    intro k hk
    have hbehind := hconsistent.behind (e₁.round - 1) (by omega) (by omega) k (by rwa [hrows.2])
    rwa [Establisher.stored, hrows.1] at hbehind
  have hle := hconsistent.round_le
  rw [hrows.2] at hle
  obtain ⟨ors, hrow, hlength, hverifies⟩ := h.complete (by omega) hall
  refine ⟨ors, ?_, by rw [hlength, h.N_eq], fun o ho => ?_⟩
  · rw [hm, ProtocolResolve.claim, if_neg (by omega), hrows.1, hrow]
    rfl
  · have hdata := hverifies o ho
    rw [h.terms] at hdata
    rwa [hround, show (e₁.round : Int) - 1 = ((e₁.round - 1 : ℕ) : Int) by omega]

/-- Without its own promise no party goes on. -/
theorem not_canAdvance (h : S.Orderly false e) : ¬ ProtocolSign.CanAdvance e := by
  intro hadvance
  obtain ⟨party, hmem, hown⟩ := S.member
  have hmem' : party ∈ e.contract.parties := by
    rw [h.terms]
    exact hmem
  obtain ⟨k, hk, hget⟩ := List.getElem_of_mem hmem'
  have hparty : e.contract.parties[k]? = some party := by
    rw [List.getElem?_eq_getElem hk, hget]
  have hkey : party.publicKey = e.key.publicKey := by
    rw [h.key]
    exact hown
  exact Establisher.stored_of_claimFormed hadvance.1 hadvance.2.1 hk
    ((h.fresh rfl).2 e.round k party hparty hkey)

theorem makes_verifies (h : S.Orderly begun e) {r k : Nat} {o : Or} {e₁ : Establisher}
    (hkey : e₁.key = e.key) (htrent : e₁.trentKey = e.trentKey)
    (hcontract : e₁.contract = e.contract) (hmade : ProtocolSign.Makes S.tools e₁ r k o) :
    o.verifies S.tools.hash (e.contract.roundData r) = .ok true := by
  obtain ⟨-, party, coins, hparty, hown, hmade⟩ := hmade
  rw [hkey, htrent, hcontract, h.key, h.trentKey] at hmade
  rw [hkey, h.key] at hown
  rw [hcontract, h.terms] at hparty
  exact S.own_verifies (List.mem_of_getElem? hparty) hown hmade

theorem handle (h : S.Orderly begun e) (x : LocalInput) :
    S.Orderly begun (e.handle S.tools x) := by
  obtain ⟨hkey, htrent, hterms⟩ := @Establisher.onEvent_frame S.tools e (.input x)
  have hstores := e.handle_stores S.tools x
  change (e.handle S.tools x).key = e.key at hkey
  change (e.handle S.tools x).contract.toContractTerms = e.contract.toContractTerms at hterms
  refine {
    key := hkey.trans h.key
    trentKey := htrent.trans h.trentKey
    terms := hterms.trans h.terms
    consistent := h.consistent.handle x
    sized := h.sized.onEvent (.input x)
    verified := ?_
    increasing := ?_
    claims := ?_
    fresh := ?_ }
  · intro r k o ho
    rw [hterms]
    rcases hstores.stored r k o ho with hold | hnew
    · exact h.verified r k o hold
    · cases x with
      | deliver message senderId => exact hnew.1.verified
      | advance coins =>
          exact h.makes_verifies (show e.nextRound.key = e.key from rfl) rfl rfl hnew
      | wish w => cases hnew
      | ask coins => cases hnew
      | trentMessage data senderId => cases hnew
  · rcases @Establisher.handle_sent S.tools e x with hsame | ⟨-, content, hnew⟩
    · rw [hsame]
      exact h.increasing
    · rw [hnew, List.pairwise_append]
      refine ⟨h.increasing, List.pairwise_singleton _ _, fun m hm m' hm' => ?_⟩
      obtain ⟨r, hr, hle⟩ := h.consistent.sent_le m hm
      rw [List.mem_singleton.mp hm']
      exact ⟨r, _, hr, rfl, by omega⟩
  · intro q hq
    rcases @Establisher.handle_requests S.tools e x with hsame | ⟨q', e₁, hnew, he₁, hround, hm⟩
    · exact h.claims q (hsame ▸ hq)
    · rw [hnew] at hq
      rcases List.mem_append.mp hq with hold | hadded
      · exact h.claims q hold
      · rw [List.mem_singleton.mp hadded]
        exact h.completeClaim he₁ hround hm
  · rintro rfl
    obtain ⟨hsent, hown⟩ := h.fresh rfl
    refine ⟨?_, fun r k party hparty howner => ?_⟩
    · rcases @Establisher.handle_sent S.tools e x with hsame | ⟨hadvance, -⟩
      · rw [hsame, hsent]
      · exact absurd hadvance h.not_canAdvance
    · rw [hterms] at hparty
      rw [hkey] at howner
      rw [Option.eq_none_iff_forall_ne_some]
      intro o ho
      rcases hstores.stored r k o ho with hold | hnew
      · rw [hown r k party hparty howner] at hold
        cases hold
      · cases x with
        | deliver message senderId =>
            -- a message in its own name is not taken
            obtain ⟨hlt, hfound, -⟩ := List.findIdx?_eq_some_iff_getElem.mp hnew.1.sender
            rw [List.getElem?_eq_getElem hlt, Option.some.injEq] at hparty
            rw [hparty, beq_iff_eq] at hfound
            exact hnew.1.other (hfound.symm.trans howner)
        | advance coins =>
            rw [Establisher.handle, if_neg h.not_canAdvance, hown r k party hparty howner] at ho
            cases ho
        | wish w => cases hnew
        | ask coins => cases hnew
        | trentMessage data senderId => cases hnew

theorem begin (h : S.Orderly false e) (coins : Nat → Nat) :
    S.Orderly true (ProtocolSign.sendMessage S.tools e coins).1 := by
  have hmoves := ProtocolSign.sendMessage_moves S.tools e coins
  have hstores := ProtocolSign.sendMessage_stores S.tools e coins
  obtain ⟨hsent, hrequests⟩ := ProtocolSign.sendMessage_outgoing S.tools e coins
  refine {
    key := hmoves.key.trans h.key
    trentKey := hstores.trentKey.trans h.trentKey
    terms := hmoves.terms.trans h.terms
    consistent := h.consistent.moves hmoves
    sized := h.sized.stores hstores hmoves.N_eq
    verified := ?_
    increasing := ?_
    claims := ?_
    fresh := fun hbegun => by cases hbegun }
  · intro r k o ho
    rw [hmoves.terms]
    rcases hstores.stored r k o ho with hold | hnew
    · exact h.verified r k o hold
    · exact h.makes_verifies rfl rfl rfl hnew
  · rcases hsent with hsame | ⟨content, hnew⟩
    · rw [hsame]
      exact h.increasing
    · rw [hnew, (h.fresh rfl).1]
      exact List.pairwise_singleton _ _
  · intro q hq
    rcases hrequests with hsame | ⟨q', hnew, hround, hm⟩
    · exact h.claims q (hsame ▸ hq)
    · rw [hnew] at hq
      rcases List.mem_append.mp hq with hold | hadded
      · exact h.claims q hold
      · rw [List.mem_singleton.mp hadded]
        exact h.completeClaim (Or.inl rfl) hround hm

theorem step {st : Activity} (h : S.Orderly st.begun st.e) (ev : CallEvent) :
    S.Orderly (st.step S.tools ev).begun (st.step S.tools ev).e := by
  rcases st.step_eq_handles ev with ⟨coins, hbegun, hbegun', he⟩ | ⟨hbegun, inputs, he⟩
  · rw [hbegun] at h
    rw [hbegun', he]
    exact h.begin coins
  · rw [hbegun, he]
    clear he hbegun
    generalize st.e = e at h
    induction inputs generalizing e with
    | nil => exact h
    | cons x inputs ih => exact ih _ (h.handle x)

end Orderly

theorem orderly_started : S.Orderly false S.establisher.started where
  key := rfl
  trentKey := rfl
  terms := rfl
  consistent := Establisher.consistent_started rfl rfl
  sized := Establisher.sized_started _
  verified r k o ho := by
    rw [Establisher.stored_started] at ho
    cases ho
  increasing := List.Pairwise.nil
  claims := by simp [Establisher.started, Establisher.setStatus, establisher]
  fresh _ := ⟨rfl, fun r k _ _ _ => Establisher.stored_started _ r k⟩

/-- However deliveries, broadcasts, exceptions, the user and Trent are interleaved and nested:
rounds stay in range, each is broadcast at most once and in order, everything before the current
round is complete, and so is every claim, made or about to be made. -/
theorem reentrant_run_orderly (events : List CallEvent) :
    let e := (S.machine.exec S.machine.init events).e
    (1 ≤ e.round ∧ e.round ≤ S.terms.parties.length + 2) ∧
    e.sent.Pairwise Before ∧
    (∀ r, 1 ≤ r → r < e.round → S.Complete e r) ∧
    (2 ≤ e.round → ∃ ors : List Or,
      ProtocolResolve.claim S.tools e = S.tools.claimToJson (ors.map some) ∧
        ors.length = S.terms.parties.length ∧
        ∀ o ∈ ors, o.verifies S.tools.hash (S.terms.roundData (e.round - 1)) = .ok true) ∧
    ∀ q ∈ e.requests, S.CompleteClaim q := by
  intro e
  have h : S.Orderly _ e := S.machine.exec_preserves
    (P := fun st => S.Orderly st.begun st.e) (fun _ ev h => h.step ev) S.orderly_started events
  have hle := h.consistent.round_le
  rw [h.N_eq] at hle
  have hcomplete : ∀ r, 1 ≤ r → r < e.round → S.Complete e r := by
    intro r hpos hr
    have hN := h.N_eq
    exact h.complete (by omega) (h.consistent.behind r hpos hr)
  refine ⟨⟨h.consistent.round_pos, hle⟩, h.increasing, hcomplete, fun htwo => ?_, h.claims⟩
  obtain ⟨ors, hrow, hlength, hverifies⟩ := hcomplete (e.round - 1) (by omega) (by omega)
  refine ⟨ors, ?_, by rw [hlength, h.N_eq], fun o ho => ?_⟩
  · rw [ProtocolResolve.claim, if_neg (by omega), hrow]
    rfl
  · have hdata := hverifies o ho
    rwa [h.terms, show ((e.round - 1 : ℕ) : Int) = (e.round : Int) - 1 by omega] at hdata

end SigningParty

namespace Sample

variable (hash : String → Int)

/-- The tools of the code for the first of three keys, with a transport in clear. -/
def codeTools : StepTools where
  hash := hash
  getPcs k _ trentK data receiverK :=
    ((PCS.create { keys := keysOf 200 } trentK).getPcs hash data receiverK true k {}).map Prod.fst
  getClearSignature k _ trentK data receiverK :=
    (PCS.create { keys := keysOf 200 } trentK).getClearSignature hash data receiverK { k }
  sign k _ signer text := signer.sign hash (keysOf 200) text { k }
  encryptMsg _ text _ := .ok text
  decryptMsg text _ := .ok text
  getJson _ := "promise"
  getPrivateCS _ := none
  signatureToJson _ := "signature"
  signatureOfJson _ := none
  claimToJson _ := "claim"
  signaturesOfJson _ := none

/-- There are such parties. -/
def signingParty : SigningParty where
  tools := codeTools hash
  keys := keysOf 200
  trentKey := (keysOf 202).toElGamalKey
  terms := { parties := [(keysOf 200).toElGamalKey, (keysOf 201).toElGamalKey],
             clauses := ["offer"] }
  wish := .accept
  p := prime
  member := ⟨_, List.mem_cons_self, rfl⟩
  fits party hmem _ := by
    rcases List.mem_pair.mp hmem with rfl | rfl
    · exact keysFor_of (by decide) 200 202
    · exact keysFor_of (by decide) 201 202
  made k data party o h := by
    simp only [codeTools, Except.map] at h
    split at h
    · cases h
    · rename_i r heq
      rw [Except.ok.injEq] at h
      refine ⟨PCS.create { keys := keysOf 200 } (keysOf 202).toElGamalKey, r.2, k, {}, rfl, rfl, ?_⟩
      rw [← h]
      exact heq

end Sample

end Sxp
