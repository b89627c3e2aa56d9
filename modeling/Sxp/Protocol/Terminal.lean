-- SUMMARY: When FINALIZED and CANCELLED are final: which events change the status of a party that has reached one of them.
import Sxp.Protocol.Fairness

/-!
# Terminal statuses

The signing handler and the handler of Trent's answers write the status without reading it.
What an event writes is a matter of what it makes the finalization test look at.
-/

namespace Sxp

namespace SigmaContract

variable (hash : String → Int)

/-- The status after `addSignature` is a matter of the finalization test alone. -/
theorem addSignature_status_eq {c : SigmaContract} {k : ElGamalKey} (hk : k ∈ c.parties)
    (s : SigmaSignature) :
    ((c.storeSignature k s).Finalizes hash → (c.addSignature hash k s).1.status = .finalized) ∧
    (¬ (c.storeSignature k s).Finalizes hash → (c.addSignature hash k s).1.status = c.status) := by
  obtain ⟨signer, -, heq⟩ := addSignature_of_mem hash hk s
  rw [heq]
  exact ⟨fun h => if_pos h, fun h => if_neg h⟩

/-- What `addSignature` leaves passes the test exactly if what it stored does. -/
theorem finalizes_addSignature {c : SigmaContract} {k : ElGamalKey} (hk : k ∈ c.parties)
    (s : SigmaSignature) :
    (c.addSignature hash k s).1.Finalizes hash ↔ (c.storeSignature k s).Finalizes hash := by
  obtain ⟨signer, htrent, heq⟩ := addSignature_of_mem hash hk s
  rw [heq]
  exact finalizes_update hash (c.storeSignature k s) htrent _

end SigmaContract

variable (tools : StepTools)

/-! ## What the handlers do to the status -/

namespace ProtocolResolve

theorem finish_status (e : Establisher) :
    (e.contract.Finalizes tools.hash → (finish tools e).1.contract.status = .finalized) ∧
    (¬ e.contract.Finalizes tools.hash →
      (finish tools e).1.contract.status = e.contract.status) := by
  obtain ⟨signer, -, hframe⟩ := SigmaContract.isFinalized_frame tools.hash e.contract
  unfold finish
  rw [SigmaContract.Finalizes]
  split
  · rename_i heq
    rw [heq] at hframe
    simp only at hframe
    simp [heq, hframe]
  · rename_i heq
    simp [heq, Establisher.setStatus]
  · rename_i heq
    rw [heq] at hframe
    simp only at hframe
    simp [heq, hframe]

/-- The contracts that are tested while released signatures are taken in, the last one after
all of them. An exception ends the list. -/
def tested : List (Option SigmaSignature) → Nat → Establisher → List SigmaContract
  | [], _, e => [e.contract]
  | s :: rest, k, e =>
      match e.contract.parties[k]? with
      | none => []
      | some party =>
          let e := { e with resolver := { e.resolver with receiverK := some party } }
          match s with
          | none => []
          | some s =>
              match verifiesSome tools e s with
              | .error _ => []
              | .ok false => tested rest (k + 1) e
              | .ok true =>
                  e.contract.storeSignature party s ::
                    match e.contract.addSignature tools.hash party s with
                    | (_, .error _) => []
                    | (contract, .ok ()) => tested rest (k + 1) { e with contract }

/-- `addReleased` and, if it does not throw, `finish`. -/
def takeReleased (sigs : List (Option SigmaSignature)) (k : Nat) (e : Establisher) : Establisher :=
  match addReleased tools sigs k e with
  | (e, .error _) => e
  | (e, .ok ()) => (finish tools e).1

theorem takeReleased_status (sigs : List (Option SigmaSignature)) (k : Nat) (e : Establisher) :
    ((∃ c ∈ tested tools sigs k e, c.Finalizes tools.hash) →
      (takeReleased tools sigs k e).contract.status = .finalized) ∧
    ((∀ c ∈ tested tools sigs k e, ¬ c.Finalizes tools.hash) →
      (takeReleased tools sigs k e).contract.status = e.contract.status) := by
  induction sigs generalizing k e with
  | nil =>
      have hfinish := finish_status tools e
      simpa [tested, takeReleased, addReleased] using hfinish
  | cons s rest ih =>
      -- where the loop throws nothing was tested and nothing changes
      cases hparty : e.contract.parties[k]? with
      | none => simp [tested, takeReleased, addReleased, hparty]
      | some party =>
          cases s with
          | none => simp [tested, takeReleased, addReleased, hparty]
          | some s =>
              let e₁ := { e with resolver := { e.resolver with receiverK := some party } }
              have hmem : party ∈ e.contract.parties := List.mem_of_getElem? hparty
              obtain ⟨hfinal, hkept⟩ := SigmaContract.addSignature_status_eq tools.hash hmem s
              rcases hverify : verifiesSome tools e₁ s with x | _ | _
              · simp only [e₁] at hverify
                simp [tested, takeReleased, addReleased, hparty, hverify]
              · have hrest := ih (k + 1) e₁
                simp only [e₁] at hverify hrest
                simpa [tested, takeReleased, addReleased, hparty, hverify] using hrest
              · simp only [e₁] at hverify
                rcases hadd : e.contract.addSignature tools.hash party s with ⟨c, x | _⟩
                · rw [hadd] at hfinal hkept
                  simpa [tested, takeReleased, addReleased, hparty, hverify, hadd] using
                    And.intro hfinal hkept
                · have hrest := ih (k + 1) { e₁ with contract := c }
                  rw [hadd] at hfinal hkept
                  have htested : tested tools (some s :: rest) k e =
                      e.contract.storeSignature party s ::
                      tested tools rest (k + 1) { e₁ with contract := c } := by
                    simp [tested, hparty, hverify, hadd, e₁]
                  have htake : takeReleased tools (some s :: rest) k e =
                      takeReleased tools rest (k + 1) { e₁ with contract := c } := by
                    simp [takeReleased, addReleased, hparty, hverify, hadd, e₁]
                  rw [htested, htake, List.exists_mem_cons_iff, List.forall_mem_cons]
                  constructor
                  · -- a status that is final by then stays it
                    rintro (hhead | htail)
                    · by_cases htail : ∃ c' ∈ tested tools rest (k + 1) { e₁ with contract := c },
                          c'.Finalizes tools.hash
                      · exact hrest.1 htail
                      · exact (hrest.2 fun c' hc' hf => htail ⟨c', hc', hf⟩).trans (hfinal hhead)
                    · exact hrest.1 htail
                  · rintro ⟨hhead, htail⟩
                    exact (hrest.2 htail).trans (hkept hhead)

/-- The signer object with which answers are checked. -/
def withTrent (e : Establisher) : Establisher :=
  { e with resolver := { e.resolver with trentK := some e.trentKey } }

/-- The message is an answer of Trent with his signature for the establisher. -/
def Trusted (e : Establisher) (data : TrentMessage) (senderId : Int) (title token : String) :
    Prop :=
  senderId = e.trentKey.publicKey ∧ ∃ signatures signature,
    data = .answer title token signatures ∧ signatures.get e.key.publicKey = some signature ∧
      (withTrent e).resolver.verify tools.hash token signature = .ok true

/-- Another message leaves the contract as it is. -/
theorem notify_of_not_trusted {e : Establisher} {data : TrentMessage} {senderId : Int}
    (h : ¬ ∃ title token, Trusted tools e data senderId title token) :
    (notify tools e data senderId).1.contract = e.contract := by
  unfold notify
  split
  · rename_i hsender
    split
    · rfl
    · rename_i title token signatures
      simp only
      split
      · rfl
      · rename_i signature hsignature
        split
        · rfl
        · rfl
        · rename_i hverify
          exact absurd ⟨title, token, hsender, signatures, signature, rfl, hsignature, hverify⟩ h
  · rfl

theorem notify_of_trusted {e : Establisher} {data : TrentMessage} {senderId : Int}
    {title token : String} (h : Trusted tools e data senderId title token) :
    (notify tools e data senderId).1.contract.status =
      if title = "aborted" ∨ title = "honestyToken" then .cancelled
      else if title = "resolved" then
        match tools.signaturesOfJson token with
        | none => e.contract.status
        | some sigs => (takeReleased tools sigs 0 (withTrent e)).contract.status
      else e.contract.status := by
  obtain ⟨hsender, signatures, signature, rfl, hsignature, hverify⟩ := h
  simp only [withTrent] at hverify
  simp only [notify, hsender, if_true, hsignature, hverify]
  split
  · rfl
  · split
    · cases tools.signaturesOfJson token with
      | none => rfl
      | some sigs =>
          rcases hadd : addReleased tools sigs 0 (withTrent e) with ⟨e', x | _⟩
          all_goals
            simp only [withTrent] at hadd
            simp only [takeReleased, withTrent, hadd]
    · rfl

end ProtocolResolve

namespace ProtocolSign

/-- The message holds a clear signature of the party `senderKey` that is accepted. -/
def BringsSignature (e : Establisher) (message : SignMessage) (senderId : Int)
    (senderKey : ElGamalKey) (s : SigmaSignature) : Prop :=
  ∃ i text, e.contract.parties.findIdx? (fun k => k.publicKey == senderId) = some i ∧
    e.contract.parties[i]? = some senderKey ∧ senderKey.publicKey ≠ e.key.publicKey ∧
    message.round = some ((e.N : Int) + 2) ∧
    message.entries.get e.key.publicKey = some text ∧ tools.signatureOfJson text = some s ∧
    SigmaSigner.verify tools.hash { trentK := some e.trentKey, receiverK := none }
      e.contract.getHashableData s = .ok true

/-- An accepted clear signature sets the status if the test says so. -/
theorem storeSignature_status {e : Establisher} {senderKey : ElGamalKey} {s : SigmaSignature}
    (hmem : senderKey ∈ e.contract.parties)
    (hverify : SigmaSigner.verify tools.hash { trentK := some e.trentKey, receiverK := none }
      e.contract.getHashableData s = .ok true) :
    ((e.contract.storeSignature senderKey s).Finalizes tools.hash →
      (storeSignature tools e senderKey s).1.contract.status = .finalized) ∧
    (¬ (e.contract.storeSignature senderKey s).Finalizes tools.hash →
      (storeSignature tools e senderKey s).1.contract.status = e.contract.status) := by
  obtain ⟨hfinal, hkept⟩ := SigmaContract.addSignature_status_eq tools.hash hmem s
  have hsame := SigmaContract.finalizes_addSignature tools.hash hmem s
  rw [storeSignature]
  simp only [hverify]
  rcases hadd : e.contract.addSignature tools.hash senderKey s with ⟨c, x | _⟩
  · rw [hadd] at hfinal hkept
    exact ⟨hfinal, hkept⟩
  · rw [hadd] at hfinal hkept hsame
    -- the handler asks again what `addSignature` has asked
    obtain ⟨hfinal', hkept'⟩ := ProtocolResolve.finish_status tools { e with contract := c }
    exact ⟨fun h => hfinal' (hsame.mpr h),
      fun h => (hkept' fun hc => h (hsame.mp hc)).trans (hkept h)⟩

theorem verifyAndStoreSignature_of_brings {e : Establisher} {message : SignMessage} {senderId : Int}
    {senderKey : ElGamalKey} {s : SigmaSignature}
    (h : BringsSignature tools e message senderId senderKey s) :
    (verifyAndStoreSignature tools e message senderId).1 =
      (storeSignature tools e senderKey s).1 := by
  obtain ⟨i, text, hindex, hsender, hother, hround, hget, hjson, -⟩ := h
  simp only [verifyAndStoreSignature, hindex, hsender, hround, hother, if_false, if_true,
    hget, hjson]

theorem verifyAndStoreSignature_of_not_brings {e : Establisher} {message : SignMessage}
    {senderId : Int} (h : ¬ ∃ senderKey s, BringsSignature tools e message senderId senderKey s) :
    (verifyAndStoreSignature tools e message senderId).1.contract.status = e.contract.status := by
  rcases verifyAndStoreSignature_cases tools e message senderId with ⟨r, hsame⟩ |
    ⟨i, senderKey, text, s, hindex, hsender, hother, hround, htext, hjson, hsigned⟩ | ⟨r, i,
      o, -, hstored⟩
  · rw [hsame]
  · rw [hsigned, storeSignature]
    split
    · rfl
    · rfl
    · rename_i hverify
      exact absurd ⟨senderKey, s, i, text, hindex, hsender, hother, hround, htext, hjson, hverify⟩ h
  · rw [hstored]
    rfl

end ProtocolSign

/-! ## Final statuses -/

/-- `SigmaEstablisher.start`, pressed again when the signing step is the current one. -/
def Establisher.start (e : Establisher) (coins : Nat → Nat) :
    Establisher × Except JavaException Unit :=
  if e.contract.status ≠ .cancelled ∧ e.contract.status ≠ .finalized ∧
    e.contract.wish = .accept then
    ProtocolSign.sendMessage tools e coins
  else (e, .ok ())

/-- What can happen to an establisher: its user starts it again, or it gets an input. -/
inductive EstablisherEvent where
  | start (coins : Nat → Nat)
  | input (x : LocalInput)

/-- FINALIZED and CANCELLED. -/
def Status.Terminal (s : Status) : Prop := s = .finalized ∨ s = .cancelled

namespace Establisher

/-- The effect of an event. -/
def respond (e : Establisher) : EstablisherEvent → Establisher
  | .start coins => (e.start tools coins).1
  | .input x => e.handle tools x

/-- The life of `e` from the signing step on. -/
def life (e : Establisher) : Machine Establisher EstablisherEvent Unit where
  init := e.started
  step e ev := (e.respond tools ev, ())

/-- The event is the resolve request of the user; an accepted clear signature, while the status
is CANCELLED, with which the contract passes the finalization test; or an answer of Trent: one
that cancels, while the status is FINALIZED, or one whose signatures make some test pass while
the status is CANCELLED. -/
def Disturbs (e : Establisher) : EstablisherEvent → Prop
  | .input (.ask _) => True
  | .input (.deliver message senderId) => e.contract.status = .cancelled ∧
      ∃ senderKey s, ProtocolSign.BringsSignature tools e message senderId senderKey s ∧
        (e.contract.storeSignature senderKey s).Finalizes tools.hash
  | .input (.trentMessage data senderId) =>
      ∃ title token, ProtocolResolve.Trusted tools e data senderId title token ∧
        ((title = "aborted" ∨ title = "honestyToken") ∧ e.contract.status = .finalized ∨
          title = "resolved" ∧ e.contract.status = .cancelled ∧
            ∃ sigs, tools.signaturesOfJson token = some sigs ∧
              ∃ c ∈ ProtocolResolve.tested tools sigs 0 (ProtocolResolve.withTrent e),
                c.Finalizes tools.hash)
  | _ => False

theorem deliver_status_kept_iff {e : Establisher} (h : e.contract.status.Terminal)
    (message : SignMessage) (senderId : Int) :
    (e.handle tools (.deliver message senderId)).contract.status = e.contract.status ↔
      ¬ e.Disturbs tools (.input (.deliver message senderId)) := by
  rcases Classical.em (∃ senderKey s, ProtocolSign.BringsSignature tools e message senderId
    senderKey s) with ⟨senderKey, s, hbrings⟩ | hnone
  · have heq : e.handle tools (.deliver message senderId) =
        (ProtocolSign.storeSignature tools e senderKey s).1 :=
      ProtocolSign.verifyAndStoreSignature_of_brings tools hbrings
    obtain ⟨i, text, hindex, hsender, -, -, hget, hjson, hverify⟩ := id hbrings
    obtain ⟨hfinal, hkept⟩ :=
      ProtocolSign.storeSignature_status tools (List.mem_of_getElem? hsender) hverify
    rw [heq]
    constructor
    · rintro hsame ⟨hcancelled, senderKey', s', hbrings', hfinalizes⟩
      -- the message holds one signature, of one party
      obtain ⟨i', text', hindex', hsender', -, -, hget', hjson', -⟩ := hbrings'
      rw [hindex, Option.some.injEq] at hindex'
      subst hindex'
      rw [hsender, Option.some.injEq] at hsender'
      rw [hget, Option.some.injEq] at hget'
      subst hget'
      rw [hjson, Option.some.injEq] at hjson'
      rw [← hsender', ← hjson'] at hfinalizes
      rw [hfinal hfinalizes, hcancelled] at hsame
      cases hsame
    · intro hundisturbed
      by_cases hfinalizes : (e.contract.storeSignature senderKey s).Finalizes tools.hash
      · rcases h with hfinalized | hcancelled
        · rw [hfinal hfinalizes, hfinalized]
        · exact absurd ⟨hcancelled, senderKey, s, hbrings, hfinalizes⟩ hundisturbed
      · exact hkept hfinalizes
  · constructor
    · rintro - ⟨-, senderKey, s, hbrings, -⟩
      exact hnone ⟨senderKey, s, hbrings⟩
    · intro _
      exact ProtocolSign.verifyAndStoreSignature_of_not_brings tools hnone

theorem trentMessage_status_kept_iff {e : Establisher} (h : e.contract.status.Terminal)
    (data : TrentMessage) (senderId : Int) :
    (e.handle tools (.trentMessage data senderId)).contract.status = e.contract.status ↔
      ¬ e.Disturbs tools (.input (.trentMessage data senderId)) := by
  rcases Classical.em (∃ title token, ProtocolResolve.Trusted tools e data senderId title token)
    with ⟨title, token, htrusted⟩ | hnone
  · have heq := ProtocolResolve.notify_of_trusted tools htrusted
    have hunique : ∀ title' token', ProtocolResolve.Trusted tools e data senderId title' token' →
        title' = title ∧ token' = token := by
      rintro title' token' ⟨-, signatures', signature', hdata', -⟩
      obtain ⟨-, signatures, signature, hdata, -⟩ := htrusted
      rw [hdata, TrentMessage.answer.injEq] at hdata'
      exact ⟨hdata'.1.symm, hdata'.2.1.symm⟩
    have hdisturbs : e.Disturbs tools (.input (.trentMessage data senderId)) ↔
        ((title = "aborted" ∨ title = "honestyToken") ∧ e.contract.status = .finalized ∨
          title = "resolved" ∧ e.contract.status = .cancelled ∧
            ∃ sigs, tools.signaturesOfJson token = some sigs ∧
              ∃ c ∈ ProtocolResolve.tested tools sigs 0 (ProtocolResolve.withTrent e),
                c.Finalizes tools.hash) := by
      constructor
      · rintro ⟨title', token', htrusted', hcase⟩
        obtain ⟨rfl, rfl⟩ := hunique title' token' htrusted'
        exact hcase
      · exact fun hcase => ⟨title, token, htrusted, hcase⟩
    rw [handle, heq, hdisturbs]
    split
    · rename_i hcancels
      have hother : title ≠ "resolved" := by
        rcases hcancels with rfl | rfl <;> decide
      rcases h with hfinalized | hcancelled
      · simp [hfinalized, hcancels]
      · simp [hcancelled, hother]
    · rename_i hcancels
      split
      · rename_i hresolved
        subst hresolved
        cases hjson : tools.signaturesOfJson token with
        | none => simp
        | some sigs =>
            obtain ⟨hfinal, hkept⟩ :=
              ProtocolResolve.takeReleased_status tools sigs 0 (ProtocolResolve.withTrent e)
            simp only [hcancels, false_and, false_or, true_and, Option.some.injEq, exists_eq_left']
            by_cases htested : ∃ c ∈ ProtocolResolve.tested tools sigs 0
                (ProtocolResolve.withTrent e), c.Finalizes tools.hash
            · rw [hfinal htested]
              rcases h with hfinalized | hcancelled
              · simp [hfinalized]
              · simp [hcancelled, htested]
            · have hsame := hkept fun c hc hf => htested ⟨c, hc, hf⟩
              exact ⟨fun _ hcase => htested hcase.2, fun _ => hsame⟩
      · rename_i hresolved
        simp [hcancels, hresolved]
  · constructor
    · rintro - ⟨title, token, htrusted, -⟩
      exact hnone ⟨title, token, htrusted⟩
    · intro _
      exact congrArg SigmaContract.status (ProtocolResolve.notify_of_not_trusted tools hnone)

theorem status_kept_iff {e : Establisher} (h : e.contract.status.Terminal)
    (ev : EstablisherEvent) :
    (e.respond tools ev).contract.status = e.contract.status ↔ ¬ e.Disturbs tools ev := by
  cases ev with
  | start coins =>
      have hguard : ¬ (e.contract.status ≠ .cancelled ∧ e.contract.status ≠ .finalized ∧
          e.contract.wish = .accept) := by
        rintro ⟨hcancelled, hfinalized, -⟩
        exact h.elim hfinalized hcancelled
      simp [respond, start, hguard, Disturbs]
  | input x =>
      cases x with
      | wish w => simp [respond, handle, setWish, Disturbs]
      | deliver message senderId => exact deliver_status_kept_iff tools h message senderId
      | advance coins =>
          have hstop : ¬ ProtocolSign.CanAdvance e := by
            rintro ⟨-, -, hsigning⟩
            rw [hsigning] at h
            rcases h with h | h <;> cases h
          simp [respond, handle, hstop, Disturbs]
      | ask coins =>
          have hresolving : (e.respond tools (.input (.ask coins))).contract.status =
              .resolving := by
            simp only [respond, handle, ProtocolResolve.sendMessage]
            split <;> rfl
          rw [hresolving]
          constructor
          · intro hsame
            rw [← hsame] at h
            rcases h with h | h <;> cases h
          · exact fun hundisturbed => absurd trivial hundisturbed
      | trentMessage data senderId => exact trentMessage_status_kept_iff tools h data senderId

/-- In every run, FINALIZED and CANCELLED are final once reached exactly if no event that is
handled in one of them disturbs it. -/
theorem terminal_final_iff (e : Establisher) (events : List EstablisherEvent) :
    (∀ n k, n ≤ k →
      ((e.life tools).exec (e.life tools).init (events.take n)).contract.status.Terminal →
        ((e.life tools).exec (e.life tools).init (events.take k)).contract.status =
          ((e.life tools).exec (e.life tools).init (events.take n)).contract.status) ↔
      ∀ t ∈ (e.life tools).trace (e.life tools).init events,
        t.1.contract.status.Terminal → ¬ t.1.Disturbs tools t.2 := by
  rw [(e.life tools).trace_final_iff (fun e => e.contract.status) Status.Terminal]
  refine forall_congr' fun t => forall_congr' fun _ => ?_
  exact ⟨fun hkept h => (status_kept_iff tools h t.2).mp (hkept h),
    fun hundisturbed h => (status_kept_iff tools h t.2).mpr (hundisturbed h)⟩

end Establisher

/-! ## Bob has the contract and is told to cancel -/

/-- A clear signature touches the contract only. -/
theorem ProtocolSign.storeSignature_contract (e : Establisher) (senderKey : ElGamalKey)
    (s : SigmaSignature) : ∃ c, (storeSignature tools e senderKey s).1 =
    { e with contract := c } := by
  have hfinish : ∀ e : Establisher, ∃ c, (ProtocolResolve.finish tools e).1 =
      { e with contract := c } := by
    intro e
    unfold ProtocolResolve.finish
    split
    · exact ⟨_, rfl⟩
    · exact ⟨_, rfl⟩
    · exact ⟨_, rfl⟩
  unfold storeSignature
  simp only
  split
  · exact ⟨_, rfl⟩
  · exact ⟨_, rfl⟩
  · split
    · exact ⟨_, rfl⟩
    · obtain ⟨c, hc⟩ := hfinish { e with contract := _ }
      exact ⟨c, hc⟩

/-- A signer object that asks for nobody in particular accepts what one that does accepts. -/
theorem SigmaSigner.verify_of_receiver {hash : String → Int} {trentK : Option ElGamalKey}
    {k : ElGamalKey} {m : String} {s : SigmaSignature}
    (h : SigmaSigner.verify hash { trentK, receiverK := some k } m s = .ok true) :
    SigmaSigner.verify hash { trentK, receiverK := none } m s = .ok true := by
  rw [SigmaSigner.verify_eq_true] at h ⊢
  obtain ⟨clause, hclause, -, hpcs, hrpcs, htrent⟩ := h
  exact ⟨clause, hclause, rfl, hpcs, hrpcs, htrent⟩

namespace Sample

variable (hash : String → Int)

/-- A signature in Alice's name for the agreed Trent. -/
def clearSignature : SigmaSignature :=
  SigmaSignature.forged hash terms.getHashableData aliceId (trent hash).getKey

/-- Tools for Bob, who can read it. -/
def bobTools : StepTools :=
  { Sample.tools hash with signatureOfJson := fun _ => some (clearSignature hash) }

def bobParty : Establisher := (setting hash).establisher bobKey .accept

/-- Alice's message of the last round, for Bob. -/
def aliceClear : SignMessage where
  round := some 4
  entries := HashMap.singleton bobKey.publicKey "signature"

/-- Trent's answer to somebody's abort. -/
def aborted : TrentMessage :=
  .answer "aborted" "token" (HashMap.singleton bobKey.publicKey
    (SigmaSignature.forged hash "token" bobId (trent hash).getKey))

def cancelRun : List EstablisherEvent :=
  [.input (.deliver aliceClear aliceKey.publicKey),
    .input (.trentMessage (aborted hash) trentKey.publicKey)]

theorem aliceClear_brings :
    ProtocolSign.BringsSignature (bobTools hash) (bobParty hash).started aliceClear
    aliceKey.publicKey aliceKey (clearSignature hash) := by
  have hbyte : (49 : UInt8) < 128 := by decide
  refine ⟨0, "signature", ?_, rfl, ?_, rfl, ?_, rfl, ?_⟩
  · exact (by decide +kernel :
      terms.parties.findIdx? (fun k => k.publicKey == aliceKey.publicKey) = some 0)
  · exact (by decide +kernel : aliceKey.publicKey ≠ bobKey.publicKey)
  · exact (HashMap.get_singleton _ _ _).trans (if_pos BEq.rfl)
  · exact SigmaSigner.verify_of_receiver
      (SigmaSignature.forged_verify hash aliceKey_identification hbyte _ _)

/-- Alice's signature is the first one, so it finalizes Bob's contract. -/
theorem aliceClear_finalizes :
    ((bobParty hash).started.contract.storeSignature aliceKey
      (clearSignature hash)).Finalizes hash := by
  have hbyte : (49 : UInt8) < 128 := by decide
  exact SigmaContract.storeSignature_finalizes hash (show _ = [aliceKey, bobKey] from rfl)
    (show _ = some (trent hash).getKey from rfl)
    (SigmaSignature.forged_verify hash aliceKey_identification hbyte _ _)

end Sample

namespace Establisher

theorem finalized_told_to_cancel :
    ¬ ∃ hash : String → Int,
      let life := (Sample.bobParty hash).life (Sample.bobTools hash)
      ∀ n k, n ≤ k →
        (life.exec life.init ((Sample.cancelRun hash).take n)).contract.status.Terminal →
          (life.exec life.init ((Sample.cancelRun hash).take k)).contract.status =
            (life.exec life.init ((Sample.cancelRun hash).take n)).contract.status := by
  rintro ⟨hash, hfinal⟩
  have hbyte : (49 : UInt8) < 128 := by decide
  have hbrings := Sample.aliceClear_brings hash
  obtain ⟨i, text, -, hmem, -, -, -, -, hverify⟩ := id hbrings
  let e := (Sample.bobParty hash).started.handle (Sample.bobTools hash)
    (.deliver Sample.aliceClear Sample.aliceKey.publicKey)
  have hstored : e = (ProtocolSign.storeSignature (Sample.bobTools hash)
      (Sample.bobParty hash).started Sample.aliceKey (Sample.clearSignature hash)).1 :=
    ProtocolSign.verifyAndStoreSignature_of_brings _ hbrings
  have hfinalized : e.contract.status = .finalized := by
    rw [hstored]
    exact (ProtocolSign.storeSignature_status _ (List.mem_of_getElem? hmem) hverify).1
      (Sample.aliceClear_finalizes hash)
  have hcancelled : (e.handle (Sample.bobTools hash)
      (.trentMessage (Sample.aborted hash) Sample.trentKey.publicKey)).contract.status =
        .cancelled := by
    obtain ⟨c, hc⟩ := ProtocolSign.storeSignature_contract (Sample.bobTools hash)
      (Sample.bobParty hash).started Sample.aliceKey (Sample.clearSignature hash)
    have htrusted : ProtocolResolve.Trusted (Sample.bobTools hash) e (Sample.aborted hash)
        Sample.trentKey.publicKey "aborted" "token" := by
      rw [hstored, hc]
      refine ⟨rfl, _, _, rfl, (HashMap.get_singleton _ _ _).trans (if_pos BEq.rfl), ?_⟩
      exact SigmaSigner.verify_of_receiver
        (SigmaSignature.forged_verify hash Sample.bobKey_identification hbyte _ _)
    exact (ProtocolResolve.notify_of_trusted _ htrusted).trans (if_pos (Or.inl rfl))
  have hsame := hfinal 1 2 (by decide) (Or.inl hfinalized)
  have hsame' : Status.cancelled = Status.finalized :=
    hcancelled.symm.trans (hsame.trans hfinalized)
  cases hsame'

end Establisher

end Sxp
