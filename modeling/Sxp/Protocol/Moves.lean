-- SUMMARY: What the steps of an establisher can do to it: rounds, stored promises, sent messages and requests.
import Sxp.Protocol.Steps

/-!
# Moves

Everything a step does within one round is a move: it may add messages of the current
round and requests for the round before, store promises from known sources, and leave
the status SIGNING but not come back to it. Going on to the next round is the only
other thing that happens, and it needs a complete round.
-/

namespace Sxp

namespace Establisher

/-- `e'` comes from `e` within a round; `src r k` are the places new promises may be stored at. -/
structure Moves (src : Nat → Nat → Prop) (e e' : Establisher) : Prop where
  key : e'.key = e.key
  terms : e'.contract.toContractTerms = e.contract.toContractTerms
  round : e'.round = e.round
  signing : e'.contract.status = .signing → e.contract.status = .signing
  kept : ∀ r k, e.stored r k ≠ none → e'.stored r k ≠ none
  stored : ∀ r k, e'.stored r k ≠ none → e.stored r k ≠ none ∨ src r k
  sent : ∃ new, e'.sent = e.sent ++ new ∧ ∀ msg ∈ new, msg.round = some (e.round : Int)
  requests : ∃ new, e'.requests = e.requests ++ new ∧
    ∀ q ∈ new, q.round = (e.round : Int) - 1 ∧ e'.contract.status ≠ .signing

namespace Moves

variable {src : Nat → Nat → Prop} {e e' e'' : Establisher}

theorem refl (src : Nat → Nat → Prop) (e : Establisher) : Moves src e e where
  key := rfl
  terms := rfl
  round := rfl
  signing h := h
  kept _ _ h := h
  stored _ _ h := Or.inl h
  sent := ⟨[], by simp, by simp⟩
  requests := ⟨[], by simp, by simp⟩

theorem trans (h : Moves src e e') (h' : Moves src e' e'') : Moves src e e'' where
  key := h'.key.trans h.key
  terms := h'.terms.trans h.terms
  round := h'.round.trans h.round
  signing hs := h.signing (h'.signing hs)
  kept r k hk := h'.kept r k (h.kept r k hk)
  stored r k hk := by
    rcases h'.stored r k hk with hold | hnew
    · exact h.stored r k hold
    · exact Or.inr hnew
  sent := by
    obtain ⟨new, heq, hnew⟩ := h.sent
    obtain ⟨new', heq', hnew'⟩ := h'.sent
    refine ⟨new ++ new', by rw [heq', heq, List.append_assoc], ?_⟩
    intro msg hmsg
    rcases List.mem_append.mp hmsg with hm | hm
    · exact hnew msg hm
    · rw [hnew' msg hm, h.round]
  requests := by
    obtain ⟨new, heq, hnew⟩ := h.requests
    obtain ⟨new', heq', hnew'⟩ := h'.requests
    refine ⟨new ++ new', by rw [heq', heq, List.append_assoc], ?_⟩
    intro q hq
    rcases List.mem_append.mp hq with hq | hq
    · exact ⟨(hnew q hq).1, fun hs => (hnew q hq).2 (h'.signing hs)⟩
    · obtain ⟨hround, hstatus⟩ := hnew' q hq
      exact ⟨by rw [hround, h.round], hstatus⟩

/-- A move is a move with more sources. -/
theorem mono {src' : Nat → Nat → Prop} (hsrc : ∀ r k, src r k → src' r k) (h : Moves src e e') :
    Moves src' e e' :=
  { h with stored := fun r k hk => (h.stored r k hk).imp_right (hsrc r k) }

theorem N_eq (h : Moves src e e') : e'.N = e.N := by
  rw [N, N, h.terms]

/-- A change that touches neither the messages nor the promises nor the round. -/
theorem quiet (src : Nat → Nat → Prop) (hkey : e'.key = e.key)
    (hterms : e'.contract.toContractTerms = e.contract.toContractTerms)
    (hround : e'.round = e.round) (hreceived : e'.roundReceived = e.roundReceived)
    (hsent : e'.sent = e.sent) (hrequests : e'.requests = e.requests)
    (hsigning : e'.contract.status = .signing → e.contract.status = .signing) :
    Moves src e e' where
  key := hkey
  terms := hterms
  round := hround
  signing := hsigning
  kept r k h := by rwa [Establisher.stored, hreceived]
  stored r k h := by
    rw [Establisher.stored, hreceived] at h
    exact Or.inl h
  sent := ⟨[], by simp [hsent], by simp⟩
  requests := ⟨[], by simp [hrequests], by simp⟩

theorem setStatus (src : Nat → Nat → Prop) (e : Establisher) {s : Status} (hs : s ≠ .signing) :
    Moves src e (e.setStatus s) :=
  quiet src rfl rfl rfl rfl rfl rfl fun h => absurd h hs

/-- A change of the contract's signatures, of the signer object or of the wish. -/
theorem ofContract (src : Nat → Nat → Prop) (e : Establisher) {c : SigmaContract}
    (hterms : c.toContractTerms = e.contract.toContractTerms)
    (hstatus : c.status = .signing → e.contract.status = .signing) :
    Moves src e { e with contract := c } :=
  quiet src rfl hterms rfl rfl rfl rfl hstatus

theorem setResolver (src : Nat → Nat → Prop) (e : Establisher) (s : SigmaSigner) :
    Moves src e { e with resolver := s } :=
  quiet src rfl rfl rfl rfl rfl rfl id

theorem addSignature (src : Nat → Nat → Prop) (e : Establisher) (hash : String → Int)
    (k : ElGamalKey) (s : SigmaSignature) :
    Moves src e { e with contract := (e.contract.addSignature hash k s).1 } := by
  apply ofContract src e (SigmaContract.addSignature_terms hash _ k s)
  intro hsigning
  rcases SigmaContract.addSignature_status hash e.contract k s with hsame | hfinal
  · rw [← hsame]
    exact hsigning
  · rw [hfinal] at hsigning
    cases hsigning

theorem isFinalized (src : Nat → Nat → Prop) (e : Establisher) (hash : String → Int) :
    Moves src e { e with contract := (e.contract.isFinalized hash).1 } := by
  obtain ⟨signer, -, heq⟩ := SigmaContract.isFinalized_frame hash e.contract
  rw [heq]
  exact ofContract src e rfl id

end Moves

/-! ## Storing a promise -/

theorem stored_store_of_ne {e : Establisher} {r k r' k' : Nat} (h : ¬ (r' = r ∧ k' = k)) (o : Or) :
    (e.store r k o).stored r' k' = e.stored r' k' := by
  simp only [Establisher.stored, Establisher.store, List.getElem?_modify]
  rcases Decidable.em (r = r') with rfl | hr
  · have hk : k ≠ k' := fun hk => h ⟨rfl, hk.symm⟩
    cases e.roundReceived[r]? with
    | none => rfl
    | some row => simp [List.getElem?_set_ne hk]
  · cases e.roundReceived[r']? with
    | none => rfl
    | some row => simp [hr]

theorem stored_store_ne_none {e : Establisher} {r k : Nat} (h : e.stored r k ≠ none) (o : Or) :
    (e.store r k o).stored r k ≠ none := by
  simp only [Establisher.stored, Establisher.store, List.getElem?_modify] at h ⊢
  cases hrow : e.roundReceived[r]? with
  | none => simp [hrow] at h
  | some row =>
      have hk : k < row.length := by
        by_contra hk
        simp [hrow, List.getElem?_eq_none (Nat.not_lt.mp hk)] at h
      simp [List.getElem?_set_self hk]

theorem stored_store_of_stored {e : Establisher} {r k : Nat} (h : e.stored r k ≠ none)
    (r' k' : Nat) (o : Or) : (e.store r' k' o).stored r k ≠ none := by
  rcases Decidable.em (r = r' ∧ k = k') with ⟨rfl, rfl⟩ | hne
  · exact stored_store_ne_none h o
  · rwa [stored_store_of_ne hne]

theorem Moves.store {src : Nat → Nat → Prop} (e : Establisher) {r k : Nat} (hsrc : src r k)
    (o : Or) : Moves src e (e.store r k o) where
  key := rfl
  terms := rfl
  round := rfl
  signing h := h
  kept r' k' h := stored_store_of_stored h r k o
  stored r' k' h := by
    rcases Decidable.em (r' = r ∧ k' = k) with ⟨rfl, rfl⟩ | hne
    · exact Or.inr hsrc
    · rw [stored_store_of_ne hne] at h
      exact Or.inl h
  sent := ⟨[], by simp [Establisher.store], by simp⟩
  requests := ⟨[], by simp [Establisher.store], by simp⟩

end Establisher

variable (tools : StepTools)

open Establisher (Moves)

/-! ## Promises in messages -/

namespace ProtocolSign

/-- The message is a promise of the party of index `i` for round `r` that `e` accepts. -/
structure Accepted (tools : StepTools) (e : Establisher) (message : SignMessage) (pubK : Int)
    (r i : Nat) (o : Or) : Prop where
  sender : e.contract.parties.findIdx? (fun k => k.publicKey == pubK) = some i
  other : pubK ≠ e.key.publicKey
  round : message.round = some (r : Int)
  promise : ∃ text msg, message.entries.get e.key.publicKey = some text ∧
    tools.decryptMsg text e.key = .ok msg ∧ tools.getPrivateCS msg = some o
  verified : o.verifies tools.hash (e.contract.roundData r) = .ok true

/-- The promise that a message brings for an empty place. -/
def Brings (e : Establisher) (message : SignMessage) (pubK : Int) (r i : Nat) (o : Or) : Prop :=
  Accepted tools e message pubK r i o ∧ e.stored r i = none

/-- What a message does: nothing, unless it has a clear signature or brings a promise. -/
theorem verifyAndStoreSignature_cases (e : Establisher) (message : SignMessage) (pubK : Int) :
    (∃ r, verifyAndStoreSignature tools e message pubK = (e, r)) ∨
      (∃ i senderKey text s, e.contract.parties.findIdx? (fun k => k.publicKey == pubK) = some i ∧
        e.contract.parties[i]? = some senderKey ∧ senderKey.publicKey ≠ e.key.publicKey ∧
        message.round = some ((e.N : Int) + 2) ∧ message.entries.get e.key.publicKey = some text ∧
        tools.signatureOfJson text = some s ∧
        verifyAndStoreSignature tools e message pubK = storeSignature tools e senderKey s) ∨
      ∃ r i o, Brings tools e message pubK r i o ∧
        verifyAndStoreSignature tools e message pubK = (e.store r i o, .ok ()) := by
  unfold verifyAndStoreSignature
  split
  · exact Or.inl ⟨_, rfl⟩
  · rename_i i hi
    split
    · exact Or.inl ⟨_, rfl⟩
    · exact Or.inl ⟨_, rfl⟩
    · rename_i senderKey k hsender hround
      split
      · exact Or.inl ⟨_, rfl⟩
      · rename_i hother
        split
        · rename_i hlast
          split
          · exact Or.inl ⟨_, rfl⟩
          · rename_i text htext
            split
            · exact Or.inl ⟨_, rfl⟩
            · rename_i s hs
              exact Or.inr (Or.inl ⟨i, senderKey, text, s, hi, hsender, hother, hlast ▸ hround,
                htext, hs, rfl⟩)
        · split
          · exact Or.inl ⟨_, rfl⟩
          · exact Or.inl ⟨_, rfl⟩
          · rename_i hreceived
            split
            · exact Or.inl ⟨_, rfl⟩
            · rename_i text htext
              unfold storePromise
              split
              · exact Or.inl ⟨_, rfl⟩
              · rename_i msg hmsg
                split
                · exact Or.inl ⟨_, rfl⟩
                · rename_i pcs hpcs
                  split
                  · exact Or.inl ⟨_, rfl⟩
                  · rename_i hverified
                    -- a negative round is out of the range of the array
                    have hk : ¬ k < 0 := by
                      intro hk
                      simp [receivedAt, hk] at hreceived
                    have hempty : e.stored k.toNat i = none := by
                      rw [receivedAt, if_neg hk] at hreceived
                      split at hreceived
                      · cases hreceived
                      · exact Except.ok.inj hreceived
                    obtain ⟨hlt, hfound, -⟩ := List.findIdx?_eq_some_iff_getElem.mp hi
                    rw [List.getElem?_eq_getElem hlt, Option.some.injEq] at hsender
                    rw [hsender] at hfound
                    refine Or.inr (Or.inr ⟨k.toNat, i, pcs, ⟨?_, hempty⟩, rfl⟩)
                    refine ⟨hi, ?_, ?_, ⟨text, msg, htext, hmsg, hpcs⟩, hverified⟩
                    · rw [← beq_iff_eq.mp hfound]
                      exact hother
                    · rw [hround, Int.toNat_of_nonneg (Int.not_lt.mp hk)]
                  · exact Or.inl ⟨_, rfl⟩

end ProtocolSign

/-! ## What all changes keep

A property that the single changes keep is kept by the handlers, which are made of them. -/

/-- The changes that handlers make to anything but promises, messages and requests keep `P`. -/
structure Establisher.Keeps (P : Establisher → Prop) : Prop where
  resolver : ∀ e s, P e → P { e with resolver := s }
  addSignature : ∀ e k s, P e → P { e with contract := (e.contract.addSignature tools.hash k s).1 }
  isFinalized : ∀ e, P e → P { e with contract := (e.contract.isFinalized tools.hash).1 }
  setStatus : ∀ e s, s ≠ .signing → P e → P (e.setStatus s)

namespace Establisher.Keeps

variable {tools} {P : Establisher → Prop}

theorem and {Q : Establisher → Prop} (h : Keeps tools P) (h' : Keeps tools Q) :
    Keeps tools fun e => P e ∧ Q e where
  resolver e s he := ⟨h.resolver e s he.1, h'.resolver e s he.2⟩
  addSignature e k s he := ⟨h.addSignature e k s he.1, h'.addSignature e k s he.2⟩
  isFinalized e he := ⟨h.isFinalized e he.1, h'.isFinalized e he.2⟩
  setStatus e s hs he := ⟨h.setStatus e s hs he.1, h'.setStatus e s hs he.2⟩

variable (h : Keeps tools P)

include h

theorem finish {e : Establisher} (he : P e) : P (ProtocolResolve.finish tools e).1 := by
  have hchecked := h.isFinalized e he
  unfold ProtocolResolve.finish
  split
  · rename_i heq
    rwa [heq] at hchecked
  · rename_i heq
    rw [heq] at hchecked
    exact h.setStatus _ _ (by decide) hchecked
  · rename_i heq
    rwa [heq] at hchecked

theorem addReleased (sigs : List (Option SigmaSignature)) (k : Nat) {e : Establisher} (he : P e) :
    P (ProtocolResolve.addReleased tools sigs k e).1 := by
  induction sigs generalizing k e with
  | nil => exact he
  | cons s rest ih =>
      unfold ProtocolResolve.addReleased
      split
      · exact he
      · rename_i party hparty
        have hreceiver := h.resolver e { e.resolver with receiverK := some party } he
        simp only
        split
        · exact hreceiver
        · rename_i s
          split
          · exact hreceiver
          · exact ih _ hreceiver
          · have hadded := h.addSignature _ party s hreceiver
            split
            · rename_i heq
              simp only [heq] at hadded
              exact hadded
            · rename_i heq
              simp only [heq] at hadded
              exact ih _ hadded

theorem notify {e : Establisher} (he : P e) (data : TrentMessage) (senderId : Int) :
    P (ProtocolResolve.notify tools e data senderId).1 := by
  unfold ProtocolResolve.notify
  split
  · split
    · exact he
    · rename_i title token signatures
      have htrent := h.resolver e { e.resolver with trentK := some e.trentKey } he
      simp only
      split
      · exact htrent
      · split
        · exact htrent
        · exact htrent
        · split
          · exact h.setStatus _ _ (by decide) htrent
          · split
            · split
              · exact htrent
              · rename_i sigSign hsigSign
                have hadded := h.addReleased sigSign 0 htrent
                split
                · rename_i heq
                  rwa [heq] at hadded
                · rename_i heq
                  rw [heq] at hadded
                  exact h.finish hadded
            · exact htrent
  · exact he

theorem storeSignature {e : Establisher} (he : P e) (senderKey : ElGamalKey)
    (signature : SigmaSignature) :
    P (ProtocolSign.storeSignature tools e senderKey signature).1 := by
  unfold ProtocolSign.storeSignature
  simp only
  split
  · exact he
  · exact he
  · have hadded := h.addSignature e senderKey signature he
    split
    · rename_i heq
      rwa [heq] at hadded
    · rename_i heq
      rw [heq] at hadded
      exact h.finish hadded

/-- The loop over the receivers, which also stores the promises to itself. -/
theorem fillContent {coins : Nat → Nat} {ks : List (ElGamalKey × Nat)}
    (hstore : ∀ e, ∀ x ∈ ks, ∀ p, P e → x.1.publicKey = e.key.publicKey →
      tools.getPcs (coins x.2) e.key e.trentKey (e.contract.roundData e.round) x.1 = .ok p →
        P (e.store e.round x.2 p))
    {e : Establisher} (he : P e) (content : HashMap Int String) :
    P (ProtocolSign.fillContent tools coins ks e content).1 := by
  induction ks generalizing e content with
  | nil => exact he
  | cons x rest ih =>
      obtain ⟨receiverK, k⟩ := x
      have hrest : ∀ {e' : Establisher} (_ : P e') (content' : HashMap Int String),
          P (ProtocolSign.fillContent tools coins rest e' content').1 :=
        ih fun e' y hy => hstore e' y (List.mem_cons_of_mem _ hy)
      unfold ProtocolSign.fillContent
      simp only
      split
      · split
        · exact he
        · rename_i signature hsignature
          split
          · have hadded := h.addSignature e receiverK signature he
            split
            · rename_i heq
              rwa [heq] at hadded
            · rename_i heq
              rw [heq] at hadded
              exact hrest hadded _
          · exact hrest he _
      · split
        · exact he
        · rename_i p hp
          split
          · exact he
          · split
            · rename_i hsender
              exact hrest (hstore e (receiverK, k) List.mem_cons_self p he
                (by simpa using hsender) hp) _
            · exact hrest he _

theorem verifyAndStoreSignature {e : Establisher} (he : P e) {message : SignMessage} {pubK : Int}
    (hstore : ∀ r i o, ProtocolSign.Brings tools e message pubK r i o → P (e.store r i o)) :
    P (ProtocolSign.verifyAndStoreSignature tools e message pubK).1 := by
  rcases ProtocolSign.verifyAndStoreSignature_cases tools e message pubK with ⟨r, hsame⟩ |
    ⟨i, senderKey, text, s, -, -, -, -, -, -, hsigned⟩ | ⟨r, i, o, hbrings, hstored⟩
  · rwa [hsame]
  · rw [hsigned]
    exact h.storeSignature he senderKey s
  · rw [hstored]
    exact hstore r i o hbrings

end Establisher.Keeps

theorem Establisher.Moves.keeps (src : Nat → Nat → Prop) (e : Establisher) :
    Establisher.Keeps tools (Moves src e) where
  resolver e' s h := h.trans (Moves.setResolver src e' s)
  addSignature e' k s h := h.trans (Moves.addSignature src e' tools.hash k s)
  isFinalized e' h := h.trans (Moves.isFinalized src e' tools.hash)
  setStatus e' _ hs h := h.trans (Moves.setStatus src e' hs)

/-! ## The resolving step -/

namespace ProtocolResolve

variable (src : Nat → Nat → Prop)

/-- Asking ends the signing: the request is for the round before the current one. -/
theorem sendMessage_moves (e : Establisher) (coins : Nat) :
    Moves src e (sendMessage tools e coins).1 := by
  have hstatus : Moves src e (e.setStatus .resolving) := Moves.setStatus src e (by decide)
  apply hstatus.trans
  unfold sendMessage
  simp only
  split
  · exact Moves.setResolver src _ _
  · exact {
      key := rfl
      terms := rfl
      round := rfl
      signing := id
      kept := fun _ _ h => h
      stored := fun _ _ h => Or.inl h
      sent := ⟨[], by simp, by simp⟩
      requests := ⟨_, rfl, by
        intro q hq
        rw [List.mem_singleton.mp hq]
        exact ⟨rfl, by simp [Establisher.setStatus]⟩⟩ }

theorem notify_moves (e : Establisher) (data : TrentMessage) (senderId : Int) :
    Moves src e (notify tools e data senderId).1 :=
  (Moves.keeps tools src e).notify (Moves.refl src e) data senderId

end ProtocolResolve

/-! ## The signing step -/

namespace ProtocolSign

/-- The places an establisher stores its own promises at in its current round. -/
def Own (e : Establisher) (r k : Nat) : Prop :=
  r = e.round ∧ ∃ party, e.contract.parties[k]? = some party ∧ party.publicKey = e.key.publicKey

theorem fillContent_moves (coins : Nat → Nat) (ks : List (ElGamalKey × Nat)) (e : Establisher)
    (content : HashMap Int String)
    (hks : ∀ x ∈ ks, e.contract.parties[x.2]? = some x.1) :
    Moves (Own e) e (fillContent tools coins ks e content).1 := by
  refine (Moves.keeps tools (Own e) e).fillContent (fun e' x hx p h hown _ => ?_)
    (Moves.refl _ e) content
  -- the loop is still in the round and has the parties it began with
  have hsrc : Own e e'.round x.2 := ⟨h.round, x.1, hks x hx, hown.trans (by rw [h.key])⟩
  exact h.trans (Moves.store e' hsrc p)

/-- The loop over all receivers. -/
theorem fillContent_moves_all (coins : Nat → Nat) (e : Establisher) :
    Moves (Own e) e (fillContent tools coins e.contract.parties.zipIdx e {}).1 :=
  fillContent_moves tools coins e.contract.parties.zipIdx e {} fun _ hx =>
    List.mem_zipIdx_iff_getElem?.mp hx

/-- What is left of the message when it cannot be sent: the sender asks Trent instead, or only the
loop over the receivers has run; else the message follows the ones that were sent before. -/
theorem sendMessage_cases (e : Establisher) (coins : Nat → Nat) :
    let filled := (fillContent tools coins e.contract.parties.zipIdx e {}).1
    (sendMessage tools e coins).1 = (ProtocolResolve.sendMessage tools e (coins 0)).1 ∨
      (sendMessage tools e coins).1 = filled ∨
      ∃ content, (sendMessage tools e coins).1 =
        { filled with sent := filled.sent ++
                        [{ round := some (filled.round : Int), entries := content }] } := by
  intro filled
  unfold sendMessage
  split
  · exact Or.inl rfl
  · split
    · rename_i heq
      exact Or.inr (Or.inl (by simp only [filled, heq]))
    · rename_i e' content heq
      split
      · exact Or.inr (Or.inr ⟨content, by simp only [filled, heq]⟩)
      · exact Or.inr (Or.inl (by simp only [filled, heq]))

theorem sendMessage_moves (e : Establisher) (coins : Nat → Nat) :
    Moves (Own e) e (sendMessage tools e coins).1 := by
  have hmoves := fillContent_moves_all tools coins e
  rcases sendMessage_cases tools e coins with hasks | hfilled | ⟨content, hsends⟩
  · rw [hasks]
    exact ProtocolResolve.sendMessage_moves tools (Own e) e (coins 0)
  · rwa [hfilled]
  · rw [hsends]
    refine hmoves.trans {
      Moves.refl _ _ with
      sent := ⟨_, rfl, ?_⟩
      requests := ⟨[], by simp, by simp⟩ }
    intro msg hmsg
    rw [List.mem_singleton.mp hmsg]

/-- The places a message of the sender `pubK` may be stored at. -/
def From (e : Establisher) (message : SignMessage) (pubK : Int) (r k : Nat) : Prop :=
  message.round = some (r : Int) ∧
    ∃ party, e.contract.parties[k]? = some party ∧ party.publicKey = pubK

theorem verifyAndStoreSignature_moves (e : Establisher) (message : SignMessage) (pubK : Int) :
    Moves (From e message pubK) e (verifyAndStoreSignature tools e message pubK).1 := by
  refine (Moves.keeps tools _ e).verifyAndStoreSignature (Moves.refl _ e) fun r i o h => ?_
  obtain ⟨hlt, hfound, -⟩ := List.findIdx?_eq_some_iff_getElem.mp h.1.sender
  have hfrom : From e message pubK r i :=
    ⟨h.1.round, _, List.getElem?_eq_getElem hlt, beq_iff_eq.mp hfound⟩
  exact Moves.store e hfrom o

end ProtocolSign

end Sxp
