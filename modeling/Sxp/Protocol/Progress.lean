-- SUMMARY: A willing party goes on: with everybody's promise for its round it enters the next one and at the end sends its clear signature.
import Sxp.Protocol.Party

/-!
# Progress

What it takes for a signing party to get through a round: tools that do not fail on
its messages, a slot for every promise, and the promises of the others.
-/

namespace Sxp

namespace Establisher

/-- The array has an element `[r][k]`. -/
def HasSlot (e : Establisher) (r k : Nat) : Prop :=
  ∃ row, e.roundReceived[r]? = some row ∧ k < row.length

theorem stored_store_self {e : Establisher} {r k : Nat} (h : e.HasSlot r k) (o : Or) :
    (e.store r k o).stored r k = some o := by
  obtain ⟨row, hrow, hk⟩ := h
  simp [stored, store, hrow, List.getElem?_set_self hk]

theorem HasSlot.store {e : Establisher} {r k : Nat} (h : e.HasSlot r k) (r' k' : Nat) (o : Or) :
    (e.store r' k' o).HasSlot r k := by
  obtain ⟨row, hrow, hk⟩ := h
  rcases Decidable.em (r' = r) with rfl | hne
  · exact ⟨row.set k' (some o), by simp [Establisher.store, hrow], by simpa using hk⟩
  · exact ⟨row, by simp [Establisher.store, hne, hrow], hk⟩

end Establisher

variable {tools : StepTools}

namespace ProtocolSign

/-! ## Filling a message -/

/-- In a promising round the tools make a promise for every receiver. -/
def Promises (tools : StepTools) (e : Establisher) (coins : Nat → Nat)
    (ks : List (ElGamalKey × Nat)) : Prop :=
  ∀ x ∈ ks, ∃ p text,
    tools.getPcs (coins x.2) e.key e.trentKey (e.contract.roundData e.round) x.1 = .ok p ∧
      tools.encryptMsg (coins x.2) (tools.getJson p) x.1 = .ok text

/-- In the last round the tools make a clear signature for every receiver, and the one of the
sender for itself can be added to its contract. -/
def Signs (tools : StepTools) (e : Establisher) (coins : Nat → Nat)
    (ks : List (ElGamalKey × Nat)) : Prop :=
  ∀ x ∈ ks, ∃ s,
    tools.getClearSignature (coins x.2) e.key e.trentKey e.contract.getHashableData x.1 = .ok s ∧
      (x.1.publicKey = e.key.publicKey →
        ∀ c : SigmaContract, c.toContractTerms = e.contract.toContractTerms →
          c.getTrentKey = e.contract.getTrentKey →
            ∃ c', c.addSignature tools.hash x.1 s = (c', .ok ()))

/-- `e'` is `e` with its promises to itself among the receivers `ks`. -/
structure Promised (e : Establisher) (ks : List (ElGamalKey × Nat)) (e' : Establisher) : Prop where
  contract : e'.contract = e.contract
  slots : ∀ r k, e.HasSlot r k → e'.HasSlot r k
  kept : ∀ r k, e.stored r k ≠ none → e'.stored r k ≠ none
  own : ∀ x ∈ ks, x.1.publicKey = e.key.publicKey → e.HasSlot e.round x.2 →
    e'.stored e.round x.2 ≠ none

theorem fillContent_promises {e : Establisher} (hround : e.round ≠ e.N + 2) {coins : Nat → Nat}
    {ks : List (ElGamalKey × Nat)} (hks : Promises tools e coins ks)
    (content : HashMap Int String) :
    ∃ e' content', fillContent tools coins ks e content = (e', .ok content') ∧
      Promised e ks e' := by
  induction ks generalizing e content with
  | nil => exact ⟨e, content, rfl, ⟨rfl, fun _ _ h => h, fun _ _ h => h, by simp⟩⟩
  | cons x rest ih =>
      obtain ⟨receiverK, k⟩ := x
      obtain ⟨p, text, hp, htext⟩ := hks (receiverK, k) List.mem_cons_self
      have hrest : Promises tools e coins rest := fun y hy => hks y (List.mem_cons_of_mem _ hy)
      rcases Decidable.em (receiverK.publicKey = e.key.publicKey) with hown | hother
      · have hround' : (e.store e.round k p).round ≠ (e.store e.round k p).N + 2 := hround
        obtain ⟨e', content', heq, h⟩ := ih hround' hrest (content.put receiverK.publicKey text)
        refine ⟨e', content', by simp [fillContent, hround, hp, htext, hown, ← heq], h.contract,
          fun r k' hslot => h.slots r k' (hslot.store _ _ _), fun r k' hstored => ?_, ?_⟩
        · exact h.kept r k' (Establisher.stored_store_of_stored hstored _ _ _)
        · intro y hy hyown hslot
          rcases List.mem_cons.mp hy with rfl | hmem
          -- stored before the rest of the loop, and kept by it
          · apply h.kept
            rw [Establisher.stored_store_self hslot]
            exact Option.some_ne_none p
          · exact h.own y hmem hyown (hslot.store _ _ _)
      · obtain ⟨e', content', heq, h⟩ := ih hround hrest (content.put receiverK.publicKey text)
        refine ⟨e', content', by simp [fillContent, hround, hp, htext, hother, ← heq],
          { h with own := ?_ }⟩
        intro y hy hyown hslot
        rcases List.mem_cons.mp hy with rfl | hmem
        · exact absurd hyown hother
        · exact h.own y hmem hyown hslot

theorem fillContent_signs {e : Establisher} (hround : e.round = e.N + 2) {coins : Nat → Nat}
    {ks : List (ElGamalKey × Nat)} (hks : Signs tools e coins ks) (content : HashMap Int String) :
    ∃ e' content', fillContent tools coins ks e content = (e', .ok content') := by
  induction ks generalizing e content with
  | nil => exact ⟨e, content, rfl⟩
  | cons x rest ih =>
      obtain ⟨receiverK, k⟩ := x
      obtain ⟨s, hs, hadd⟩ := hks (receiverK, k) List.mem_cons_self
      have hrest : Signs tools e coins rest := fun y hy => hks y (List.mem_cons_of_mem _ hy)
      rcases Decidable.em (receiverK.publicKey = e.key.publicKey) with hown | hother
      · obtain ⟨c, hc⟩ := hadd hown e.contract rfl rfl
        have hterms : c.toContractTerms = e.contract.toContractTerms := by
          rw [← SigmaContract.addSignature_terms tools.hash e.contract receiverK s, hc]
        have htrent : c.getTrentKey = e.contract.getTrentKey := by
          rw [← SigmaContract.addSignature_getTrentKey tools.hash e.contract receiverK s, hc]
        -- adding the signature leaves the terms and the Trent key alone, so the other
        -- receivers meet the same conditions
        have hround' : ({ e with contract := c } : Establisher).round =
            ({ e with contract := c } : Establisher).N + 2 := by
          rw [Establisher.N, hterms]
          exact hround
        have hrest' : Signs tools { e with contract := c } coins rest := by
          intro y hy
          obtain ⟨s', hs', hadd'⟩ := hrest y hy
          refine ⟨s', by rw [hterms]; exact hs', fun hyown c' hc' htrent' => ?_⟩
          exact hadd' hyown c' (hc'.trans hterms) (htrent'.trans htrent)
        obtain ⟨e', content', heq⟩ := ih hround' hrest'
          (content.put receiverK.publicKey (tools.signatureToJson s))
        exact ⟨e', content', by simp [fillContent, hround, hs, hown, hc, ← heq]⟩
      · obtain ⟨e', content', heq⟩ := ih hround hrest
          (content.put receiverK.publicKey (tools.signatureToJson s))
        exact ⟨e', content', by simp [fillContent, hround, hs, hother, ← heq]⟩

/-! ## A round -/

/-- A party in a promising round that nothing keeps from signing: it has promised itself. -/
structure Ready (e : Establisher) : Prop where
  signing : e.contract.status = .signing
  willing : e.contract.wish ≠ .refuse
  member : ∃ party ∈ e.contract.parties, party.publicKey = e.key.publicKey
  slots : ∀ r ≤ e.N + 1, ∀ k < e.N, e.HasSlot r k
  own : ∀ k party, e.contract.parties[k]? = some party → party.publicKey = e.key.publicKey →
    e.stored e.round k ≠ none

/-- The promises for a round are sent and the sender is ready for the others'. -/
theorem sendMessage_ready {e : Establisher} (hround : e.round ≤ e.N + 1)
    (hsigning : e.contract.status = .signing) (hwilling : e.contract.wish ≠ .refuse)
    (hmember : ∃ party ∈ e.contract.parties, party.publicKey = e.key.publicKey)
    (hslots : ∀ r ≤ e.N + 1, ∀ k < e.N, e.HasSlot r k) {coins : Nat → Nat}
    (htools : Promises tools e coins e.contract.parties.zipIdx) :
    let e' := (sendMessage tools e coins).1
    e'.contract = e.contract ∧ Ready e' := by
  intro e'
  have hmoves := sendMessage_moves tools e coins
  obtain ⟨e₁, content, hfill, hpromised⟩ := fillContent_promises (by omega) htools {}
  have hany : e₁.contract.parties.any (fun k => k.publicKey == e₁.key.publicKey) = true := by
    have hfilled := fillContent_moves_all tools coins e
    rw [hfill] at hfilled
    have hkey : e₁.key = e.key := hfilled.key
    simpa [hpromised.contract, hkey] using hmember
  have he' : e' = { e₁ with sent := e₁.sent ++
                              [{ round := some e₁.round, entries := content }] } := by
    simp only [e', sendMessage, hwilling, if_false, hfill, hany, if_true]
  have hcontract : e'.contract = e.contract := by
    rw [he']
    exact hpromised.contract
  refine ⟨hcontract, ?_, ?_, ?_, ?_, ?_⟩
  · rw [hcontract]
    exact hsigning
  · rw [hcontract]
    exact hwilling
  · rw [hcontract, hmoves.key]
    exact hmember
  · intro r hr k hk
    rw [hmoves.N_eq] at hr hk
    have hslot := hpromised.slots r k (hslots r hr k hk)
    rw [he']
    exact hslot
  · intro k party hparty hown
    rw [hcontract] at hparty
    rw [hmoves.key] at hown
    have hk : k < e.N := (List.getElem?_eq_some_iff.mp hparty).1
    have hstored := hpromised.own (party, k) (List.mem_zipIdx_iff_getElem?.mpr hparty) hown
      (hslots e.round hround k hk)
    rw [hmoves.round, he']
    exact hstored

/-- The last message is sent. -/
theorem sendMessage_signs {e : Establisher} (hround : e.round = e.N + 2)
    (hwilling : e.contract.wish ≠ .refuse)
    (hmember : ∃ party ∈ e.contract.parties, party.publicKey = e.key.publicKey)
    {coins : Nat → Nat} (htools : Signs tools e coins e.contract.parties.zipIdx) :
    ∃ msg ∈ (sendMessage tools e coins).1.sent, msg.round = some ((e.N : Int) + 2) := by
  have hfilled := fillContent_moves_all tools coins e
  obtain ⟨e₁, content, hfill⟩ := fillContent_signs hround htools {}
  rw [hfill] at hfilled
  have hparties : e₁.contract.parties = e.contract.parties :=
    congrArg ContractTerms.parties hfilled.terms
  have hkey : e₁.key = e.key := hfilled.key
  have hany : e₁.contract.parties.any (fun k => k.publicKey == e₁.key.publicKey) = true := by
    simpa [hparties, hkey] using hmember
  refine ⟨{ round := some e₁.round, entries := content }, ?_, ?_⟩
  · simp only [sendMessage, hwilling, if_false, hfill, hany, if_true]
    exact List.mem_append_right _ List.mem_cons_self
  · rw [hfilled.round, hround]
    rfl

theorem Ready.store {e : Establisher} (h : Ready e) (r k : Nat) (o : Or) :
    Ready (e.store r k o) where
  signing := h.signing
  willing := h.willing
  member := h.member
  slots r' hr k' hk := (h.slots r' hr k' hk).store r k o
  own k' party hparty hown := Establisher.stored_store_of_stored (h.own k' party hparty hown) r k o

/-- A promise for a promising round is stored unless there was one already. -/
theorem Accepted.stores {e : Establisher} {message : SignMessage} {pubK : Int} {r i : Nat} {o : Or}
    (h : Accepted tools e message pubK r i o) (hr : r ≤ e.N + 1) (hslot : e.HasSlot r i) :
    let e' := (verifyAndStoreSignature tools e message pubK).1
    e'.stored r i ≠ none ∧ (e' = e ∨ e' = e.store r i o) := by
  intro e'
  obtain ⟨hlt, hfound, -⟩ := List.findIdx?_eq_some_iff_getElem.mp h.sender
  obtain ⟨text, msg, hget, hdecrypt, hpcs⟩ := h.promise
  have hparty : e.contract.parties[i]? = some e.contract.parties[i] := List.getElem?_eq_getElem hlt
  have hother : e.contract.parties[i].publicKey ≠ e.key.publicKey := by
    rw [beq_iff_eq.mp hfound]
    exact h.other
  -- neither a clear signature nor out of range
  have hnotLast : ¬ (r : Int) = (e.N : Int) + 2 := by omega
  have hnonneg : ¬ (r : Int) < 0 := by omega
  obtain ⟨row, hrow, hk⟩ := id hslot
  have hreceived : receivedAt e r i = .ok (e.stored r i) := by
    simp [receivedAt, hnonneg, hrow]
  cases hstored : e.stored r i with
  | some o' =>
      have he' : e' = e := by
        simp only [e', verifyAndStoreSignature, h.sender, hparty, h.round, hother, if_false,
          hnotLast, hreceived, hstored]
      rw [he', hstored]
      exact ⟨Option.some_ne_none o', Or.inl rfl⟩
  | none =>
      have he' : e' = e.store r i o := by
        simp only [e', verifyAndStoreSignature, h.sender, hparty, h.round, hother, if_false,
          hnotLast, hreceived, hstored, hget, storePromise, hdecrypt, hpcs, Int.toNat_natCast,
          h.verified]
      rw [he', Establisher.stored_store_self hslot]
      exact ⟨Option.some_ne_none o, Or.inr rfl⟩

theorem claimFormed_of_stored {e : Establisher} (h : ∀ k < e.N, e.stored e.round k ≠ none) :
    claimFormed e = true := by
  refine List.all_eq_true.mpr fun k hk => ?_
  obtain ⟨o, ho⟩ := Option.ne_none_iff_exists'.mp (h k (List.mem_range.mp hk))
  simp [ho]

/-- A ready party with everybody's promise for its round goes on. -/
theorem Ready.canAdvance {e : Establisher} (h : Ready e) (hround : e.round ≤ e.N + 1)
    (hall : ∀ k < e.N, e.stored e.round k ≠ none) : CanAdvance e :=
  ⟨hround, claimFormed_of_stored hall, h.signing⟩

end ProtocolSign

namespace Establisher

open ProtocolSign (Ready Promises Signs)

variable {e : Establisher}

theorem advance_ready (h : Ready e) (hround : e.round ≤ e.N)
    (hall : ∀ k < e.N, e.stored e.round k ≠ none) {coins : Nat → Nat}
    (htools : Promises tools e.nextRound coins e.contract.parties.zipIdx) :
    let e' := e.handle tools (.advance coins)
    e'.contract = e.contract ∧ e'.round = e.round + 1 ∧ Ready e' := by
  intro e'
  have he' : e' = (ProtocolSign.sendMessage tools e.nextRound coins).1 :=
    if_pos (h.canAdvance (Nat.le_succ_of_le hround) hall)
  have hnext : e.nextRound.round ≤ e.nextRound.N + 1 := Nat.succ_le_succ hround
  obtain ⟨hcontract, hready⟩ := ProtocolSign.sendMessage_ready hnext h.signing h.willing h.member
    h.slots htools
  rw [he']
  exact ⟨hcontract, (ProtocolSign.sendMessage_moves tools e.nextRound coins).round, hready⟩

theorem advance_signs (h : Ready e) (hround : e.round = e.N + 1)
    (hall : ∀ k < e.N, e.stored e.round k ≠ none) {coins : Nat → Nat}
    (htools : Signs tools e.nextRound coins e.contract.parties.zipIdx) :
    ∃ msg ∈ (e.handle tools (.advance coins)).sent, msg.round = some ((e.N : Int) + 2) := by
  have he' : e.handle tools (.advance coins) =
      (ProtocolSign.sendMessage tools e.nextRound coins).1 :=
    if_pos (h.canAdvance hround.le hall)
  have hnext : e.nextRound.round = e.nextRound.N + 2 := congrArg Nat.succ hround
  rw [he']
  exact ProtocolSign.sendMessage_signs hnext h.willing h.member htools

/-- A party that can sign its claim gets a request out. -/
theorem ask_requests {coins : Nat}
    (htools : ∀ signer text, ∃ s, tools.sign coins e.key signer text = .ok s) :
    ∃ q, q ∈ (e.handle tools (.ask coins)).requests := by
  simp only [handle, ProtocolResolve.sendMessage]
  split
  · rename_i heq
    obtain ⟨signature, hsign⟩ := htools _ _
    rw [show tools.sign coins e.key _ _ = _ from heq] at hsign
    cases hsign
  · exact ⟨_, List.mem_append_right _ List.mem_cons_self⟩

/-- A party that wants to sign is ready once it has started. -/
theorem setListenerOnTrent_ready (hwilling : e.contract.wish ≠ .refuse)
    (hmember : ∃ party ∈ e.contract.parties, party.publicKey = e.key.publicKey)
    {coins : Nat → Nat} (htools : Promises tools e.started coins e.contract.parties.zipIdx) :
    let e' := (e.setListenerOnTrent tools coins).1
    e'.contract = e.contract.setStatus .signing ∧ e'.round = 1 ∧ Ready e' := by
  have hslots : ∀ r ≤ e.N + 1, ∀ k < e.N, e.started.HasSlot r k := by
    intro r hr k hk
    refine ⟨List.replicate e.N none, ?_, by simpa using hk⟩
    simp only [started, List.getElem?_replicate]
    exact if_pos (by omega)
  have hfirst : e.started.round ≤ e.started.N + 1 := Nat.le_add_left 1 _
  obtain ⟨hcontract, hready⟩ := ProtocolSign.sendMessage_ready hfirst rfl hwilling hmember hslots
    htools
  exact ⟨hcontract, (setListenerOnTrent_moves e coins).round, hready⟩

end Establisher

end Sxp
