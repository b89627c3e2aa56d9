-- SUMMARY: From sender to receiver: the text a message holds for each party, and contracts all of whose signatures are good.
import Sxp.Protocol.Reentry
import Sxp.Protocol.Terminal

/-!
# What is sent and what is received

A message holds one text for each receiver, made for it alone. The sender keeps what it makes
for itself: its promise, or its signature, which is tested like one of another party.
-/

namespace Sxp

variable {tools : StepTools}

/-! ## Contracts with good signatures -/

namespace SigmaContract

variable {hash : String → Int} {T : ElGamalKey}

/-- Every signature that is stored is one of its party on the contract itself, under the Trent
key `T`. -/
structure AllClear (hash : String → Int) (T : ElGamalKey) (c : SigmaContract) : Prop where
  trent : c.getTrentKey = some T
  clear : ∀ k s, c.signatures.get k = some s →
    SigmaSigner.verify hash { trentK := some T, receiverK := some k } c.getHashableData s = .ok true

theorem AllClear.verdict {c : SigmaContract} (h : c.AllClear hash T) (k : ElGamalKey) :
    c.verdict hash k = if (c.signatures.get k).isSome then .clear else .missing := by
  have hsigner : c.receiverSigner k = { trentK := some T, receiverK := some k } :=
    congrArg (fun t => ({ trentK := t, receiverK := some k } : SigmaSigner)) h.trent
  unfold SigmaContract.verdict
  rw [hsigner]
  cases hget : c.signatures.get k with
  | none => rfl
  | some s =>
      simp only [h.clear k s hget]
      rfl

/-- The test looks at the first party only. -/
theorem AllClear.isFinalized {c : SigmaContract} (h : c.AllClear hash T) {first : ElGamalKey}
    {rest : List ElGamalKey} (hparties : c.parties = first :: rest) :
    (c.isFinalized hash).2 = .ok (c.signatures.get first).isSome := by
  have hscan : (c.isFinalized hash).2 = Verdict.scan (c.verdicts hash) false := by
    unfold SigmaContract.isFinalized
    rw [h.trent]
    exact finalizedLoop_eq_scan hash c c.parties c.signer rfl false
  rw [hscan, verdicts, hparties, List.map_cons, h.verdict]
  cases (c.signatures.get first).isSome <;> rfl

theorem AllClear.frame {c : SigmaContract} (h : c.AllClear hash T) {signer : SigmaSigner}
    (hsigner : signer.trentK = c.signer.trentK) (status : Status) :
    { c with signer := signer, status := status }.AllClear hash T where
  trent := hsigner.trans h.trent
  clear := h.clear

/-- Storing another good signature of a party. -/
theorem AllClear.storeSignature {c : SigmaContract} (h : c.AllClear hash T) {k : ElGamalKey}
    {s : SigmaSignature} (hs : SigmaSigner.verify hash { trentK := some T, receiverK := some k }
      c.getHashableData s = .ok true) : (c.storeSignature k s).AllClear hash T where
  trent := h.trent
  clear k' s' hget := by
    change (c.signatures.put k s).get k' = some s' at hget
    rw [HashMap.get_put] at hget
    split at hget
    · rename_i heq
      rw [beq_iff_eq.mp heq, ← Option.some.inj hget]
      exact hs
    · exact h.clear k' s' hget

/-- The contract with the signature `s` of `k`, finalized if it has the one of the first party. -/
structure Signed (c : SigmaContract) (k : ElGamalKey) (s : SigmaSignature) (first : ElGamalKey)
    (c' : SigmaContract) : Prop where
  terms : c'.toContractTerms = c.toContractTerms
  wish : c'.wish = c.wish
  signatures : c'.signatures = c.signatures.put k s
  status : c'.status = if (c'.signatures.get first).isSome then .finalized else c.status

/-- Adding a good signature of a party never throws. -/
theorem AllClear.addSignature {c : SigmaContract} (h : c.AllClear hash T) {first : ElGamalKey}
    {rest : List ElGamalKey} (hparties : c.parties = first :: rest) {k : ElGamalKey}
    (hk : k ∈ c.parties) {s : SigmaSignature}
    (hs : SigmaSigner.verify hash { trentK := some T, receiverK := some k } c.getHashableData s =
      .ok true) :
    ∃ c', c.addSignature hash k s = (c', .ok ()) ∧ c'.AllClear hash T ∧ c.Signed k s first c' := by
  have hstored := h.storeSignature hs
  have htest := hstored.isFinalized (show (c.storeSignature k s).parties = _ from hparties)
  obtain ⟨signer, htrent, hsigner⟩ := isFinalized_frame hash (c.storeSignature k s)
  have hclear : ∀ status, { c.storeSignature k s with signer := signer, status := status }.AllClear
      hash T := fun status => hstored.frame htrent status
  rcases hfinal : (c.storeSignature k s).isFinalized hash with ⟨c₁, result⟩
  rw [hfinal] at htest hsigner
  simp only at htest hsigner
  have hadd : c.addSignature hash k s =
      (if ((c.storeSignature k s).signatures.get first).isSome then c₁.setStatus .finalized else c₁,
        .ok ()) := by
    rw [SigmaContract.addSignature, if_pos hk, hfinal, htest]
    cases ((c.storeSignature k s).signatures.get first).isSome <;> rfl
  rw [hadd, hsigner]
  cases hfirst : ((c.storeSignature k s).signatures.get first).isSome with
  | true => exact ⟨_, rfl, hclear .finalized, rfl, rfl, rfl, by simp [setStatus, hfirst]⟩
  | false =>
      refine ⟨_, rfl, hclear c.status, rfl, rfl, rfl, ?_⟩
      simp [hfirst]
      rfl

end SigmaContract

namespace ProtocolSign

/-! ## What is sent -/

/-- The text for the receiver `x` is its clear signature in the last round, else its promise. -/
def Writes (tools : StepTools) (e : Establisher) (coins : Nat → Nat) (x : ElGamalKey × Nat)
    (text : String) : Prop :=
  (e.round = e.N + 2 → ∃ s, tools.getClearSignature (coins x.2) e.key e.trentKey
    e.contract.getHashableData x.1 = .ok s ∧ text = tools.signatureToJson s) ∧
  (e.round ≠ e.N + 2 → ∃ p, tools.getPcs (coins x.2) e.key e.trentKey
    (e.contract.roundData e.round) x.1 = .ok p ∧
      tools.encryptMsg (coins x.2) (tools.getJson p) x.1 = .ok text)

theorem Writes.of_round {e e₁ : Establisher} {coins : Nat → Nat} {x : ElGamalKey × Nat}
    {text : String} (h : Writes tools e₁ coins x text) (hkey : e₁.key = e.key)
    (htrent : e₁.trentKey = e.trentKey)
    (hterms : e₁.contract.toContractTerms = e.contract.toContractTerms)
    (hround : e₁.round = e.round) : Writes tools e coins x text := by
  simpa only [Writes, hkey, htrent, Establisher.N, hterms, hround] using h

/-- The rest of the loop leaves the text for the first receiver alone. -/
theorem writes_cons {x : ElGamalKey × Nat} {rest : List (ElGamalKey × Nat)} {text : String}
    {W : ElGamalKey × Nat → String → Prop} {content content' : HashMap Int String}
    (hother : ∀ y ∈ rest, y.1.publicKey ≠ x.1.publicKey) (hwrites : W x text)
    (htexts : ∀ y ∈ rest, ∃ text, content'.get y.1.publicKey = some text ∧ W y text)
    (hkept : ∀ pubK, (∀ y ∈ rest, y.1.publicKey ≠ pubK) →
      content'.get pubK = (content.put x.1.publicKey text).get pubK) :
    (∀ y ∈ x :: rest, ∃ text, content'.get y.1.publicKey = some text ∧ W y text) ∧
      ∀ pubK, (∀ y ∈ x :: rest, y.1.publicKey ≠ pubK) → content'.get pubK = content.get pubK := by
  refine ⟨fun y hy => ?_, fun pubK hpubK => ?_⟩
  · rcases List.mem_cons.mp hy with rfl | hmem
    · refine ⟨text, ?_, hwrites⟩
      rw [hkept _ hother, HashMap.get_put, if_pos BEq.rfl]
    · exact htexts y hmem
  · have hne := hpubK x List.mem_cons_self
    rw [hkept pubK fun y hy => hpubK y (List.mem_cons_of_mem _ hy), HashMap.get_put,
      if_neg (by simpa using hne.symm)]

/-- The loop over the receivers writes one text for each and no other. -/
theorem fillContent_writes {coins : Nat → Nat} {ks : List (ElGamalKey × Nat)}
    (hks : (ks.map fun x => x.1.publicKey).Nodup) {e e' : Establisher}
    {content content' : HashMap Int String}
    (h : fillContent tools coins ks e content = (e', .ok content')) :
    (∀ x ∈ ks, ∃ text, content'.get x.1.publicKey = some text ∧ Writes tools e coins x text) ∧
      ∀ pubK, (∀ x ∈ ks, x.1.publicKey ≠ pubK) → content'.get pubK = content.get pubK := by
  induction ks generalizing e content with
  | nil =>
      simp only [fillContent, Prod.mk.injEq, Except.ok.injEq] at h
      simp [h.2]
  | cons x rest ih =>
      obtain ⟨receiverK, k⟩ := x
      rw [List.map_cons, List.nodup_cons] at hks
      obtain ⟨hnew, hrest⟩ := hks
      have hother : ∀ y ∈ rest, y.1.publicKey ≠ receiverK.publicKey := fun y hy heq =>
        hnew (List.mem_map.mpr ⟨y, hy, heq⟩)
      -- the rest of the loop runs in a later state of the same round
      have hstep : ∀ (e₁ : Establisher) (text : String), e₁.key = e.key →
          e₁.trentKey = e.trentKey → e₁.contract.toContractTerms = e.contract.toContractTerms →
          e₁.round = e.round → Writes tools e coins (receiverK, k) text →
          fillContent tools coins rest e₁ (content.put receiverK.publicKey text) =
            (e', .ok content') →
          (∀ y ∈ (receiverK, k) :: rest, ∃ text, content'.get y.1.publicKey = some text ∧
            Writes tools e coins y text) ∧
          ∀ pubK, (∀ y ∈ (receiverK, k) :: rest, y.1.publicKey ≠ pubK) →
            content'.get pubK = content.get pubK := by
        intro e₁ text hkey htrent hterms hround hwrites hfill
        obtain ⟨htexts, hkept⟩ := ih hrest hfill
        refine writes_cons hother hwrites (fun y hy => ?_) hkept
        obtain ⟨text', hget, hwrites'⟩ := htexts y hy
        exact ⟨text', hget, hwrites'.of_round hkey htrent hterms hround⟩
      unfold fillContent at h
      simp only at h
      split at h
      · rename_i hround
        split at h
        · cases h
        · rename_i s hs
          have hwrites : Writes tools e coins (receiverK, k) (tools.signatureToJson s) :=
            ⟨fun _ => ⟨s, hs, rfl⟩, fun hne => absurd hround hne⟩
          split at h
          · have hterms := SigmaContract.addSignature_terms tools.hash e.contract receiverK s
            split at h
            · cases h
            · rename_i c heq
              rw [heq] at hterms
              exact hstep { e with contract := c } _ rfl rfl hterms rfl hwrites h
          · exact hstep e _ rfl rfl rfl rfl hwrites h
      · rename_i hround
        split at h
        · cases h
        · rename_i p hp
          split at h
          · cases h
          · rename_i text htext
            have hwrites : Writes tools e coins (receiverK, k) text :=
              ⟨fun heq => absurd heq hround, fun _ => ⟨p, hp, htext⟩⟩
            split at h
            · exact hstep (e.store e.round k p) _ rfl rfl rfl rfl hwrites h
            · exact hstep e _ rfl rfl rfl rfl hwrites h

/-- The tools make a clear signature for every receiver. -/
def MakesClear (tools : StepTools) (e : Establisher) (coins : Nat → Nat)
    (ks : List (ElGamalKey × Nat)) : Prop :=
  ∀ x ∈ ks, ∃ s, tools.getClearSignature (coins x.2) e.key e.trentKey
    e.contract.getHashableData x.1 = .ok s

/-- In the last round the loop changes nothing for others. -/
theorem fillContent_others {e : Establisher} (hround : e.round = e.N + 2) {coins : Nat → Nat}
    {ks : List (ElGamalKey × Nat)} (hmakes : MakesClear tools e coins ks)
    (hothers : ∀ x ∈ ks, x.1.publicKey ≠ e.key.publicKey) (content : HashMap Int String) :
    ∃ content', fillContent tools coins ks e content = (e, .ok content') := by
  induction ks generalizing content with
  | nil => exact ⟨content, rfl⟩
  | cons x rest ih =>
      obtain ⟨receiverK, k⟩ := x
      obtain ⟨s, hs⟩ := hmakes _ List.mem_cons_self
      have hother : receiverK.publicKey ≠ e.key.publicKey := hothers _ List.mem_cons_self
      obtain ⟨content', heq⟩ := ih (fun y hy => hmakes y (List.mem_cons_of_mem _ hy))
        (fun y hy => hothers y (List.mem_cons_of_mem _ hy))
        (content.put receiverK.publicKey (tools.signatureToJson s))
      exact ⟨content', by simp [fillContent, hround, hs, hother, ← heq]⟩

/-- In the last round the sender adds its own signature to its contract, and nothing else. -/
theorem fillContent_last {e : Establisher} (hround : e.round = e.N + 2) {coins : Nat → Nat}
    {ks : List (ElGamalKey × Nat)} (hks : (ks.map fun x => x.1.publicKey).Nodup)
    (hmakes : MakesClear tools e coins ks) {x : ElGamalKey × Nat} (hx : x ∈ ks)
    (hown : x.1.publicKey = e.key.publicKey)
    (hadd : ∀ s, tools.getClearSignature (coins x.2) e.key e.trentKey e.contract.getHashableData
      x.1 = .ok s → (e.contract.addSignature tools.hash x.1 s).2 = .ok ())
    (content : HashMap Int String) :
    ∃ s content', tools.getClearSignature (coins x.2) e.key e.trentKey e.contract.getHashableData
        x.1 = .ok s ∧
      fillContent tools coins ks e content =
        ({ e with contract := (e.contract.addSignature tools.hash x.1 s).1 }, .ok content') := by
  induction ks generalizing content with
  | nil => cases hx
  | cons y rest ih =>
      obtain ⟨receiverK, k⟩ := y
      rw [List.map_cons, List.nodup_cons] at hks
      obtain ⟨hnew, hnodup⟩ := hks
      obtain ⟨s, hs⟩ := hmakes _ List.mem_cons_self
      have hrest : MakesClear tools e coins rest := fun y hy => hmakes y (List.mem_cons_of_mem _ hy)
      rcases List.mem_cons.mp hx with rfl | hmem
      · -- the others come after it
        obtain ⟨c, hc⟩ : ∃ c, e.contract.addSignature tools.hash receiverK s = (c, .ok ()) :=
          ⟨_, Prod.ext rfl (hadd s hs)⟩
        have hterms : c.toContractTerms = e.contract.toContractTerms := by
          rw [← SigmaContract.addSignature_terms tools.hash e.contract receiverK s, hc]
        have hround' : ({ e with contract := c } : Establisher).round =
            ({ e with contract := c } : Establisher).N + 2 := by
          rw [Establisher.N, hterms]
          exact hround
        have hmakes' : MakesClear tools { e with contract := c } coins rest := by
          intro y hy
          rw [hterms]
          exact hrest y hy
        have hothers : ∀ y ∈ rest, y.1.publicKey ≠ e.key.publicKey := fun y hy heq =>
          hnew (List.mem_map.mpr ⟨y, hy, heq.trans hown.symm⟩)
        obtain ⟨content', heq⟩ := fillContent_others hround' hmakes' hothers
          (content.put receiverK.publicKey (tools.signatureToJson s))
        have hown' : receiverK.publicKey = e.key.publicKey := hown
        exact ⟨s, content', hs, by simpa [fillContent, hround, hs, hown', hc] using heq⟩
      · have hother : receiverK.publicKey ≠ e.key.publicKey := fun heq =>
          hnew (List.mem_map.mpr ⟨x, hmem, hown.trans heq.symm⟩)
        obtain ⟨s', content', hs', heq⟩ := ih hnodup hrest hmem
          (content.put receiverK.publicKey (tools.signatureToJson s))
        exact ⟨s', content', hs', by simpa [fillContent, hround, hs, hother] using heq⟩

/-- A message that was filled is sent. -/
theorem sendMessage_of_filled {e e₁ : Establisher} (hwilling : e.contract.wish ≠ .refuse)
    (hmember : ∃ party ∈ e.contract.parties, party.publicKey = e.key.publicKey)
    {coins : Nat → Nat} {content : HashMap Int String}
    (hfill : fillContent tools coins e.contract.parties.zipIdx e {} = (e₁, .ok content)) :
    (sendMessage tools e coins).1 =
      { e₁ with sent := e.sent ++ [{ round := some (e.round : Int), entries := content }] } := by
  have hfilled := fillContent_moves_all tools coins e
  have hsilent := fillContent_silent tools coins e.contract.parties.zipIdx e {}
  rw [hfill] at hfilled hsilent
  have hparties : e₁.contract.parties = e.contract.parties :=
    congrArg ContractTerms.parties hfilled.terms
  have hany : e₁.contract.parties.any (fun k => k.publicKey == e₁.key.publicKey) = true := by
    simpa [hparties, show e₁.key = e.key from hfilled.key] using hmember
  have hsent : e₁.sent = e.sent := hsilent.1
  have hround : e₁.round = e.round := hfilled.round
  simp only [sendMessage, hwilling, if_false, hfill, hany, if_true, hsent, hround]

/-! ## What is received -/

/-- A good signature of a party is taken in; the contract is tested twice. -/
theorem storeSignature_clear {e : Establisher} (h : e.contract.AllClear tools.hash e.trentKey)
    {first : ElGamalKey} {rest : List ElGamalKey} (hparties : e.contract.parties = first :: rest)
    {senderKey : ElGamalKey} (hmem : senderKey ∈ e.contract.parties) {s : SigmaSignature}
    (hs : SigmaSigner.verify tools.hash { trentK := some e.trentKey, receiverK := some senderKey }
      e.contract.getHashableData s = .ok true) :
    ∃ c, storeSignature tools e senderKey s = ({ e with contract := c }, .ok ()) ∧
      c.AllClear tools.hash e.trentKey ∧ e.contract.Signed senderKey s first c := by
  obtain ⟨c, hadd, hclear, hsigned⟩ := h.addSignature hparties hmem hs
  have htest := hclear.isFinalized (show c.parties = first :: rest by rw [hsigned.terms, hparties])
  obtain ⟨signer, htrent, hsigner⟩ := SigmaContract.isFinalized_frame tools.hash c
  rcases hfinal : c.isFinalized tools.hash with ⟨c₁, result⟩
  rw [hfinal] at htest hsigner
  simp only at htest hsigner
  have hresult : storeSignature tools e senderKey s =
      ({ e with
        contract := if (c.signatures.get first).isSome then c₁.setStatus .finalized else c₁ },
        .ok ()) := by
    simp only [storeSignature, SigmaSigner.verify_of_receiver hs, hadd, ProtocolResolve.finish,
      hfinal, htest]
    cases (c.signatures.get first).isSome <;> rfl
  rw [hresult, hsigner]
  have hstatus := hsigned.status
  cases hfirst : (c.signatures.get first).isSome with
  | true =>
      exact ⟨_, rfl, hclear.frame htrent .finalized, hsigned.terms, hsigned.wish,
        hsigned.signatures, by simp [SigmaContract.setStatus, hfirst]⟩
  | false =>
      rw [hfirst] at hstatus
      refine ⟨_, rfl, hclear.frame htrent c.status, hsigned.terms, hsigned.wish,
        hsigned.signatures, ?_⟩
      simpa [hfirst] using hstatus

end ProtocolSign

end Sxp
