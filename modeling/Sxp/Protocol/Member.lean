-- SUMMARY: A party of the optimistic exchange that follows the code: what it sends is genuine, and what it takes in.
import Sxp.Protocol.Exchange

/-!
# Members of the exchange

A party keeps what the protocol relies on, whatever it sends and handles: the terms, the keys, and
that the signatures it holds are accepted.
-/

namespace Sxp

namespace OptimisticSetting

variable (S : OptimisticSetting)

/-- The `n`th message of the party with the key `K`: what it holds for each party is a promise that
verifies, or in the last round a clear signature. -/
structure Genuine (K : ElGamalKeyPair) (n : Nat) (msg : SignMessage) : Prop where
  round : msg.round = some ((n : Int) + 1)
  promise : n ≤ S.N → ∀ R ∈ S.keys, ∃ text clear o, msg.entries.get R.publicKey = some text ∧
    S.tools.decryptMsg text R.toElGamalKey = .ok clear ∧ S.tools.getPrivateCS clear = some o ∧
      o.verifies S.tools.hash (S.terms.roundData ((n : Int) + 1)) = .ok true
  signature : N S < n → ∀ R ∈ S.keys, ∃ text s, msg.entries.get R.publicKey = some text ∧
    S.tools.signatureOfJson text = some s ∧
      SigmaSigner.verify S.tools.hash
        { trentK := some S.trentKey, receiverK := some K.toElGamalKey } S.terms.getHashableData s =
          .ok true

/-- A party that follows the code: what never changes about it, and what it has sent. -/
structure Member (i : Nat) (K : ElGamalKeyPair) (e : Establisher) : Prop where
  index : S.keys[i]? = some K
  key : e.key = K.toElGamalKey
  trentKey : e.trentKey = S.trentKey
  terms : e.contract.toContractTerms = S.terms
  willing : e.contract.wish ≠ .refuse
  clear : e.contract.AllClear S.tools.hash S.trentKey
  sized : e.Sized
  sent : ∀ n msg, e.sent[n]? = some msg → S.Genuine K n msg

namespace Member

variable {S} {i : Nat} {K : ElGamalKeyPair} {e : Establisher}

theorem N_eq (h : S.Member i K e) : e.N = S.N := by
  simp [Establisher.N, h.terms, OptimisticSetting.terms, OptimisticSetting.N]

theorem mem (h : S.Member i K e) : K ∈ S.keys := List.mem_of_getElem? h.index

theorem parties (h : S.Member i K e) : e.contract.parties = S.terms.parties :=
  congrArg ContractTerms.parties h.terms

theorem nodup (h : S.Member i K e) :
    (e.contract.parties.zipIdx.map fun x => x.1.publicKey).Nodup := by
  have hmap : e.contract.parties.zipIdx.map (fun x => x.1.publicKey) =
      S.keys.map fun k => k.publicKey := by
    rw [show (fun x : ElGamalKey × Nat => x.1.publicKey) =
        (fun k : ElGamalKey => k.publicKey) ∘ Prod.fst from rfl,
      ← List.map_map, List.zipIdx_map_fst, h.parties, OptimisticSetting.terms, List.map_map]
    rfl
  rw [hmap]
  exact S.distinct

/-- A receiver is a party. -/
theorem receiver (h : S.Member i K e) {x : ElGamalKey × Nat} (hx : x ∈ e.contract.parties.zipIdx) :
    ∃ R ∈ S.keys, x.1 = R.toElGamalKey ∧ S.keys[x.2]? = some R := by
  have hget := List.mem_zipIdx_iff_getElem?.mp hx
  rw [h.parties, OptimisticSetting.terms, List.getElem?_map] at hget
  obtain ⟨R, hR, heq⟩ := Option.map_eq_some_iff.mp hget
  exact ⟨R, List.mem_of_getElem? hR, heq.symm, hR⟩

theorem self (h : S.Member i K e) :
    (K.toElGamalKey, i) ∈ e.contract.parties.zipIdx := by
  rw [List.mem_zipIdx_iff_getElem?, h.parties]
  exact S.parties_getElem? h.index

theorem member (h : S.Member i K e) :
    ∃ party ∈ e.contract.parties, party.publicKey = e.key.publicKey :=
  ⟨K.toElGamalKey, List.fst_mem_of_mem_zipIdx h.self, by rw [h.key]⟩

/-- Another state of the same party. -/
theorem update (h : S.Member i K e) {e' : Establisher} (hkey : e'.key = e.key)
    (htrent : e'.trentKey = e.trentKey) (hcontract : e'.contract = e.contract)
    (hsized : e'.Sized) (hsent : ∀ n msg, e'.sent[n]? = some msg → S.Genuine K n msg) :
    S.Member i K e' where
  index := h.index
  key := hkey.trans h.key
  trentKey := htrent.trans h.trentKey
  terms := by rw [hcontract, h.terms]
  willing := by rw [hcontract]; exact h.willing
  clear := by rw [hcontract]; exact h.clear
  sized := hsized
  sent := hsent

/-! ## Sending -/

/-- What is written for all parties is genuine. -/
theorem genuine_of_writes (h : S.Member i K e) {n : Nat} (hround : e.round = n + 1)
    (hn : n ≤ S.N + 1) {coins : Nat → Nat} {content : HashMap Int String}
    (hwrites : ∀ x ∈ e.contract.parties.zipIdx, ∃ text, content.get x.1.publicKey = some text ∧
      ProtocolSign.Writes S.tools e coins x text) :
    S.Genuine K n { round := some (e.round : Int), entries := content } := by
  have hreceiver : ∀ R ∈ S.keys, ∃ k, (R.toElGamalKey, k) ∈ e.contract.parties.zipIdx := by
    intro R hR
    obtain ⟨k, hk, hget⟩ := List.getElem_of_mem hR
    refine ⟨k, ?_⟩
    rw [List.mem_zipIdx_iff_getElem?, h.parties]
    exact S.parties_getElem? (by rw [List.getElem?_eq_getElem hk, hget])
  have hN := h.N_eq
  refine ⟨by rw [hround]; rfl, fun hle R hR => ?_, fun hlt R hR => ?_⟩
  · obtain ⟨k, hk⟩ := hreceiver R hR
    obtain ⟨text, hget, hwrites⟩ := hwrites _ hk
    obtain ⟨o, ho, htext⟩ := hwrites.2 (by omega)
    rw [h.key, h.trentKey, hround] at ho
    obtain ⟨o', ho', hverifies⟩ := getPcs_good h.mem hR (coins k) (e.contract.roundData (n + 1 : ℕ))
    rw [ho, Except.ok.injEq] at ho'
    subst ho'
    obtain ⟨o', hdecoded, hsame⟩ := S.promise_decoded K h.mem R hR _ _ _ ho
    obtain ⟨c, hc, hclear⟩ := S.decrypts (coins k) (S.tools.getJson o) R hR
    rw [htext, Except.ok.injEq] at hc
    refine ⟨text, S.tools.getJson o, o', hget, hc ▸ hclear, hdecoded, ?_⟩
    have hdata := hsame hverifies
    rwa [h.terms] at hdata
  · obtain ⟨k, hk⟩ := hreceiver R hR
    obtain ⟨text, hget, hwrites⟩ := hwrites _ hk
    obtain ⟨s, hs, rfl⟩ := hwrites.1 (by omega)
    rw [h.key, h.trentKey, h.terms] at hs
    obtain ⟨s', hs', hverify⟩ := getClearSignature_good h.mem hR (coins k) S.terms.getHashableData
    rw [hs, Except.ok.injEq] at hs'
    subst hs'
    obtain ⟨s', hdecoded, hsame⟩ := S.signature_decoded K h.mem R hR _ _ _ hs
    exact ⟨_, s', hget, hdecoded, hsame _ hverify⟩

/-- Sending adds one genuine message. -/
theorem sent_append (h : S.Member i K e) {msg : SignMessage}
    (hmsg : S.Genuine K e.sent.length msg) :
    ∀ n msg', (e.sent ++ [msg])[n]? = some msg' → S.Genuine K n msg' := by
  intro n msg' hget
  rcases Nat.lt_trichotomy n e.sent.length with hlt | rfl | hgt
  · rw [List.getElem?_append_left hlt] at hget
    exact h.sent n msg' hget
  · rw [List.getElem?_concat_length, Option.some.injEq] at hget
    exact hget ▸ hmsg
  · rw [List.getElem?_eq_none (by simp; omega)] at hget
    cases hget

/-- The promises for a round go out, the sender's own is stored. -/
theorem sends_promise (h : S.Member i K e) (hround : e.round = e.sent.length + 1)
    (hle : e.round ≤ S.N + 1) (coins : Nat → Nat) :
    let e' := (ProtocolSign.sendMessage S.tools e coins).1
    S.Member i K e' ∧ e'.contract = e.contract ∧ e'.round = e.round ∧
      e'.sent.length = e.round ∧
      ∀ r k, k < S.N → (e'.stored r k ≠ none ↔ e.stored r k ≠ none ∨ r = e.round ∧ k = i) := by
  intro e'
  have hN := h.N_eq
  have hpromises : ProtocolSign.Promises S.tools e coins e.contract.parties.zipIdx := by
    intro x hx
    obtain ⟨R, hR, hxR, -⟩ := h.receiver hx
    obtain ⟨o, ho, -⟩ := getPcs_good h.mem hR (coins x.2) (e.contract.roundData e.round)
    obtain ⟨c, hc, -⟩ := S.decrypts (coins x.2) (S.tools.getJson o) R hR
    rw [hxR, h.key, h.trentKey]
    exact ⟨o, c, ho, hc⟩
  obtain ⟨e₁, content, hfill, hpromised⟩ :=
    ProtocolSign.fillContent_promises (by omega) hpromises {}
  have hwrites := (ProtocolSign.fillContent_writes h.nodup hfill).1
  have he' := ProtocolSign.sendMessage_of_filled h.willing h.member hfill
  have hmoves := ProtocolSign.sendMessage_moves S.tools e coins
  have hstores := ProtocolSign.sendMessage_stores S.tools e coins
  have hsent : e'.sent = e.sent ++ [{ round := some (e.round : Int), entries := content }] := by
    simp only [e', he']
  have hcontract : e'.contract = e.contract := by
    simp only [e', he']
    exact hpromised.contract
  refine ⟨h.update hmoves.key hstores.trentKey hcontract (h.sized.stores hstores hmoves.N_eq) ?_,
    hcontract, hmoves.round, ?_, fun r k hk => ?_⟩
  · rw [hsent]
    exact h.sent_append (h.genuine_of_writes hround (by omega) hwrites)
  · rw [hsent, List.length_append, List.length_singleton, hround]
  · constructor
    · intro hstored
      rcases hmoves.stored r k hstored with hold | ⟨hr, party, hparty, hown⟩
      · exact Or.inl hold
      · refine Or.inr ⟨hr, ?_⟩
        rw [h.parties, OptimisticSetting.terms, List.getElem?_map] at hparty
        obtain ⟨R, hR, rfl⟩ := Option.map_eq_some_iff.mp hparty
        rw [h.key] at hown
        exact S.index_unique hR h.index hown
    · rintro (hold | ⟨rfl, rfl⟩)
      · exact hmoves.kept r k hold
      · have hslot : e.HasSlot e.round k := (h.sized _ _).mpr ⟨by omega, by omega⟩
        have hstored := hpromised.own _ h.self (by rw [h.key]) hslot
        simp only [e', he']
        exact hstored

/-- The first party of the contract. -/
theorem exists_first (h : S.Member i K e) : ∃ first rest, S.keys[0]? = some first ∧
    e.contract.parties = first.toElGamalKey :: rest := by
  obtain ⟨first, hfirst⟩ := S.exists_keys (show 0 < S.N from lt_of_lt_of_le two_pos S.two_parties)
  have hparty := S.parties_getElem? hfirst
  rw [← h.parties] at hparty
  cases hlist : e.contract.parties with
  | nil => simp [hlist] at hparty
  | cons k rest =>
      rw [hlist, List.getElem?_cons_zero, Option.some.injEq] at hparty
      exact ⟨first, rest, hfirst, by rw [hparty]⟩

/-- The same party with one more good signature. -/
theorem signed (h : S.Member i K e) {c : SigmaContract} {k first : ElGamalKey} {s : SigmaSignature}
    (hclear : c.AllClear S.tools.hash S.trentKey) (hsigned : e.contract.Signed k s first c) :
    S.Member i K { e with contract := c } where
  index := h.index
  key := h.key
  trentKey := h.trentKey
  terms := hsigned.terms.trans h.terms
  willing := by
    rw [hsigned.wish]
    exact h.willing
  clear := hclear
  sized := by
    have hN : ({ e with contract := c } : Establisher).N = e.N := by
      rw [Establisher.N, Establisher.N, hsigned.terms]
    intro r k'
    rw [hN]
    exact h.sized r k'
  sent := h.sent

/-- The clear signatures go out, the sender's own is added to its contract. -/
theorem sends_signature (h : S.Member i K e) (hround : e.round = e.sent.length + 1)
    (hlast : e.round = S.N + 2) (coins : Nat → Nat) {first : ElGamalKeyPair}
    (hfirst : S.keys[0]? = some first) :
    let e' := (ProtocolSign.sendMessage S.tools e coins).1
    S.Member i K e' ∧ e'.round = e.round ∧ e'.sent.length = e.round ∧
      e'.roundReceived = e.roundReceived ∧
      ∃ s, e.contract.Signed K.toElGamalKey s first.toElGamalKey e'.contract := by
  intro e'
  have hN := h.N_eq
  obtain ⟨first', rest, hfirst', hparties⟩ := h.exists_first
  rw [hfirst, Option.some.injEq] at hfirst'
  subst hfirst'
  have hmakes : ProtocolSign.MakesClear S.tools e coins e.contract.parties.zipIdx := by
    intro x hx
    obtain ⟨R, hR, hxR, -⟩ := h.receiver hx
    obtain ⟨s, hs, -⟩ := getClearSignature_good h.mem hR (coins x.2) e.contract.getHashableData
    rw [hxR, h.key, h.trentKey]
    exact ⟨s, hs⟩
  -- what the tools make for the sender itself can be added
  have hadd : ∀ s, S.tools.getClearSignature (coins i) e.key e.trentKey e.contract.getHashableData
      K.toElGamalKey = .ok s →
        ∃ c, e.contract.addSignature S.tools.hash K.toElGamalKey s = (c, .ok ()) ∧
        c.AllClear S.tools.hash S.trentKey ∧
        e.contract.Signed K.toElGamalKey s first.toElGamalKey c := by
    intro s hs
    obtain ⟨s', hs', hverify⟩ :=
      getClearSignature_good h.mem h.mem (coins i) e.contract.getHashableData
    rw [h.key, h.trentKey, hs', Except.ok.injEq] at hs
    rw [← hs]
    exact h.clear.addSignature hparties (List.fst_mem_of_mem_zipIdx h.self) hverify
  obtain ⟨s, content, hs, hfill⟩ := ProtocolSign.fillContent_last (by omega) h.nodup hmakes h.self
    (by rw [h.key]) (fun s hs => by obtain ⟨c, hc, -⟩ := hadd s hs; rw [hc]) {}
  obtain ⟨c, hc, hclear, hsigned⟩ := hadd s hs
  rw [hc] at hfill
  have hwrites := (ProtocolSign.fillContent_writes h.nodup hfill).1
  have he' : e' = { e with contract := c,
                           sent := e.sent ++ [{ round := some (e.round : Int),
                                                entries := content }] } :=
    ProtocolSign.sendMessage_of_filled h.willing h.member hfill
  rw [he']
  have hmember := h.signed hclear hsigned
  refine ⟨hmember.update rfl rfl rfl hmember.sized ?_, rfl, ?_, rfl, s, hsigned⟩
  · exact h.sent_append (h.genuine_of_writes hround (by omega) hwrites)
  · rw [List.length_append, List.length_singleton, hround]

/-! ## Handling -/

variable {j n : Nat} {K' : ElGamalKeyPair} {msg : SignMessage}

theorem sender (h : S.Member i K e) (hK' : S.keys[j]? = some K') (hne : i ≠ j) :
    e.contract.parties.findIdx? (fun k => k.publicKey == K'.publicKey) = some j ∧
      e.contract.parties[j]? = some K'.toElGamalKey ∧ K'.publicKey ≠ e.key.publicKey := by
  rw [h.parties, h.key]
  refine ⟨S.findIdx_publicKey hK', S.parties_getElem? hK', fun heq => ?_⟩
  exact hne (S.index_unique h.index hK' heq.symm)

/-- A promise is stored if there is none yet. -/
theorem takes_promise (h : S.Member i K e) (hK' : S.keys[j]? = some K') (hne : i ≠ j)
    (hmsg : S.Genuine K' n msg) (hn : n ≤ S.N) :
    let e' := e.handle S.tools (.deliver msg K'.publicKey)
    S.Member i K e' ∧ e'.contract = e.contract ∧ e'.round = e.round ∧ e'.sent = e.sent ∧
      ∀ r k, e'.stored r k ≠ none ↔ e.stored r k ≠ none ∨ r = n + 1 ∧ k = j := by
  intro e'
  have hN := h.N_eq
  obtain ⟨hindex, hparty, hother⟩ := h.sender hK' hne
  obtain ⟨hj, -⟩ := List.getElem?_eq_some_iff.mp hK'
  obtain ⟨text, clear, o, hget, hdecrypt, hpcs, hverifies⟩ := hmsg.promise hn K h.mem
  have haccepted : ProtocolSign.Accepted S.tools e msg K'.publicKey (n + 1) j o := by
    refine ⟨hindex, hother, hmsg.round, ⟨text, clear, ?_, ?_, hpcs⟩, ?_⟩
    · rw [h.key]
      exact hget
    · rw [h.key]
      exact hdecrypt
    · rw [h.terms]
      exact hverifies
  have hslot : e.HasSlot (n + 1) j := (h.sized _ _).mpr ⟨by omega, by rw [hN]; exact hj⟩
  obtain ⟨hstored, hsame | hstore⟩ := haccepted.stores (by omega) hslot
  · rw [hsame] at hstored
    rw [show e' = e from hsame]
    refine ⟨h, rfl, rfl, rfl, fun r k => ⟨Or.inl, ?_⟩⟩
    rintro (hold | ⟨rfl, rfl⟩)
    · exact hold
    · exact hstored
  · rw [hstore] at hstored
    rw [show e' = e.store (n + 1) j o from hstore]
    refine ⟨h.update rfl rfl rfl (fun r k => ?_) h.sent, rfl, rfl, rfl,
      fun r k => ⟨fun hnew => ?_, ?_⟩⟩
    · rw [Establisher.hasSlot_store]
      exact h.sized r k
    · obtain ⟨o', ho'⟩ := Option.ne_none_iff_exists'.mp hnew
      rcases Establisher.stored_store ho' with hold | ⟨hr, hk, -⟩
      · exact Or.inl (by rw [hold]; exact Option.some_ne_none o')
      · exact Or.inr ⟨hr, hk⟩
    · rintro (hold | ⟨rfl, rfl⟩)
      · exact Establisher.stored_store_of_stored hold _ _ _
      · exact hstored

/-- A clear signature is added to the contract, and the listener goes if that finalizes it. -/
theorem takes_signature (h : S.Member i K e) (hK' : S.keys[j]? = some K') (hne : i ≠ j)
    (hmsg : S.Genuine K' n msg) (hn : n = S.N + 1) {first : ElGamalKeyPair}
    (hfirst : S.keys[0]? = some first) :
    let e' := e.handle S.tools (.deliver msg K'.publicKey)
    S.Member i K e' ∧ e'.round = e.round ∧ e'.sent = e.sent ∧ e'.roundReceived = e.roundReceived ∧
      (∃ s, e.contract.Signed K'.toElGamalKey s first.toElGamalKey e'.contract) ∧
      ProtocolSign.removesListener S.tools e msg K'.publicKey =
        (e'.contract.signatures.get first.toElGamalKey).isSome := by
  intro e'
  have hN := h.N_eq
  obtain ⟨first', rest, hfirst', hparties⟩ := h.exists_first
  rw [hfirst, Option.some.injEq] at hfirst'
  subst hfirst'
  obtain ⟨hindex, hparty, hother⟩ := h.sender hK' hne
  obtain ⟨text, s, hget, hdecoded, hverify⟩ := hmsg.signature (by omega) K h.mem
  rw [show K.publicKey = e.key.publicKey by rw [h.key]] at hget
  rw [← h.trentKey, ← h.terms] at hverify
  have hmem : K'.toElGamalKey ∈ e.contract.parties := List.mem_of_getElem? hparty
  have hclear := h.clear
  rw [← h.trentKey] at hclear
  have hround : msg.round = some ((e.N : Int) + 2) := by
    rw [hmsg.round, hn, hN]
    congr 1
  have hbrings : ProtocolSign.BringsSignature S.tools e msg K'.publicKey K'.toElGamalKey s :=
    ⟨j, text, hindex, hparty, hother, hround, hget, hdecoded,
      SigmaSigner.verify_of_receiver hverify⟩
  have he' : e' = (ProtocolSign.storeSignature S.tools e K'.toElGamalKey s).1 :=
    ProtocolSign.verifyAndStoreSignature_of_brings S.tools hbrings
  obtain ⟨c, hstore, hclear', hsigned⟩ :=
    ProtocolSign.storeSignature_clear hclear hparties hmem hverify
  rw [hstore] at he'
  rw [h.trentKey] at hclear'
  rw [he']
  refine ⟨h.signed hclear' hsigned, rfl, rfl, rfl, ⟨s, hsigned⟩, ?_⟩
  obtain ⟨c', hadd, hclear'', hsigned'⟩ := hclear.addSignature hparties hmem hverify
  have htest := hclear''.isFinalized (show c'.parties = _ by rw [hsigned'.terms, hparties])
  have hfind : e.contract.parties.find? (fun k => k.publicKey == K'.publicKey) =
      some K'.toElGamalKey := by
    obtain ⟨hlt, hfound, hbefore⟩ := List.findIdx?_eq_some_iff_getElem.mp hindex
    rw [List.getElem?_eq_getElem hlt, Option.some.injEq] at hparty
    rw [List.find?_eq_some_iff_getElem]
    exact ⟨BEq.rfl, j, hlt, hparty, fun k hk => by simpa using hbefore k hk⟩
  simp only [ProtocolSign.removesListener, hfind, hround, hget, Option.bind_some, hdecoded,
    ne_eq, hother,
    not_false_eq_true, and_self, if_true, SigmaSigner.verify_of_receiver hverify, hadd, htest,
    hsigned'.signatures, hsigned.signatures]
  rfl

end Member

end OptimisticSetting

end Sxp
