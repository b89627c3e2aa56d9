-- SUMMARY: An outsider who knows only public keys plays all other parties against an honest one, and gets its signature.
import Sxp.Contract.Outsider
import Sxp.Protocol.Quiescence

/-!
# Impersonation

The handler of signing messages takes the sender from a field of the message. One honest party
signs, and all its messages come from an outsider, in any order. The outsider writes promises
and signatures in the names of the other parties; it has no private key.
-/

namespace Sxp

namespace Outsider

variable (tools : StepTools) (trentKey : ElGamalKey) (terms : ContractTerms)

/-- What the outsider writes for `R` in the `n`th message in the name of `S`. -/
def entry (S : ElGamalKey) (n : Nat) (draws : OutsiderDraws) (coins : Nat) (R : ElGamalKey) :
    Except JavaException (Int × String) :=
  if n ≤ terms.parties.length then do
    let o ← promise tools.hash S R trentKey (terms.roundData ((n : Int) + 1)) draws
    let text ← tools.encryptMsg coins (tools.getJson o) R
    return (R.publicKey, text)
  else do
    let s ← signature tools.hash S R trentKey terms.getHashableData draws
    return (R.publicKey, tools.signatureToJson s)

def message (S : ElGamalKey) (n : Nat) (draws : OutsiderDraws) (coins : Nat) :
    Except JavaException SignMessage := do
  let entries ← terms.parties.mapM (entry tools trentKey terms S n draws coins)
  return { round := some ((n : Int) + 1), entries := HashMap.ofEntries entries }

end Outsider

/-- An encoding that also gives back what an outsider has made. -/
structure OpenSetting extends OptimisticSetting where
  forged_promise_decoded : ∀ S ∈ keys, ∀ R ∈ keys, ∀ data draws o,
    Outsider.promise tools.hash S.toElGamalKey R.toElGamalKey trentKey data draws = .ok o →
      ∃ o', tools.getPrivateCS (tools.getJson o) = some o' ∧
        (o.verifies tools.hash data = .ok true → o'.verifies tools.hash data = .ok true)
  forged_signature_decoded : ∀ S ∈ keys, ∀ R ∈ keys, ∀ data draws s,
    Outsider.signature tools.hash S.toElGamalKey R.toElGamalKey trentKey data draws = .ok s →
      ∃ s', tools.signatureOfJson (tools.signatureToJson s) = some s' ∧
        ∀ signer : SigmaSigner, signer.verify tools.hash data s = .ok true →
          signer.verify tools.hash data s' = .ok true

/-- What happens to the honest party: the outsider's `n`th message in the name of `j` comes, or
it goes on. -/
inductive OutsiderEvent where
  | forged (j n : Nat) (draws : OutsiderDraws) (coins : Nat)
  | advance (coins : Nat → Nat)

namespace OpenSetting

variable (S : OpenSetting)

/-! ## What the outsider writes -/

theorem entry_genuine {K R : ElGamalKeyPair} (hK : K ∈ S.keys) (hR : R ∈ S.keys) (n : Nat)
    (draws : OutsiderDraws) (coins : Nat) :
    ∃ text, Outsider.entry S.tools S.trentKey S.terms K.toElGamalKey n draws coins R.toElGamalKey =
        .ok (R.publicKey, text) ∧
      (n ≤ S.N → ∃ clear o, S.tools.decryptMsg text R.toElGamalKey = .ok clear ∧
        S.tools.getPrivateCS clear = some o ∧
          o.verifies S.tools.hash (S.terms.roundData ((n : Int) + 1)) = .ok true) ∧
      (S.N < n → ∃ s, S.tools.signatureOfJson text = some s ∧
        SigmaSigner.verify S.tools.hash
          { trentK := some S.trentKey, receiverK := some K.toElGamalKey }
          S.terms.getHashableData s = .ok true) := by
  have := S.prime
  have hkeys := (S.fits K hK R hR).publicKeys
  have hlength : S.terms.parties.length = S.N := by
    simp [OptimisticSetting.terms, OptimisticSetting.N]
  simp only [Outsider.entry, hlength]
  split
  · rename_i hn
    obtain ⟨o, res, q, ho, -, hresembles⟩ :=
      Outsider.promise_resembles S.tools.hash hkeys (S.terms.roundData ((n : Int) + 1)) draws
    obtain ⟨o', ho', hverifies⟩ := S.forged_promise_decoded K hK R hR _ draws o ho
    obtain ⟨text, hencrypt, hdecrypt⟩ := S.decrypts coins (S.tools.getJson o) R hR
    refine ⟨text, ?_, fun _ => ⟨_, o', hdecrypt, ho', hverifies hresembles.verified⟩,
      fun h => absurd hn (by omega)⟩
    simp only [ho, hencrypt, Except.ok_bind]
    rfl
  · rename_i hn
    obtain ⟨s, hs, hverify⟩ :=
      Outsider.signature_accepted S.tools.hash hkeys S.terms.getHashableData draws
    obtain ⟨s', hs', hdecoded⟩ := S.forged_signature_decoded K hK R hR _ draws s hs
    refine ⟨_, ?_, fun h => absurd h hn, fun _ => ⟨s', hs', hdecoded _ ?_⟩⟩
    · simp only [hs, Except.ok_bind]
      rfl
    · exact hverify _ (Or.inr ⟨_, rfl, rfl⟩) (Or.inr rfl)

/-- For the code a message of the outsider is one of the party it names. -/
theorem message_genuine {K : ElGamalKeyPair} (hK : K ∈ S.keys) (n : Nat) (draws : OutsiderDraws)
    (coins : Nat) :
    ∃ msg, Outsider.message S.tools S.trentKey S.terms K.toElGamalKey n draws coins = .ok msg ∧
      S.Genuine K n msg := by
  let val : ElGamalKey → Int × String := fun R =>
    (R.publicKey, ((Outsider.entry S.tools S.trentKey S.terms K.toElGamalKey n draws coins
      R).toOption.getD (0, "")).2)
  have hval : ∀ R ∈ S.keys, ∀ text,
      Outsider.entry S.tools S.trentKey S.terms K.toElGamalKey n draws coins R.toElGamalKey =
        .ok (R.publicKey, text) → val R.toElGamalKey = (R.publicKey, text) := by
    intro R _ text htext
    simp only [val, htext]
    rfl
  have hentries : S.terms.parties.mapM
      (Outsider.entry S.tools S.trentKey S.terms K.toElGamalKey n draws coins) =
      .ok (S.terms.parties.map val) := by
    refine List.mapM_eq_ok_map fun party hparty => ?_
    obtain ⟨R, hR, rfl⟩ := List.mem_map.mp hparty
    obtain ⟨text, htext, -⟩ := S.entry_genuine hK hR n draws coins
    rw [htext, hval R hR text htext]
  have hget : ∀ R ∈ S.keys, ∀ text,
      Outsider.entry S.tools S.trentKey S.terms K.toElGamalKey n draws coins R.toElGamalKey =
        .ok (R.publicKey, text) →
      (HashMap.ofEntries (S.terms.parties.map val)).get R.publicKey = some text := by
    intro R hR text htext
    have hnodup : (S.terms.parties.map fun R => R.publicKey).Nodup := by
      rw [OptimisticSetting.terms, List.map_map]
      exact S.distinct
    have hfound := HashMap.get_ofEntries_map (fun R => (val R).2) hnodup (List.mem_map_of_mem hR)
    rw [show (val R.toElGamalKey).2 = text by rw [hval R hR text htext]] at hfound
    exact hfound
  refine ⟨_, by rw [Outsider.message, hentries]; rfl, rfl, fun hn R hR => ?_, fun hn R hR => ?_⟩
  · obtain ⟨text, htext, hpromise, -⟩ := S.entry_genuine hK hR n draws coins
    obtain ⟨clear, o, hdecrypt, hdecoded, hverifies⟩ := hpromise hn
    exact ⟨text, clear, o, hget R hR text htext, hdecrypt, hdecoded, hverifies⟩
  · obtain ⟨text, htext, -, hsignature⟩ := S.entry_genuine hK hR n draws coins
    obtain ⟨s, hdecoded, hverify⟩ := hsignature hn
    exact ⟨text, s, hget R hR text htext, hdecoded, hverify⟩

/-! ## The honest party -/

def step (i : Nat) (e : Establisher) : OutsiderEvent → Establisher
  | .forged j n draws coins =>
      match S.keys[j]? with
      | none => e
      | some K =>
          if j ≠ i ∧ n ≤ S.N + 1 then
            match Outsider.message S.tools S.trentKey S.terms K.toElGamalKey n draws coins with
            | .error _ => e
            | .ok msg => e.handle S.tools (.deliver msg K.publicKey)
          else e
  | .advance coins => e.handle S.tools (.advance coins)

/-- The party `i` with the key `K`, from its start on. -/
def victim (i : Nat) (K : ElGamalKeyPair) (coins : Nat → Nat) :
    Machine Establisher OutsiderEvent Unit where
  init := ((S.establisher K).setListenerOnTrent S.tools coins).1
  step e ev := (S.step i e ev, ())

/-- The outsider's `n`th message in the name of `j` is among the events. -/
def Sent (events : List OutsiderEvent) (j n : Nat) : Prop :=
  ∃ draws coins, OutsiderEvent.forged j n draws coins ∈ events

end OpenSetting

/-! ## In outline -/

namespace Outline

variable (N i : Nat)

def outsiderStep (a : Outline) : OutsiderEvent → Outline
  | .forged j n _ _ =>
      if j < N ∧ j ≠ i ∧ n ≤ N + 1 then
        if n ≤ N then (a.take i j n).receive i (n + 1) j else ((a.take i j n).hold i j).unlisten i
      else a
  | .advance coins => a.step N (.advance i coins)

/-- The outline of a party that has just started. -/
def startedAlone : Outline := Outline.step N {} (.start i fun _ => 0)

def outsiderMachine : Machine Outline OutsiderEvent Unit where
  init := startedAlone N i
  step a ev := (a.outsiderStep N i ev, ())

/-- The rounds of `i` and what it has of its own. -/
structure Alone (a : Outline) : Prop where
  round_pos : 1 ≤ a.round i
  round_le : a.round i ≤ N + 2
  own : ∀ r, 1 ≤ r → r ≤ a.round i → r ≤ N + 1 → a.has i r i = true
  own_signature : a.holds i i = true ↔ a.round i = N + 2
  signing : a.signing i = !a.holds i 0

variable {N i}

theorem alone_init (hi : i < N) : (outsiderMachine N i).init.Alone N i := by
  simp only [outsiderMachine, startedAlone, step, hi, and_self, if_true]
  constructor <;> simp [receive, enter]
  intro r hpos hle
  omega

theorem Alone.outsiderStep {a : Outline} (h : a.Alone N i) (ev : OutsiderEvent) :
    (a.outsiderStep N i ev).Alone N i := by
  obtain ⟨hpos, hle, hown, hsig, hsigning⟩ := h
  cases ev with
  | forged j n draws coins =>
      simp only [Outline.outsiderStep]
      split
      · split
        · constructor <;> simp only [receive, take] <;> grind
        · constructor <;> simp only [hold, take, unlisten] <;> grind
      · exact ⟨hpos, hle, hown, hsig, hsigning⟩
  | advance coins =>
      have hchange := a.step_change N (.advance i coins)
      simp only [Outline.outsiderStep]
      generalize a.step N (.advance i coins) = a' at hchange
      cases hchange with
      | none => exact ⟨hpos, hle, hown, hsig, hsigning⟩
      | next i coins hcan hround =>
          constructor <;> simp only [receive, enter, Function.update_apply] <;> grind [CanAdvance]
      | last i coins hcan hround =>
          constructor <;> simp only [hold, enter, Function.update_apply] <;> grind [CanAdvance]

/-- What `i` has it keeps. -/
theorem outsiderStep_mono (a : Outline) (ev : OutsiderEvent) (r j : Nat) :
    (a.has i r j = true → (a.outsiderStep N i ev).has i r j = true) ∧
      (a.holds i j = true → (a.outsiderStep N i ev).holds i j = true) := by
  cases ev with
  | forged k n draws coins =>
      simp only [Outline.outsiderStep]
      split
      · split <;> simp only [receive, take, hold, unlisten] <;> grind
      · exact ⟨id, id⟩
  | advance coins =>
      have hchange := a.step_change N (.advance i coins)
      simp only [Outline.outsiderStep]
      generalize a.step N (.advance i coins) = a' at hchange
      cases hchange with
      | none => exact ⟨id, id⟩
      | next => simp only [receive, enter]; grind
      | last => simp only [hold, enter]; grind

theorem outsider_exec_forged {events : List OutsiderEvent} {j n : Nat} (hj : j < N) (hne : j ≠ i)
    {draws : OutsiderDraws} {coins : Nat} (hmem : OutsiderEvent.forged j n draws coins ∈ events) :
    let a := (outsiderMachine N i).exec (outsiderMachine N i).init events
    (n ≤ N → a.has i (n + 1) j = true) ∧ (n = N + 1 → a.holds i j = true) := by
  refine ⟨fun hn => ?_, fun hn => ?_⟩
  · refine (outsiderMachine N i).exec_established (P := fun a => a.has i (n + 1) j = true)
      (fun a => ?_) (fun a ev => (outsiderStep_mono a ev (n + 1) j).1) _ hmem
    show (a.outsiderStep N i (.forged j n draws coins)).has i (n + 1) j = true
    rw [outsiderStep, if_pos ⟨hj, hne, by omega⟩, if_pos hn]
    simp [receive]
  · refine (outsiderMachine N i).exec_established (P := fun a => a.holds i j = true) (fun a => ?_)
      (fun a ev => (outsiderStep_mono a ev 0 j).2) _ hmem
    show (a.outsiderStep N i (.forged j n draws coins)).holds i j = true
    rw [outsiderStep, if_pos ⟨hj, hne, by omega⟩, if_neg (by omega)]
    simp [hold, unlisten]

/-- Without a message of the outsider that brings it, `i` does not get the first signature of
another. -/
theorem outsider_exec_not_held {events : List OutsiderEvent} (hi : i ≠ 0)
    (hnone : ∀ draws coins, OutsiderEvent.forged 0 (N + 1) draws coins ∉ events) :
    ((outsiderMachine N i).exec (outsiderMachine N i).init events).holds i 0 = false := by
  refine (outsiderMachine N i).exec_preserves_of_mem (P := fun a => a.holds i 0 = false)
    (fun ev hev a h => ?_) ?_
  · show (a.outsiderStep N i ev).holds i 0 = false
    cases ev with
    | forged j n draws coins =>
        simp only [outsiderStep]
        split
        · rename_i hcond
          split
          · exact h
          · have hj : j ≠ 0 := by
              rintro rfl
              obtain rfl : n = N + 1 := by omega
              exact hnone draws coins hev
            simp [hold, take, unlisten, h, hj.symm]
        · exact h
    | advance coins =>
        have hchange := a.step_change N (.advance i coins)
        simp only [outsiderStep]
        generalize a.step N (.advance i coins) = a' at hchange
        cases hchange with
        | none => exact h
        | next => exact h
        | last => simp [hold, enter, h, hi.symm]
  · simp only [outsiderMachine, startedAlone, step]
    split <;> simp [receive, enter]

/-- With all promises `i` goes on to the last round, unless the first party's signature stops it. -/
theorem Alone.round_of_stuck {a : Outline} (h : a.Alone N i) (hstuck : ¬ a.CanAdvance N i)
    (hall : ∀ j < N, j ≠ i → ∀ n ≤ N, a.has i (n + 1) j = true) :
    a.round i = N + 2 ∨ a.holds i 0 = true := by
  rw [or_iff_not_imp_right, Bool.not_eq_true]
  intro hnot
  by_contra hround
  have hle := h.round_le
  have hpos := h.round_pos
  refine hstuck ⟨hpos, by omega, by rw [h.signing, hnot]; rfl, fun k hk => ?_⟩
  rcases Decidable.em (k = i) with rfl | hne
  · exact h.own _ hpos (Nat.le_refl _) (by omega)
  · have hgot := hall k hk hne (a.round i - 1) (by omega)
    rwa [show a.round i - 1 + 1 = a.round i by omega] at hgot

end Outline

/-! ## The status of a party that only signs -/

namespace ProtocolSign

variable (tools : StepTools)

theorem fillContent_status (coins : Nat → Nat) (receivers : List (ElGamalKey × Nat))
    (e : Establisher) (content : HashMap Int String) :
    let e' := (fillContent tools coins receivers e content).1
    e'.contract.status = e.contract.status ∨ e'.contract.status = .finalized := by
  induction receivers generalizing e content with
  | nil => exact Or.inl rfl
  | cons x rest ih =>
      obtain ⟨receiverK, k⟩ := x
      simp only [fillContent]
      split
      · split
        · exact Or.inl rfl
        · rename_i signature _
          split
          · have hadd := SigmaContract.addSignature_status tools.hash e.contract receiverK signature
            split
            · rename_i c x heq
              rwa [heq] at hadd
            · rename_i c heq
              rw [heq] at hadd
              rcases ih { e with contract := c } _ with hsame | hfinal
              · rcases hadd with hkept | hfinal
                · exact Or.inl (hsame.trans hkept)
                · exact Or.inr (hsame.trans hfinal)
              · exact Or.inr hfinal
          · exact ih e _
      · split
        · exact Or.inl rfl
        · split
          · exact Or.inl rfl
          · split
            · exact ih _ _
            · exact ih e _

theorem sendMessage_status {e : Establisher} (hwilling : e.contract.wish ≠ .refuse)
    (coins : Nat → Nat) :
    let e' := (sendMessage tools e coins).1
    e'.contract.status = e.contract.status ∨ e'.contract.status = .finalized := by
  have hfill := fillContent_status tools coins e.contract.parties.zipIdx e {}
  rw [sendMessage, if_neg hwilling]
  split
  · rename_i heq
    rwa [heq] at hfill
  · rename_i heq
    rw [heq] at hfill
    split <;> exact hfill

theorem verifyAndStoreSignature_status (e : Establisher) (message : SignMessage) (senderId : Int) :
    let e' := (verifyAndStoreSignature tools e message senderId).1
    e'.contract.status = e.contract.status ∨ e'.contract.status = .finalized := by
  rcases Classical.em (∃ senderKey s, BringsSignature tools e message senderId senderKey s) with
    ⟨senderKey, s, hbrings⟩ | hnone
  · obtain ⟨i, text, -, hsender, -, -, -, -, hverify⟩ := id hbrings
    obtain ⟨hfinal, hkept⟩ := storeSignature_status tools (List.mem_of_getElem? hsender) hverify
    rw [verifyAndStoreSignature_of_brings tools hbrings]
    by_cases hfinalizes : (e.contract.storeSignature senderKey s).Finalizes tools.hash
    · exact Or.inr (hfinal hfinalizes)
    · exact Or.inl (hkept hfinalizes)
  · exact Or.inl (verifyAndStoreSignature_of_not_brings tools hnone)

end ProtocolSign

namespace OpenSetting

variable {S : OpenSetting} {i : Nat} {K : ElGamalKeyPair}

/-! ## The honest party in outline -/

/-- Whatever the outsider does, the outline says of the honest party what is the case. -/
theorem tracks_step {a : Outline} {e : Establisher} (h : S.Tracks a i e) (halone : a.Alone S.N i)
    (ev : OutsiderEvent) : S.Tracks (a.outsiderStep S.N i ev) i (S.step i e ev) := by
  cases ev with
  | forged j n draws coins =>
      cases hkey : S.keys[j]? with
      | none =>
          have hj : ¬ (j < S.N ∧ j ≠ i ∧ n ≤ S.N + 1) := fun hj =>
            absurd hj.1 (Nat.not_lt.mpr (List.getElem?_eq_none_iff.mp hkey))
          simpa only [OpenSetting.step, hkey, Outline.outsiderStep, if_neg hj] using h
      | some K' =>
          have hj : j < S.N := (List.getElem?_eq_some_iff.mp hkey).1
          obtain ⟨msg, hmsg, hgenuine⟩ :=
            S.message_genuine (List.mem_of_getElem? hkey) n draws coins
          simp only [OpenSetting.step, hkey, hmsg, Outline.outsiderStep, hj, true_and]
          split
          · rename_i hcond
            split
            · rename_i hn
              exact (h.promise S.toOptimisticSetting hkey hcond.1.symm hgenuine hn).1
            · rename_i hn
              exact (h.signature S.toOptimisticSetting hkey hcond.1.symm hgenuine (by omega)).1
          · exact h
  | advance coins =>
      have hcan := h.canAdvance_iff S.toOptimisticSetting (Nat.pos_iff_ne_zero.mp halone.round_pos)
      by_cases hadvance : ProtocolSign.CanAdvance e
      · simp only [OpenSetting.step, Outline.outsiderStep, Outline.step, if_pos (hcan.mp hadvance)]
        split
        · rename_i hround
          exact h.next S.toOptimisticSetting hadvance hround coins
        · rename_i hround
          have hle := (hcan.mp hadvance).2.1
          exact h.last S.toOptimisticSetting hadvance (by omega) coins
      · simp only [OpenSetting.step, Outline.outsiderStep, Outline.step,
          if_neg (mt hcan.mpr hadvance), Establisher.handle, if_neg hadvance]
        exact h

theorem tracks_victim (hK : S.keys[i]? = some K) (coins : Nat → Nat) (events : List OutsiderEvent) :
    let a := (Outline.outsiderMachine S.N i).exec (Outline.outsiderMachine S.N i).init events
    S.Tracks a i ((S.victim i K coins).exec (S.victim i K coins).init events) ∧ a.Alone S.N i := by
  have hi : i < S.N := (List.getElem?_eq_some_iff.mp hK).1
  have hstep : ∀ e a ev, S.Tracks a i e ∧ a.Alone S.N i →
      S.Tracks ((Outline.outsiderMachine S.N i).next a ev) i ((S.victim i K coins).next e ev) ∧
        ((Outline.outsiderMachine S.N i).next a ev).Alone S.N i :=
    fun e a ev h => ⟨tracks_step h.1 h.2 ev, h.2.outsiderStep ev⟩
  refine Machine.exec_simulates (R := fun e a => S.Tracks a i e ∧ a.Alone S.N i) hstep
    ⟨?_, Outline.alone_init hi⟩ events
  have hstart := S.tracks_start hK (Outline.sound_init S.N) rfl coins
  rw [show (Outline.outsiderMachine S.N i).init =
    Outline.step S.N {} (.start i fun _ => 0) from rfl, Outline.step, if_pos ⟨hi, rfl⟩]
  exact hstart

theorem step_status {a : Outline} {e : Establisher} (h : S.Tracks a i e) (ev : OutsiderEvent) :
    (S.step i e ev).contract.status = e.contract.status ∨
    (S.step i e ev).contract.status = .finalized := by
  cases ev with
  | forged j n draws coins =>
      simp only [OpenSetting.step]
      split
      · exact Or.inl rfl
      · split
        · split
          · exact Or.inl rfl
          · exact ProtocolSign.verifyAndStoreSignature_status S.tools e _ _
        · exact Or.inl rfl
  | advance coins =>
      obtain ⟨K', hK'⟩ := h.member
      simp only [OpenSetting.step, Establisher.handle]
      split
      · exact ProtocolSign.sendMessage_status S.tools (e := e.nextRound) hK'.willing coins
      · exact Or.inl rfl

theorem victim_status (hK : S.keys[i]? = some K) (coins : Nat → Nat) (events : List OutsiderEvent) :
    let e := (S.victim i K coins).exec (S.victim i K coins).init events
    e.contract.status = .signing ∨ e.contract.status = .finalized := by
  induction events using List.reverseRecOn with
  | nil =>
      rw [Machine.exec_nil]
      exact ProtocolSign.sendMessage_status S.tools (e := (S.establisher K).started)
        (S.member_started hK).willing coins
  | append_singleton events ev ih =>
      rw [Machine.exec_append]
      rcases step_status (tracks_victim hK coins events).1 ev with hsame | hfinal
      · rcases ih with hsigning | hfinal
        · exact Or.inl (hsame.trans hsigning)
        · exact Or.inr (hsame.trans hfinal)
      · exact Or.inr hfinal

/-- A signature that the outline mentions is held, and verifies. -/
theorem holdsClear_of_tracks {a : Outline} {e : Establisher} (h : S.Tracks a i e) {j : Nat}
    {R : ElGamalKeyPair} (hR : S.keys[j]? = some R) (hholds : a.holds i j = true) :
    S.HoldsClear e R.toElGamalKey := by
  obtain ⟨K', hK'⟩ := h.member
  obtain ⟨s, hs⟩ := Option.isSome_iff_exists.mp ((h.signatures j R hR).mpr hholds)
  have hclear := hK'.clear.clear _ s hs
  rw [hK'.terms] at hclear
  exact ⟨s, hs, hclear⟩

theorem sentClear_of_tracks {a : Outline} {e : Establisher} (h : S.Tracks a i e)
    (hround : a.round i = S.N + 2) : S.SentClear e := by
  obtain ⟨K', hK'⟩ := h.member
  have hlength := h.sent_length
  have hlt : S.N + 1 < e.sent.length := by omega
  have hmsg := hK'.sent _ _ (List.getElem?_eq_getElem hlt)
  refine ⟨_, List.getElem_mem hlt, ?_⟩
  rw [hmsg.round, Nat.cast_add, Nat.cast_one, add_assoc]
  rfl

/-! ## What the outsider achieves -/

/-- In whatever order an outsider's promises come, when the honest party has nothing left to do it
has sent its clear signature, unless it took the contract for finalized before; and with the
outsider's signatures it takes the contract for finalized and holds them all as good. -/
theorem outsider_finalizes (hK : S.keys[i]? = some K) (coins : Nat → Nat)
    (events : List OutsiderEvent) (hpromises : ∀ j < S.N, j ≠ i → ∀ n ≤ S.N, Sent events j n)
    (hstuck : ¬ ProtocolSign.CanAdvance
      ((S.victim i K coins).exec (S.victim i K coins).init events)) :
    let e := (S.victim i K coins).exec (S.victim i K coins).init events
    (¬ Sent events 0 (S.N + 1) → S.SentClear e) ∧
    ((∀ j < S.N, j ≠ i → Sent events j (S.N + 1)) → e.contract.status = .finalized ∧
      ∀ R ∈ S.keys, R ≠ K → S.HoldsClear e R.toElGamalKey) := by
  intro e
  obtain ⟨htracks, halone⟩ := tracks_victim hK coins events
  have hi : i < S.N := (List.getElem?_eq_some_iff.mp hK).1
  rw [htracks.canAdvance_iff S.toOptimisticSetting
    (Nat.pos_iff_ne_zero.mp halone.round_pos)] at hstuck
  have hround := halone.round_of_stuck hstuck fun j hj hne n hn => by
    obtain ⟨draws, coins', hmem⟩ := hpromises j hj hne n hn
    exact (Outline.outsider_exec_forged hj hne hmem).1 hn
  refine ⟨fun hnone => ?_, fun hall => ?_⟩
  · refine sentClear_of_tracks htracks (hround.elim id fun hheld => ?_)
    rcases Decidable.em (i = 0) with rfl | hne
    · exact halone.own_signature.mp hheld
    · rw [Outline.outsider_exec_not_held hne fun draws coins' hmem =>
        hnone ⟨draws, coins', hmem⟩] at hheld
      cases hheld
  · have hforged : ∀ j < S.N, j ≠ i →
        ((Outline.outsiderMachine S.N i).exec (Outline.outsiderMachine S.N i).init events).holds i
        j = true := by
      intro j hj hne
      obtain ⟨draws, coins', hmem⟩ := hall j hj hne
      exact (Outline.outsider_exec_forged hj hne hmem).2 rfl
    constructor
    · have hfirst : ((Outline.outsiderMachine S.N i).exec
          (Outline.outsiderMachine S.N i).init events).holds i 0 =
          true := by
        rcases Decidable.em (i = 0) with rfl | hne
        · exact hround.elim halone.own_signature.mpr id
        · exact hforged 0 (by omega) (Ne.symm hne)
      refine (victim_status hK coins events).resolve_left fun hsigning => ?_
      rw [htracks.status, halone.signing, hfirst] at hsigning
      cases hsigning
    · intro R hR hne
      obtain ⟨j, hj⟩ := List.mem_iff_getElem?.mp hR
      refine holdsClear_of_tracks htracks hj (hforged j (List.getElem?_eq_some_iff.mp hj).1 ?_)
      rintro rfl
      rw [hK, Option.some.injEq] at hj
      exact hne hj.symm

end OpenSetting

/-! ## An example -/

namespace Sample

variable (hash : String → Int)

def openSetting : OpenSetting where
  toOptimisticSetting := optimisticSetting hash
  forged_promise_decoded _ _ _ _ _ _ o _ := ⟨o, ofText_textOf o, id⟩
  forged_signature_decoded _ _ _ _ _ _ s _ := ⟨s, ofText_textOf s, fun _ => id⟩

/-- The outsider's messages of all rounds in two names, the promises last round first. -/
def forgedRun : List OutsiderEvent :=
  (([3, 2, 1, 0].flatMap fun n => [OutsiderEvent.forged 0 n {} 0, .forged 2 n {} 0]) ++
    List.replicate 4 (.advance noCoins)) ++ [.forged 2 4 {} 0, .forged 0 4 {} 0]

theorem forgedRun_stuck :
    ¬ ((Outline.outsiderMachine 3 1).exec
      (Outline.outsiderMachine 3 1).init forgedRun).CanAdvance 3 1 := by
  decide +kernel

theorem forgedRun_sent : ∀ j < 3, j ≠ 1 → ∀ n ≤ 4, OpenSetting.Sent forgedRun j n := by
  intro j hj hne n hn
  refine ⟨{}, 0, ?_⟩
  interval_cases j <;> interval_cases n <;> simp [forgedRun] at hne ⊢

end Sample

theorem OpenSetting.outsider_finalizes_forgedRun :
    let S := Sample.openSetting fun text => -(text.length : Int)
    ((S.victim 1 (Sample.keysOf 201) Sample.noCoins).exec
      (S.victim 1 (Sample.keysOf 201) Sample.noCoins).init
      Sample.forgedRun).contract.status = .finalized := by
  intro S
  have hK : S.keys[1]? = some (Sample.keysOf 201) := rfl
  obtain ⟨htracks, halone⟩ := OpenSetting.tracks_victim hK Sample.noCoins Sample.forgedRun
  have hstuck := (htracks.canAdvance_iff S.toOptimisticSetting
    (Nat.pos_iff_ne_zero.mp halone.round_pos)).not.mpr Sample.forgedRun_stuck
  have hpromises : ∀ j < S.N, j ≠ 1 → ∀ n ≤ S.N, OpenSetting.Sent Sample.forgedRun j n :=
    fun j hj hne n hn =>
    Sample.forgedRun_sent j hj hne n (Nat.le_succ_of_le hn)
  have hsignatures : ∀ j < S.N, j ≠ 1 → OpenSetting.Sent Sample.forgedRun j (S.N + 1) :=
    fun j hj hne =>
    Sample.forgedRun_sent j hj hne 4 (Nat.le_refl 4)
  have hend := OpenSetting.outsider_finalizes hK Sample.noCoins Sample.forgedRun hpromises hstuck
  exact (hend.2 hsignatures).1

end Sxp
