-- SUMMARY: The outline of the optimistic exchange is exact: it says of every party and of the network what is the case.
import Sxp.Protocol.Member

/-!
# The outline is exact

The outline follows the exchange event by event. What it keeps of a party is how far it has come, of
whom it has a promise or a clear signature, and whether it is signing.
-/

namespace Sxp

namespace OptimisticSetting

variable (S : OptimisticSetting)

/-- `a` says of party `i` what is the case. -/
structure Tracks (a : Outline) (i : Nat) (e : Establisher) : Prop where
  member : ∃ K, S.Member i K e
  round : e.round = a.round i
  sent_length : e.sent.length = a.round i
  stored : ∀ r k, k < S.N → 1 ≤ r → (e.stored r k ≠ none ↔ a.has i r k = true)
  signatures : ∀ k R, S.keys[k]? = some R →
    ((e.contract.signatures.get R.toElGamalKey).isSome = true ↔ a.holds i k = true)
  status : e.contract.status = .signing ↔ a.signing i = true

/-- `a` says of the parties and of what is in flight what is the case. -/
structure Matches (st : Exchange) (a : Outline) : Prop where
  sound : a.Sound S.N
  idle : ∀ i, st.party i = none ↔ a.round i = 0
  tracks : ∀ i e, st.party i = some e → S.Tracks a i e
  taken : st.taken = a.taken
  listening : st.listening = a.listening

theorem Tracks.frame {a a' : Outline} {i : Nat} {e : Establisher} (h : S.Tracks a i e)
    (hround : a'.round i = a.round i) (hhas : ∀ r k, a'.has i r k = a.has i r k)
    (hholds : ∀ k, a'.holds i k = a.holds i k) (hsigning : a'.signing i = a.signing i) :
    S.Tracks a' i e where
  member := h.member
  round := by rw [hround, h.round]
  sent_length := by rw [hround, h.sent_length]
  stored r k hk hr := by rw [hhas, h.stored r k hk hr]
  signatures k R hR := by rw [hholds, h.signatures k R hR]
  status := by rw [hsigning, h.status]

theorem Tracks.canAdvance_iff {a : Outline} {i : Nat} {e : Establisher} (h : S.Tracks a i e)
    (hpos : a.round i ≠ 0) : ProtocolSign.CanAdvance e ↔ a.CanAdvance S.N i := by
  obtain ⟨K, hK⟩ := h.member
  have hN := hK.N_eq
  have hround := h.round
  constructor
  · rintro ⟨hle, hformed, hsigning⟩
    refine ⟨by omega, by omega, h.status.mp hsigning, fun k hk => ?_⟩
    rw [← h.stored _ k hk (by omega), ← hround]
    exact Establisher.stored_of_claimFormed hle hformed (by omega)
  · rintro ⟨-, hle, hsigning, hall⟩
    refine ⟨by omega, ProtocolSign.claimFormed_of_stored fun k hk => ?_, h.status.mpr hsigning⟩
    rw [hround, h.stored _ k (by omega) (by omega)]
    exact hall k (by omega)

theorem matches_init : S.Matches S.exchange.init (Outline.machine S.N).init where
  sound := Outline.sound_init S.N
  idle i := ⟨fun _ => rfl, fun _ => rfl⟩
  tracks i e h := by cases h
  taken := rfl
  listening := rfl

/-- When one party has moved, the others are as before. -/
theorem Matches.setParty {st : Exchange} {a a' : Outline} (h : S.Matches st a)
    (hsound : a'.Sound S.N)
    {i : Nat} {e : Establisher} (htracks : S.Tracks a' i e) (hpos : a'.round i ≠ 0)
    (hround : ∀ k ≠ i, a'.round k = a.round k)
    (hhas : ∀ k ≠ i, ∀ r j, a'.has k r j = a.has k r j)
    (hholds : ∀ k ≠ i, ∀ j, a'.holds k j = a.holds k j)
    (hsigning : ∀ k ≠ i, a'.signing k = a.signing k)
    {taken : Nat → Nat → Nat → Bool} (htaken : taken = a'.taken)
    {listening : Nat → Bool} (hlistening : listening = a'.listening) :
    S.Matches { OptimisticSetting.setParty st i e with taken, listening } a' where
  sound := hsound
  idle k := by
    rcases Decidable.em (k = i) with rfl | hne
    · simp [OptimisticSetting.setParty, hpos]
    · simp [OptimisticSetting.setParty, hne, h.idle k, hround k hne]
  tracks k e' he' := by
    rcases Decidable.em (k = i) with rfl | hne
    · simp only [OptimisticSetting.setParty, Function.update_self, Option.some.injEq] at he'
      exact he' ▸ htracks
    · simp only [OptimisticSetting.setParty, Function.update_of_ne hne] at he'
      exact (h.tracks k e' he').frame S (hround k hne) (hhas k hne) (hholds k hne) (hsigning k hne)
  taken := htaken
  listening := hlistening

namespace Matches

variable {S} {st : Exchange} {a : Outline} {i j n : Nat} {e : Establisher}

theorem round_pos (h : S.Matches st a) (he : st.party i = some e) : a.round i ≠ 0 := by
  intro hround
  rw [(h.idle i).mpr hround] at he
  cases he

theorem inFlight_none (h : S.Matches st a) : inFlight st i j n = none ↔ ¬ a.InFlight S.N i j n := by
  have hi : ∀ e, st.party i = some e → i < S.N := fun e he => h.sound.party i (h.round_pos he)
  rw [inFlight, h.taken]
  constructor
  · rintro hnone ⟨-, hne, hstarted, hn, htaken⟩
    rw [if_pos ⟨hne, htaken⟩] at hnone
    obtain ⟨e, he⟩ := Option.ne_none_iff_exists'.mp (mt (h.idle i).mp hstarted)
    obtain ⟨e', he'⟩ := Option.ne_none_iff_exists'.mp (mt (h.idle j).mp (Nat.ne_zero_of_lt hn))
    rw [← (h.tracks j e' he').sent_length] at hn
    simp [he, he', hn] at hnone
  · intro hno
    split
    · rename_i hcond
      cases he : st.party i with
      | none => rfl
      | some e =>
          cases he' : st.party j with
          | none => rfl
          | some e' =>
              have hn : e'.sent[n]? = none := by
                rw [List.getElem?_eq_none_iff, (h.tracks j e' he').sent_length]
                by_contra hlt
                exact hno ⟨hi e he, hcond.1, h.round_pos he, by omega, hcond.2⟩
              simp [hn]
    · rfl

/-- A message in flight is a genuine one of its sender. -/
theorem inFlight_some (h : S.Matches st a) {senderId : Int} {msg : SignMessage}
    (hflight : inFlight st i j n = some (e, senderId, msg)) :
    a.InFlight S.N i j n ∧ st.party i = some e ∧ ∃ K, S.keys[j]? = some K ∧
      senderId = K.publicKey ∧ S.Genuine K n msg := by
  have hin : a.InFlight S.N i j n := by
    by_contra hno
    rw [h.inFlight_none.mpr hno] at hflight
    cases hflight
  rw [inFlight] at hflight
  split at hflight
  · obtain ⟨e₁, he, hrest⟩ := Option.bind_eq_some_iff.mp hflight
    obtain ⟨e', he', hmap⟩ := Option.bind_eq_some_iff.mp hrest
    obtain ⟨msg', hmsg, heq⟩ := Option.map_eq_some_iff.mp hmap
    simp only [Prod.mk.injEq] at heq
    obtain ⟨rfl, rfl, rfl⟩ := heq
    obtain ⟨K, hK⟩ := (h.tracks j e' he').member
    exact ⟨hin, he, K, hK.index, by rw [hK.key], hK.sent n msg' hmsg⟩
  · cases hflight

theorem canAdvance_iff (h : S.Matches st a) (he : st.party i = some e) :
    ProtocolSign.CanAdvance e ↔ a.CanAdvance S.N i :=
  (h.tracks i e he).canAdvance_iff S (h.round_pos he)

end Matches

theorem member_started {i : Nat} {K : ElGamalKeyPair} (hK : S.keys[i]? = some K) :
    S.Member i K (S.establisher K).started where
  index := hK
  key := rfl
  trentKey := rfl
  terms := rfl
  willing := by simp [Establisher.started, Establisher.setStatus, SigmaContract.setStatus,
    establisher]
  clear := {
    trent := rfl
    clear := by
      intro k s hget
      cases hget }
  sized := Establisher.sized_started _
  sent n msg hget := by cases hget

/-- A signature that comes in is held from then on, and with the first party's the status goes. -/
theorem Tracks.signed {a : Outline} {i : Nat} {e : Establisher} (h : S.Tracks a i e) {j : Nat}
    {K' first : ElGamalKeyPair} (hK' : S.keys[j]? = some K') (hfirst : S.keys[0]? = some first)
    {s : SigmaSignature} {c : SigmaContract}
    (hsigned : e.contract.Signed K'.toElGamalKey s first.toElGamalKey c) :
    (∀ k R, S.keys[k]? = some R → ((c.signatures.get R.toElGamalKey).isSome = true ↔
      (a.hold i j).holds i k = true)) ∧
    (c.status = .signing ↔ (a.hold i j).signing i = true) := by
  have hholds : ∀ k R, S.keys[k]? = some R → ((c.signatures.get R.toElGamalKey).isSome = true ↔
      (a.hold i j).holds i k = true) := by
    intro k R hR
    have hkey : R.toElGamalKey = K'.toElGamalKey ↔ k = j := by
      constructor
      · intro heq
        exact S.index_unique hR hK' (congrArg ElGamalKey.publicKey heq)
      · rintro rfl
        rw [hR, Option.some.injEq] at hK'
        rw [hK']
    have hold := h.signatures k R hR
    rw [hsigned.signatures, HashMap.get_put]
    by_cases hk : k = j
    · simp [hkey.mpr hk, Outline.hold, hk]
    · simp [hkey, hk, Outline.hold, hold]
  refine ⟨hholds, ?_⟩
  have hfirst' := hholds 0 first hfirst
  have hstatus := h.status
  rw [hsigned.status]
  cases hhas : (c.signatures.get first.toElGamalKey).isSome with
  | true =>
      have hheld := hfirst'.mp hhas
      simp only [Outline.hold] at hheld ⊢
      grind
  | false =>
      rw [hhas] at hfirst'
      simp only [Outline.hold] at hfirst' ⊢
      grind

/-- A party that has just started has sent its first promises. -/
theorem tracks_start {a : Outline} {i : Nat} {K : ElGamalKeyPair} (hK : S.keys[i]? = some K)
    (hsound : a.Sound S.N) (hround : a.round i = 0) (coins : Nat → Nat) :
    S.Tracks { (a.enter i 1).receive i 1 i with signing := Function.update a.signing i true } i
      ((S.establisher K).setListenerOnTrent S.tools coins).1 := by
  have hsent := (S.member_started hK).sends_promise (show 1 = 0 + 1 from rfl)
    (show 1 ≤ S.N + 1 from Nat.succ_le_succ (Nat.zero_le _)) coins
  rw [show (S.establisher K).setListenerOnTrent S.tools coins =
    ProtocolSign.sendMessage S.tools (S.establisher K).started coins from rfl]
  generalize (ProtocolSign.sendMessage S.tools (S.establisher K).started coins).1 = e' at hsent
  obtain ⟨hmember, hcontract, hround', hlength, hstored⟩ := hsent
  obtain ⟨hidle, hidle'⟩ := hsound.idle i hround
  have hfirst : (S.establisher K).started.round = 1 := rfl
  refine ⟨⟨K, hmember⟩, ?_, ?_, fun r k hk _ => ?_, fun k R hR => ?_, ?_⟩
  · rw [hround', hfirst]
    simp [Outline.receive, Outline.enter]
  · rw [hlength, hfirst]
    simp [Outline.receive, Outline.enter]
  · rw [hstored r k hk, hfirst, Establisher.stored_started]
    simp [Outline.receive, Outline.enter, hidle]
  · rw [hcontract]
    simp [Outline.receive, Outline.enter, hidle', Establisher.started, Establisher.setStatus,
      SigmaContract.setStatus, establisher, HashMap.get]
  · rw [hcontract]
    simp [Establisher.started, Establisher.setStatus, SigmaContract.setStatus]

/-- A party that goes on to a promising round. -/
theorem Tracks.next {a : Outline} {i : Nat} {e : Establisher} (h : S.Tracks a i e)
    (hcan : ProtocolSign.CanAdvance e) (hround : a.round i ≤ S.N) (coins : Nat → Nat) :
    S.Tracks ((a.enter i (a.round i + 1)).receive i (a.round i + 1) i) i
      (e.handle S.tools (.advance coins)) := by
  obtain ⟨K, hK⟩ := h.member
  have hnext : S.Member i K e.nextRound := hK.update rfl rfl rfl hK.sized hK.sent
  have hsent := hnext.sends_promise
    (show e.round + 1 = e.sent.length + 1 by rw [h.round, h.sent_length])
    (show e.round + 1 ≤ S.N + 1 by rw [h.round]; omega) coins
  rw [show e.handle S.tools (.advance coins) =
    (ProtocolSign.sendMessage S.tools e.nextRound coins).1 from if_pos hcan]
  generalize (ProtocolSign.sendMessage S.tools e.nextRound coins).1 = e' at hsent
  obtain ⟨hmember, hcontract, hround', hlength, hstored⟩ := hsent
  have hsucc : e.nextRound.round = a.round i + 1 := congrArg Nat.succ h.round
  have hstored' : ∀ r k, e.nextRound.stored r k = e.stored r k := fun _ _ => rfl
  refine ⟨⟨K, hmember⟩, ?_, ?_, fun r k hk hr => ?_, fun k R hR => ?_, ?_⟩
  · rw [hround', hsucc]
    simp [Outline.receive, Outline.enter]
  · rw [hlength, hsucc]
    simp [Outline.receive, Outline.enter]
  · rw [hstored r k hk, hsucc, hstored', h.stored r k hk hr]
    simp only [Outline.receive, Outline.enter]
    grind
  · rw [hcontract]
    exact h.signatures k R hR
  · rw [hcontract]
    exact h.status

/-- A party that goes on to the last round. -/
theorem Tracks.last {a : Outline} {i : Nat} {e : Establisher} (h : S.Tracks a i e)
    (hcan : ProtocolSign.CanAdvance e) (hround : a.round i = S.N + 1) (coins : Nat → Nat) :
    S.Tracks ((a.enter i (a.round i + 1)).hold i i) i (e.handle S.tools (.advance coins)) := by
  obtain ⟨K, hK⟩ := h.member
  obtain ⟨first, -, hfirst, -⟩ := hK.exists_first
  have hnext : S.Member i K e.nextRound := hK.update rfl rfl rfl hK.sized hK.sent
  have hsent := hnext.sends_signature
    (show e.round + 1 = e.sent.length + 1 by rw [h.round, h.sent_length])
    (show e.round + 1 = S.N + 2 by rw [h.round, hround]) coins hfirst
  rw [show e.handle S.tools (.advance coins) =
    (ProtocolSign.sendMessage S.tools e.nextRound coins).1 from if_pos hcan]
  generalize (ProtocolSign.sendMessage S.tools e.nextRound coins).1 = e' at hsent
  obtain ⟨hmember, hround', hlength, hrows, s, hsigned⟩ := hsent
  obtain ⟨hholds, hstatus⟩ := h.signed S hK.index hfirst hsigned
  have hsucc : e.nextRound.round = a.round i + 1 := congrArg Nat.succ h.round
  refine ⟨⟨K, hmember⟩, ?_, ?_, fun r k hk hr => ?_, hholds, hstatus⟩
  · rw [hround', hsucc]
    simp [Outline.hold, Outline.enter]
  · rw [hlength, hsucc]
    simp [Outline.hold, Outline.enter]
  · rw [Establisher.stored, hrows]
    exact h.stored r k hk hr

theorem Tracks.promise {a : Outline} {i j n : Nat} {e : Establisher} (h : S.Tracks a i e)
    {K' : ElGamalKeyPair} (hK' : S.keys[j]? = some K') (hne : i ≠ j) {msg : SignMessage}
    (hmsg : S.Genuine K' n msg) (hn : n ≤ S.N) :
    S.Tracks ((a.take i j n).receive i (n + 1) j) i
        (e.handle S.tools (.deliver msg K'.publicKey)) ∧
      ProtocolSign.removesListener S.tools e msg K'.publicKey = false := by
  obtain ⟨K, hK⟩ := h.member
  have hlater : msg.round ≠ some ((e.N : Int) + 2) := by
    rw [hmsg.round, hK.N_eq]
    intro heq
    rw [Option.some.injEq] at heq
    omega
  have htaken := hK.takes_promise hK' hne hmsg hn
  generalize e.handle S.tools (.deliver msg K'.publicKey) = e' at htaken
  obtain ⟨hmember, hcontract, hround, hsent, hstored⟩ := htaken
  refine ⟨⟨⟨K, hmember⟩, ?_, ?_, fun r k hk hr => ?_, fun k R hR => ?_, ?_⟩, ?_⟩
  · rw [hround]
    exact h.round
  · rw [hsent]
    exact h.sent_length
  · rw [hstored r k, h.stored r k hk hr]
    simp only [Outline.receive, Outline.take]
    grind
  · rw [hcontract]
    exact h.signatures k R hR
  · rw [hcontract]
    exact h.status
  · unfold ProtocolSign.removesListener
    split
    · rename_i hmsgRound _
      simp only
      rw [if_neg]
      rintro ⟨-, rfl⟩
      exact hlater hmsgRound
    · rfl

theorem Tracks.signature {a : Outline} {i j n : Nat} {e : Establisher} (h : S.Tracks a i e)
    {K' : ElGamalKeyPair} (hK' : S.keys[j]? = some K') (hne : i ≠ j) {msg : SignMessage}
    (hmsg : S.Genuine K' n msg) (hn : n = S.N + 1) :
    S.Tracks (((a.take i j n).hold i j).unlisten i) i
        (e.handle S.tools (.deliver msg K'.publicKey)) ∧
      (ProtocolSign.removesListener S.tools e msg K'.publicKey = true ↔
        ((a.take i j n).hold i j).holds i 0 = true) := by
  obtain ⟨K, hK⟩ := h.member
  obtain ⟨first, -, hfirst, -⟩ := hK.exists_first
  have htaken := hK.takes_signature hK' hne hmsg hn hfirst
  generalize e.handle S.tools (.deliver msg K'.publicKey) = e' at htaken
  obtain ⟨hmember, hround, hsent, hrows, ⟨s, hsigned⟩, hremoves⟩ := htaken
  obtain ⟨hholds, hstatus⟩ := h.signed S hK' hfirst hsigned
  refine ⟨⟨⟨K, hmember⟩, ?_, ?_, fun r k hk hr => ?_, hholds, hstatus⟩, ?_⟩
  · rw [hround]
    exact h.round
  · rw [hsent]
    exact h.sent_length
  · rw [Establisher.stored, hrows]
    exact h.stored r k hk hr
  · rw [hremoves]
    exact hholds 0 first hfirst

namespace Matches

variable {S} {st : Exchange} {a : Outline}

theorem start (h : S.Matches st a) (i : Nat) (coins : Nat → Nat) :
    S.Matches (S.step st (.start i coins)) (a.step S.N (.start i coins)) := by
  have hsound := h.sound.change (a.step_change S.N (.start i coins))
  cases hK : S.keys[i]? with
  | none =>
      have hi : ¬ (i < S.N ∧ a.round i = 0) := fun hi =>
        absurd hi.1 (Nat.not_lt.mpr (List.getElem?_eq_none_iff.mp hK))
      simpa only [OptimisticSetting.step, hK, Outline.step, if_neg hi] using h
  | some K =>
      have hlt : i < S.N := (List.getElem?_eq_some_iff.mp hK).1
      cases hparty : st.party i with
      | some e =>
          have hi : ¬ (i < S.N ∧ a.round i = 0) := fun hi => h.round_pos hparty hi.2
          simpa only [OptimisticSetting.step, hK, hparty, Outline.step, if_neg hi] using h
      | none =>
          have hi : i < S.N ∧ a.round i = 0 := ⟨hlt, (h.idle i).mp hparty⟩
          simp only [OptimisticSetting.step, hK, hparty, Outline.step, if_pos hi] at hsound ⊢
          refine h.setParty S hsound (S.tracks_start hK h.sound hi.2 coins) ?_ ?_ ?_ ?_ ?_
            h.taken h.listening
          · simp [Outline.receive, Outline.enter]
          all_goals intro k hk
          all_goals simp [Outline.receive, Outline.enter, hk]

theorem deliver (h : S.Matches st a) (i j n : Nat) :
    S.Matches (S.step st (.deliver i j n)) (a.step S.N (.deliver i j n)) := by
  have hsound := h.sound.change (a.step_change S.N (.deliver i j n))
  cases hflight : inFlight st i j n with
  | none =>
      have hin := h.inFlight_none.mp hflight
      simpa only [OptimisticSetting.step, hflight, Outline.step, if_neg hin] using h
  | some x =>
      obtain ⟨e, senderId, msg⟩ := x
      obtain ⟨hin, hparty, K', hK', rfl, hmsg⟩ := h.inFlight_some hflight
      have htracks := h.tracks i e hparty
      have hpos := h.round_pos hparty
      simp only [OptimisticSetting.step, hflight, Outline.step, if_pos hin] at hsound ⊢
      split at hsound
      · rename_i hn
        rw [if_pos hn]
        obtain ⟨htracks', hremoves⟩ := htracks.promise S hK' hin.2.1 hmsg hn
        refine h.setParty S hsound htracks' hpos ?_ ?_ ?_ ?_ ?_ ?_
        · exact fun _ _ => rfl
        · intro k hk r j'
          simp [Outline.receive, Outline.take, hk]
        · exact fun _ _ _ => rfl
        · exact fun _ _ => rfl
        · simp only [OptimisticSetting.setParty, h.taken]
          rfl
        · simp [take, OptimisticSetting.setParty, hremoves, h.listening, Outline.receive,
            Outline.take]
      · rename_i hn
        rw [if_neg hn]
        have hlast : n = S.N + 1 := by
          have hle := h.sound.round_le j
          have hlt := hin.2.2.2.1
          omega
        obtain ⟨htracks', hremoves⟩ := htracks.signature S hK' hin.2.1 hmsg hlast
        refine h.setParty S hsound htracks' hpos ?_ ?_ ?_ ?_ ?_ ?_
        · exact fun _ _ => rfl
        · exact fun _ _ _ _ => rfl
        · intro k hk j'
          simp [Outline.hold, Outline.take, Outline.unlisten, hk]
        · intro k hk
          simp [Outline.hold, Outline.take, Outline.unlisten, hk]
        · simp only [OptimisticSetting.setParty, h.taken]
          rfl
        · funext k
          rw [Bool.eq_iff_iff.mpr hremoves]
          simp [take, OptimisticSetting.setParty, h.listening, Outline.hold, Outline.take,
            Outline.unlisten]

theorem advance (h : S.Matches st a) (i : Nat) (coins : Nat → Nat) :
    S.Matches (S.step st (.advance i coins)) (a.step S.N (.advance i coins)) := by
  have hsound := h.sound.change (a.step_change S.N (.advance i coins))
  cases hparty : st.party i with
  | none =>
      have hround : a.round i = 0 := (h.idle i).mp hparty
      have hcan : ¬ a.CanAdvance S.N i := fun hcan => absurd hcan.1 (by omega)
      simpa only [OptimisticSetting.step, hparty, Outline.step, if_neg hcan] using h
  | some e =>
      have htracks := h.tracks i e hparty
      by_cases hcan : a.CanAdvance S.N i
      · have hcan' := (h.canAdvance_iff hparty).mpr hcan
        simp only [OptimisticSetting.step, hparty, Outline.step, if_pos hcan] at hsound ⊢
        split at hsound
        · rename_i hround
          rw [if_pos hround]
          refine h.setParty S hsound (htracks.next S hcan' hround coins) ?_ ?_ ?_ ?_ ?_
            h.taken h.listening
          · simp [Outline.receive, Outline.enter]
          all_goals intro k hk
          all_goals simp [Outline.receive, Outline.enter, hk]
        · rename_i hround
          rw [if_neg hround]
          have hlast : a.round i = S.N + 1 := by
            have hle := hcan.2.1
            omega
          refine h.setParty S hsound (htracks.last S hcan' hlast coins) ?_ ?_ ?_ ?_ ?_
            h.taken h.listening
          · simp [Outline.hold, Outline.enter]
          all_goals intro k hk
          all_goals simp [Outline.hold, Outline.enter, hk]
      · have hcan' := mt (h.canAdvance_iff hparty).mp hcan
        have hsame : S.step st (.advance i coins) = st := by
          simp only [OptimisticSetting.step, hparty, Establisher.handle, if_neg hcan',
            OptimisticSetting.setParty]
          rw [← hparty, Function.update_eq_self]
        rw [hsame]
        simpa only [Outline.step, if_neg hcan] using h

theorem discard (h : S.Matches st a) (i j n : Nat) :
    S.Matches (S.step st (.discard i j n)) (a.step S.N (.discard i j n)) := by
  have hsound := h.sound.change (a.step_change S.N (.discard i j n))
  cases hflight : inFlight st i j n with
  | none =>
      have hin : ¬ (a.InFlight S.N i j n ∧ a.listening i = false) := fun hin =>
        h.inFlight_none.mp hflight hin.1
      simpa only [OptimisticSetting.step, hflight, Outline.step, if_neg hin] using h
  | some x =>
      obtain ⟨hin, -⟩ := h.inFlight_some hflight
      by_cases hlistening : a.listening i = false
      · simp only [OptimisticSetting.step, hflight, h.listening, hlistening, if_true,
          Outline.step, hin, and_self] at hsound ⊢
        refine { h with sound := hsound, tracks := ?_, taken := ?_ }
        · intro k e he
          exact (h.tracks k e he).frame S rfl (fun _ _ => rfl) (fun _ => rfl) rfl
        · simp only [OptimisticSetting.take, h.taken]
          rfl
      · have hno : ¬ (a.InFlight S.N i j n ∧ a.listening i = false) := fun hno =>
          hlistening hno.2
        rw [← h.listening] at hlistening
        simpa only [OptimisticSetting.step, hflight, if_neg hlistening, Outline.step,
          if_neg hno] using h

/-- Every event does to the parties what it does to the outline. -/
theorem step (h : S.Matches st a) (ev : ExchangeEvent) :
    S.Matches (S.step st ev) (a.step S.N ev) := by
  cases ev with
  | start i coins => exact h.start i coins
  | deliver i j n => exact h.deliver i j n
  | advance i coins => exact h.advance i coins
  | discard i j n => exact h.discard i j n

end Matches

end OptimisticSetting

end Sxp
