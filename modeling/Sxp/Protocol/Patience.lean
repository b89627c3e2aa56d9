-- SUMMARY: The optimistic exchange is fair exactly if nobody handles the first signature too early or drops one it lacks.
import Sxp.Protocol.OutlineExact

/-!
# Patience

That everybody has everything at the end, and that everybody was patient, are read off the outline.
-/

namespace Sxp

namespace OptimisticSetting

variable {S : OptimisticSetting}

theorem Tracks.holdsClear_iff {a : Outline} {i : Nat} {e : Establisher} (h : S.Tracks a i e)
    {k : Nat} {R : ElGamalKeyPair} (hR : S.keys[k]? = some R) :
    S.HoldsClear e R.toElGamalKey ↔ a.holds i k = true := by
  obtain ⟨K, hK⟩ := h.member
  rw [← h.signatures k R hR, Option.isSome_iff_exists]
  constructor
  · rintro ⟨s, hget, -⟩
    exact ⟨s, hget⟩
  · rintro ⟨s, hget⟩
    have hverify := hK.clear.clear _ s hget
    rw [hK.terms] at hverify
    exact ⟨s, hget, hverify⟩

theorem Tracks.sentClear_iff {a : Outline} {i : Nat} {e : Establisher} (h : S.Tracks a i e)
    (hle : a.round i ≤ S.N + 2) : S.SentClear e ↔ a.round i = S.N + 2 := by
  obtain ⟨K, hK⟩ := h.member
  have hlength := h.sent_length
  constructor
  · rintro ⟨msg, hmsg, hround⟩
    obtain ⟨n, hn, hget⟩ := List.getElem_of_mem hmsg
    have hgenuine := (hK.sent n msg (by rw [List.getElem?_eq_getElem hn, hget])).round
    rw [hround, Option.some.injEq] at hgenuine
    omega
  · intro hround
    have hn : S.N + 1 < e.sent.length := by omega
    refine ⟨e.sent[S.N + 1], List.getElem_mem hn, ?_⟩
    rw [(hK.sent _ _ (List.getElem?_eq_getElem hn)).round]
    rfl

namespace Matches

variable {st : Exchange} {a : Outline}

theorem party_some (h : S.Matches st a) {i : Nat} (hstarted : a.round i ≠ 0) :
    ∃ e, st.party i = some e :=
  Option.ne_none_iff_exists'.mp (mt (h.idle i).mp hstarted)

theorem quiescent_iff (h : S.Matches st a) : S.Quiescent st ↔ a.Quiescent S.N := by
  constructor
  · intro hq i hi
    obtain ⟨⟨e, he, hstuck⟩, hempty⟩ := hq i hi
    have hpos := h.round_pos he
    refine ⟨hpos, mt (h.canAdvance_iff he).mpr hstuck, fun j hj hne n hn => ?_⟩
    by_contra htaken
    rw [Bool.not_eq_true] at htaken
    exact h.inFlight_none.mp (hempty j n) ⟨hi, hne, hpos, hn, htaken⟩
  · intro hq i hi
    obtain ⟨hpos, hstuck, htaken⟩ := hq i hi
    obtain ⟨e, he⟩ := h.party_some hpos
    refine ⟨⟨e, he, mt (h.canAdvance_iff he).mp hstuck⟩, fun j n => h.inFlight_none.mpr ?_⟩
    rintro ⟨-, hne, -, hn, hfree⟩
    rw [htaken j (h.sound.party j (Nat.ne_zero_of_lt hn)) hne n hn] at hfree
    cases hfree

theorem fair_iff (h : S.Matches st a) : S.Fair st ↔ a.Fair S.N := by
  constructor
  · intro hfair i hi
    obtain ⟨e, he, hholds, -⟩ := hfair i hi
    have hall : ∀ j < S.N, a.holds i j = true := by
      intro j hj
      obtain ⟨R, hR⟩ := S.exists_keys hj
      rw [← (h.tracks i e he).holdsClear_iff hR]
      exact hholds _ (List.mem_of_getElem? (S.parties_getElem? hR))
    -- who has its own signature is in its last round
    exact ⟨(h.sound.own_signature i).mp (hall i hi), hall⟩
  · intro hfair i hi
    obtain ⟨hround, hall⟩ := hfair i hi
    obtain ⟨e, he⟩ := h.party_some (i := i) (by omega)
    have htracks := h.tracks i e he
    refine ⟨e, he, fun k hk => ?_, fun _ => (htracks.sentClear_iff (h.sound.round_le i)).mpr hround⟩
    obtain ⟨R, hR, rfl⟩ := List.mem_map.mp hk
    obtain ⟨j, hj, hget⟩ := List.getElem_of_mem hR
    rw [htracks.holdsClear_iff (by rw [List.getElem?_eq_getElem hj, hget])]
    exact hall j hj

/-- The message of the last round is the one after `N + 1` others. -/
theorem round_iff (h : S.Matches st a) {i j n : Nat} (hin : a.InFlight S.N i j n)
    {K : ElGamalKeyPair} {msg : SignMessage} (hmsg : S.Genuine K n msg) :
    msg.round = some ((S.N : Int) + 2) ↔ S.N < n := by
  have hle := h.sound.round_le j
  have hlt := hin.2.2.2.1
  rw [hmsg.round, Option.some.injEq]
  omega

theorem patient_iff (h : S.Matches st a) (ev : ExchangeEvent) :
    S.Patient st ev ↔ a.Patient S.N ev := by
  have hsome : ∀ {i j n}, a.InFlight S.N i j n → ∃ e senderId msg,
      inFlight st i j n = some (e, senderId, msg) := by
    intro i j n hin
    obtain ⟨x, hx⟩ := Option.ne_none_iff_exists'.mp (mt h.inFlight_none.mp (not_not.mpr hin))
    exact ⟨_, _, _, hx⟩
  cases ev with
  | start i coins => exact Iff.rfl
  | advance i coins => exact Iff.rfl
  | deliver i j n =>
      constructor
      · intro hpatient hin hn hj
        obtain ⟨e, senderId, msg, hflight⟩ := hsome hin
        obtain ⟨-, he, K, -, -, hmsg⟩ := h.inFlight_some hflight
        rw [← (h.tracks i e he).sentClear_iff (h.sound.round_le i)]
        exact hpatient e senderId msg hflight ((h.round_iff hin hmsg).mpr hn) hj
      · intro hpatient e senderId msg hflight hround hj
        obtain ⟨hin, he, K, -, -, hmsg⟩ := h.inFlight_some hflight
        rw [(h.tracks i e he).sentClear_iff (h.sound.round_le i)]
        exact hpatient hin ((h.round_iff hin hmsg).mp hround) hj
  | discard i j n =>
      constructor
      · intro hpatient hin hlistening hn
        obtain ⟨e, senderId, msg, hflight⟩ := hsome hin
        obtain ⟨-, he, K, hK, -, hmsg⟩ := h.inFlight_some hflight
        obtain ⟨k, hk, hholds⟩ := hpatient e senderId msg hflight (by rw [h.listening, hlistening])
          ((h.round_iff hin hmsg).mpr hn)
        rw [S.parties_getElem? hK, Option.some.injEq] at hk
        rwa [← hk, (h.tracks i e he).holdsClear_iff hK] at hholds
      · intro hpatient e senderId msg hflight hlistening hround
        obtain ⟨hin, he, K, hK, -, hmsg⟩ := h.inFlight_some hflight
        rw [h.listening] at hlistening
        refine ⟨_, S.parties_getElem? hK, ?_⟩
        rw [(h.tracks i e he).holdsClear_iff hK]
        exact hpatient hin hlistening ((h.round_iff hin hmsg).mp hround)

end Matches

/-- A run that ends with nothing in flight leaves everybody with everything exactly if everybody
was patient. -/
theorem fair_iff_patient (S : OptimisticSetting) (events : List ExchangeEvent)
    (hq : S.Quiescent (S.exchange.exec S.exchange.init events)) :
    S.Fair (S.exchange.exec S.exchange.init events) ↔
      ∀ t ∈ S.exchange.trace S.exchange.init events, S.Patient t.1 t.2 := by
  have hstep : ∀ st a ev, S.Matches st a →
      S.Matches (S.exchange.next st ev) ((Outline.machine S.N).next a ev) :=
    fun _ _ ev h => h.step ev
  have hend := Machine.exec_simulates hstep S.matches_init events
  rw [hend.fair_iff, Outline.fair_iff_all_patient events (hend.quiescent_iff.mp hq)]
  exact (Machine.trace_forall_simulates hstep (fun _ _ ev h => h.patient_iff ev) S.matches_init
    events).symm

end OptimisticSetting

end Sxp
