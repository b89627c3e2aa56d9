-- SUMMARY: The choice of Trent succeeds: when all parties know the same candidates and every message is handled, everybody goes on.
import Sxp.Choice.Noticed

/-!
# The choice of Trent succeeds

All parties start from one list of candidates, each of them once. Nothing is asked of the order in
which messages are handled, and they may be handled again; but each has to be handled by everybody
at least once, also by the party that sent it. Then no two choices differ, and every round ends.
-/

namespace Sxp

/-! ## All parties -/

namespace TrentChoice

variable {S : TrentChoice} {st : ChooseState} {h : List (ChooseState × ChooseEvent)}
  {ev : ChooseEvent} {L : List ElGamalKey} {u : ElGamalKey}

open ProtocolChooseTrent

/-- Party `i` has handled the `m`th message of party `j`. -/
def Handled (h : List (ChooseState × ChooseEvent)) (i j m : Nat) : Prop :=
  ∃ t ∈ h, t.2 = .deliver i j m ∧ ∃ d, t.1 j = some d ∧ m < d.sent.length

def Begun (h : List (ChooseState × ChooseEvent)) (i : Nat) : Prop := ∃ t ∈ h, t.2 = .start i

theorem handled_append {i j m : Nat} : Handled (h ++ [(st, ev)]) i j m ↔
    Handled h i j m ∨ ev = .deliver i j m ∧ ∃ d, st j = some d ∧ m < d.sent.length := by
  simp only [Handled, List.mem_append, List.mem_singleton, or_and_right, exists_or, exists_eq_left]

theorem begun_append {i : Nat} : Begun (h ++ [(st, ev)]) i ↔ Begun h i ∨ ev = .start i := by
  simp only [Begun, List.mem_append, List.mem_singleton, or_and_right, exists_or, exists_eq_left]

/-- The invariant of runs in which every party starts once. -/
structure Progress (S : TrentChoice) (L : List ElGamalKey) (u : ElGamalKey)
    (h : List (ChooseState × ChooseEvent)) (st : ChooseState) : Prop where
  inv : S.Invariant st
  present : ∀ i < S.parties.length, ∃ c, st i = some c
  smooth : ∀ i c, st i = some c → c.Smooth L S.randomNumber u i
  sent : ∀ i j m d, st j = some d → Handled h i j m → m < d.sent.length
  marked : ∀ i j c (r : Fin 3), st i = some c → Handled h i j r → c.Marked r j
  noticed : ∀ i c (r : Fin 3), st i = some c → Handled h i i r → c.Noticed r
  idle : ∀ i c, st i = some c → ¬ Begun h i → c.sent = []
  begun : ∀ i c, st i = some c → Begun h i → 0 < c.sent.length

/-- A party that moves, while the others wait. -/
theorem Progress.move (hp : S.Progress L u h st) {i : Nat} {c c' : ProtocolChooseTrent}
    (hc : st i = some c)
    (hinv : S.Invariant (Function.update st i (some c'))) (hsmooth : c'.Smooth L S.randomNumber u i)
    (hkeeps : c.Keeps i c') (hsent : c.sent <+: c'.sent) (hstart : ∀ k, ev = .start k → k = i)
    (hdeliver : ∀ k j (r : Fin 3), ev = .deliver k j r →
      (∃ d, st j = some d ∧ (r : Nat) < d.sent.length) →
      k = i ∧ c'.Marked r j ∧ (j = i → c'.Noticed r))
    (hidle : ev ≠ .start i → c.sent = [] → c'.sent = [])
    (hbegun : ev = .start i → 0 < c'.sent.length) :
    S.Progress L u (h ++ [(st, ev)]) (Function.update st i (some c')) := by
  have hkept : ∀ j d, Function.update st i (some c') j = some d → ∃ d₀, st j = some d₀ ∧
      d₀.sent <+: d.sent := by
    intro j d hd
    by_cases hj : j = i
    · subst hj
      rw [Function.update_self, Option.some.injEq] at hd
      exact ⟨c, hc, hd ▸ hsent⟩
    · rw [Function.update_of_ne hj] at hd
      exact ⟨d, hd, List.prefix_rfl⟩
  constructor
  case inv => exact hinv
  case present =>
    intro k hk
    by_cases hki : k = i
    · exact ⟨c', by rw [hki, Function.update_self]⟩
    · rw [Function.update_of_ne hki]
      exact hp.present k hk
  case smooth =>
    intro j d hd
    by_cases hj : j = i
    · subst hj
      rw [Function.update_self, Option.some.injEq] at hd
      exact hd ▸ hsmooth
    · rw [Function.update_of_ne hj] at hd
      exact hp.smooth j d hd
  case sent =>
    intro k j m d hd hhandled
    obtain ⟨d₀, hd₀, hle⟩ := hkept j d hd
    refine Nat.lt_of_lt_of_le ?_ hle.length_le
    rcases handled_append.mp hhandled with hold | ⟨-, d₁, hd₁, hm⟩
    · exact hp.sent k j m d₀ hd₀ hold
    · rw [hd₀, Option.some.injEq] at hd₁
      exact hd₁ ▸ hm
  case marked =>
    intro k j d r hd hhandled
    by_cases hk : k = i
    · subst hk
      rw [Function.update_self, Option.some.injEq] at hd
      subst hd
      rcases handled_append.mp hhandled with hold | ⟨hev, hmessage⟩
      · exact hkeeps.marked r j (hp.marked k j c r hc hold)
      · exact (hdeliver k j r hev hmessage).2.1
    · rw [Function.update_of_ne hk] at hd
      rcases handled_append.mp hhandled with hold | ⟨hev, hmessage⟩
      · exact hp.marked k j d r hd hold
      · exact absurd (hdeliver k j r hev hmessage).1 hk
  case noticed =>
    intro k d r hd hhandled
    by_cases hk : k = i
    · subst hk
      rw [Function.update_self, Option.some.injEq] at hd
      subst hd
      rcases handled_append.mp hhandled with hold | ⟨hev, hmessage⟩
      · exact hkeeps.noticed r (hp.sent k k r c hc hold) (hp.marked k k c r hc hold)
          (hp.noticed k c r hc hold)
      · exact (hdeliver k k r hev hmessage).2.2 rfl
    · rw [Function.update_of_ne hk] at hd
      rcases handled_append.mp hhandled with hold | ⟨hev, hmessage⟩
      · exact hp.noticed k d r hd hold
      · exact absurd (hdeliver k k r hev hmessage).1 hk
  case idle =>
    intro k d hd hnot
    rw [begun_append, not_or] at hnot
    by_cases hk : k = i
    · subst hk
      rw [Function.update_self, Option.some.injEq] at hd
      exact hd ▸ hidle hnot.2 (hp.idle k c hc hnot.1)
    · rw [Function.update_of_ne hk] at hd
      exact hp.idle k d hd hnot.1
  case begun =>
    intro k d hd hstarted
    by_cases hk : k = i
    · subst hk
      rw [Function.update_self, Option.some.injEq] at hd
      subst hd
      rcases begun_append.mp hstarted with hold | hev
      · exact Nat.lt_of_lt_of_le (hp.begun k c hc hold) hsent.length_le
      · exact hbegun hev
    · rw [Function.update_of_ne hk] at hd
      rcases begun_append.mp hstarted with hold | hev
      · exact hp.begun k d hd hold
      · exact absurd (hstart k hev) hk

/-- An event that does nothing. -/
theorem Progress.stay (hp : S.Progress L u h st) (hstart : ∀ k c, ev = .start k → st k ≠ some c)
    (hdeliver : ∀ k j m d c, ev = .deliver k j m → st j = some d → m < d.sent.length →
      st k ≠ some c) :
    S.Progress L u (h ++ [(st, ev)]) st := by
  constructor
  case inv => exact hp.inv
  case present => exact hp.present
  case smooth => exact hp.smooth
  case sent =>
    intro k j m d hd hhandled
    rcases handled_append.mp hhandled with hold | ⟨-, d', hd', hm⟩
    · exact hp.sent k j m d hd hold
    · rw [hd, Option.some.injEq] at hd'
      exact hd' ▸ hm
  case marked =>
    intro k j c r hc hhandled
    rcases handled_append.mp hhandled with hold | ⟨hev, d, hd, hm⟩
    · exact hp.marked k j c r hc hold
    · exact absurd hc (hdeliver k j r d c hev hd hm)
  case noticed =>
    intro k c r hc hhandled
    rcases handled_append.mp hhandled with hold | ⟨hev, d, hd, hm⟩
    · exact hp.noticed k c r hc hold
    · exact absurd hc (hdeliver k k r d c hev hd hm)
  case idle =>
    exact fun k c hc hnot => hp.idle k c hc fun hstarted =>
      hnot (begun_append.mpr (Or.inl hstarted))
  case begun =>
    intro k c hc hstarted
    rcases begun_append.mp hstarted with hold | hev
    · exact hp.begun k c hc hold
    · exact absurd hc (hstart k c hev)

/-- The place of a party is its index. -/
theorem findIdx_of_distinct (hdistinct : (S.parties.map (·.publicKey)).Nodup) {j : Nat}
    {key : ElGamalKey} (hkey : S.parties[j]? = some key) :
    S.parties.findIdx? (fun k => k.publicKey == key.publicKey) = some j := by
  obtain ⟨hj, rfl⟩ := List.getElem?_eq_some_iff.mp hkey
  refine List.findIdx?_eq_some_iff_getElem.mpr ⟨hj, by simp, fun k hk => ?_⟩
  have hlt : k < S.parties.length := Nat.lt_trans hk hj
  rw [beq_iff_eq]
  intro hsame
  have hne := List.pairwise_iff_getElem.mp hdistinct k j (by simpa using hlt) (by simpa using hj) hk
  rw [List.getElem_map, List.getElem_map] at hne
  exact hne hsame

/-- What the parties of a choice that succeeds have in common. -/
structure Uniform (S : TrentChoice) (L : List ElGamalKey) (u : ElGamalKey) : Prop where
  distinct : (S.parties.map (·.publicKey)).Nodup
  known : ∀ i < S.parties.length, S.known i = L
  nonempty : L ≠ []
  chosen : (sorted L)[((∑ k ∈ Finset.range S.parties.length, S.randomNumber k) % L.length).toNat]? =
    some u

theorem Uniform.progress_party (hS : S.Uniform L u) : S.Progress L u [] S.party := by
  have hnone : ∀ i j m, ¬ Handled [] i j m := by
    rintro i j m ⟨t, ht, -⟩
    cases ht
  have hcreated : ∀ i c, S.party i = some c → ∃ key, S.parties[i]? = some key ∧
      c = ProtocolChooseTrent.create S.parties (S.users i) key (S.randomNumber i) := by
    intro i c hc
    obtain ⟨key, hkey, rfl⟩ := Option.map_eq_some_iff.mp hc
    exact ⟨key, hkey, rfl⟩
  constructor
  case inv => exact S.invariant_party
  case present => exact fun i hi => ⟨_, congrArg (Option.map _) (List.getElem?_eq_getElem hi)⟩
  case smooth =>
    intro i c hc
    obtain ⟨key, hkey, rfl⟩ := hcreated i c hc
    obtain ⟨hi, -⟩ := List.getElem?_eq_some_iff.mp hkey
    refine Smooth.create ?_ hi (hS.known i hi)
    rw [List.findIdx_eq_getD_findIdx?, findIdx_of_distinct hS.distinct hkey]
    rfl
  case sent => exact fun i j m d _ hhandled => absurd hhandled (hnone i j m)
  case marked => exact fun i j c r _ hhandled => absurd hhandled (hnone i j r)
  case noticed => exact fun i c r _ hhandled => absurd hhandled (hnone i i r)
  case idle =>
    intro i c hc _
    obtain ⟨key, -, rfl⟩ := hcreated i c hc
    rfl
  case begun =>
    rintro i c - ⟨t, ht, -⟩
    cases ht

theorem Uniform.progress_step (hS : S.Uniform L u) (hp : S.Progress L u h st) (ev : ChooseEvent)
    (honce : ∀ i, ev = .start i → ¬ Begun h i) : S.Progress L u (h ++ [(st, ev)]) (step st ev) := by
  have hinv := hp.inv.step ev
  have hnone : ∀ i (f : ProtocolChooseTrent → ProtocolChooseTrent), st i = none →
      Function.update st i ((st i).map f) = st := by
    intro i f hi
    rw [hi, Option.map_none, ← hi, Function.update_eq_self]
  cases ev with
  | start i =>
      cases hi : st i with
      | none =>
          rw [show step st (.start i) = st from hnone i _ hi]
          exact hp.stay (fun k c hk => by cases hk; simp [hi]) fun k j m d c hk => by cases hk
      | some c =>
          have hidle := hp.idle i c hi (honce i rfl)
          have hstep : step st (.start i) = Function.update st i (some c.sendMessage) := by
            simp [step, hi]
          rw [hstep] at hinv ⊢
          have hsmooth := (hp.smooth i c hi).sendMessage hidle
          refine hp.move hi hinv hsmooth ⟨rfl, fun _ _ hm => hm, fun _ _ _ hn => hn⟩
            (Extends.sendMessage c).sent (fun k hk => by cases hk; rfl)
            (fun k j r hk => by cases hk) (fun hne => absurd rfl hne) fun _ => ?_
          exact List.length_pos_of_mem (List.mem_append_right _ List.mem_cons_self)
  | returns i =>
      cases hi : st i with
      | none =>
          rw [show step st (.returns i) = st from hnone i _ hi]
          exact hp.stay (fun k c hk => by cases hk) fun k j m d c hk => by cases hk
      | some c =>
          have hstep : step st (.returns i) = Function.update st i (some c.resume) := by
            simp [step, hi]
          rw [hstep] at hinv ⊢
          obtain ⟨hsmooth, hkeeps, hsent⟩ := (hp.smooth i c hi).resume
          exact hp.move hi hinv hsmooth hkeeps (Extends.resume c).sent (fun k hk => by cases hk)
            (fun k j r hk => by cases hk) (fun _ hnil => hsent.trans hnil) fun hk => by cases hk
  | throws i =>
      cases hi : st i with
      | none =>
          rw [show step st (.throws i) = st from hnone i _ hi]
          exact hp.stay (fun k c hk => by cases hk) fun k j m d c hk => by cases hk
      | some c =>
          have hstep : step st (.throws i) = Function.update st i (some c.abandon) := by
            simp [step, hi]
          rw [hstep] at hinv ⊢
          exact hp.move hi hinv ((hp.smooth i c hi).calls_of fun _ => List.mem_of_mem_tail)
            ⟨rfl, fun _ _ hm => hm, fun _ _ _ hn => hn⟩ List.prefix_rfl (fun k hk => by cases hk)
            (fun k j r hk => by cases hk) (fun _ hnil => hnil) fun hk => by cases hk
  | deliver i j m =>
      cases hj : st j with
      | none =>
          have hstep : step st (.deliver i j m) = st := by simp [step, hj]
          rw [hstep]
          refine hp.stay (fun k c hk => by cases hk) fun k j' m' d c hk hd => ?_
          cases hk
          rw [hj] at hd
          cases hd
      | some d =>
          cases hmessage : d.sent[m]? with
          | none =>
              have hstep : step st (.deliver i j m) = st := by simp [step, hj, hmessage]
              rw [hstep]
              refine hp.stay (fun k c hk => by cases hk) fun k j' m' d' c hk hd hm => ?_
              cases hk
              rw [hj, Option.some.injEq] at hd
              subst hd
              rw [List.getElem?_eq_getElem hm] at hmessage
              cases hmessage
          | some message =>
              cases hi : st i with
              | none =>
                  have hstep : step st (.deliver i j m) = st := by
                    simp only [step, hj, Option.bind_some, hmessage, Option.map_some, hi,
                      Option.map_none]
                    rw [← hi, Function.update_eq_self]
                  rw [hstep]
                  refine hp.stay (fun k c hk => by cases hk) fun k j' m' d' c hk _ _ => ?_
                  cases hk
                  simp [hi]
              | some c =>
                  have hstep : step st (.deliver i j m) =
                      Function.update st i (some (c.notify message d.key.publicKey).1) := by
                    simp [step, hj, hmessage, hi]
                  rw [hstep] at hinv ⊢
                  have hplaced := hp.inv.placed j d hj
                  have hparties := (hp.inv.placed i c hi).parties
                  have hN : c.N = S.parties.length := congrArg List.length hparties
                  have hplace := findIdx_of_distinct hS.distinct hplaced.key
                  rw [← hparties] at hplace
                  have hplanned := hmessage
                  rw [(hp.smooth j d hj).sent, List.getElem?_take] at hplanned
                  split at hplanned
                  · rename_i hm
                    have hthree : m < 3 := (List.getElem?_eq_some_iff.mp hplanned).1
                    have hjlt : j < c.N := hN ▸ (List.getElem?_eq_some_iff.mp hplaced.key).1
                    have hown : j = i → m < c.sent.length := by
                      rintro rfl
                      rw [hi, Option.some.injEq] at hj
                      exact hj ▸ hm
                    have hhandles := (hp.smooth i c hi).notify (r := ⟨m, hthree⟩) hS.nonempty
                      (by rw [hN]; exact hS.chosen) hjlt hplace hplanned hown
                    refine hp.move hi hinv hhandles.smooth hhandles.keeps
                      (Extends.notify c message _).sent
                      (fun k hk => by cases hk) (fun k j' r hk _ => ?_) (fun _ => hhandles.idle)
                      (fun hk => by cases hk)
                    rw [ChooseEvent.deliver.injEq] at hk
                    obtain ⟨rfl, rfl, hr⟩ := hk
                    have hrow : r = ⟨m, hthree⟩ := Fin.ext hr.symm
                    rw [hrow]
                    exact ⟨rfl, hhandles.marked, hhandles.noticed⟩
                  · cases hplanned

theorem Uniform.progress_exec (hS : S.Uniform L u) {events : List ChooseEvent}
    (honce : ∀ i, events.count (.start i) ≤ 1) :
    S.Progress L u (S.choosing.trace S.choosing.init events)
    (S.choosing.exec S.choosing.init events) := by
  have hrun := S.choosing.exec_records
    (P := fun h st => (∀ i, (h.map Prod.snd).count (.start i) ≤ 1) → S.Progress L u h st)
    (fun h st ev hp honce => ?_) (s := S.choosing.init) (fun _ => hS.progress_party) events
  · rw [Machine.map_trace] at hrun
    exact hrun honce
  · have hcount : ∀ i, (h.map Prod.snd).count (.start i) + [ev].count (.start i) ≤ 1 := by
      intro i
      rw [← List.count_append]
      simpa using honce i
    have hbefore : ∀ i, (h.map Prod.snd).count (.start i) ≤ 1 :=
      fun i => Nat.le_of_add_right_le (hcount i)
    refine hS.progress_step (hp hbefore) ev ?_
    rintro i rfl ⟨t, ht, hstart⟩
    have hpos : 0 < (h.map Prod.snd).count (.start i) :=
      List.count_pos_iff.mpr (List.mem_map.mpr ⟨t, ht, hstart⟩)
    have hle := hcount i
    rw [List.count_singleton_self] at hle
    omega

/-- A round for which everybody has sent a message, which everybody has handled, is over. -/
theorem Progress.ended (hp : S.Progress L u h st) {r : Fin 3}
    (hhandled : ∀ i < S.parties.length, ∀ j < S.parties.length, ∀ d m, st j = some d →
      m < d.sent.length →
      Handled h i j m) (hsent : ∀ j d, st j = some d → (r : Nat) < d.sent.length) {i : Nat}
    {c : ProtocolChooseTrent} (hc : st i = some c) : c.Ended r := by
  have hN : c.N = S.parties.length := congrArg List.length (hp.inv.placed i c hc).parties
  have hi : i < S.parties.length := hN ▸ (hp.smooth i c hc).lt
  have hall : ∀ j < S.parties.length, Handled h i j r := by
    intro j hj
    obtain ⟨d, hd⟩ := hp.present j hj
    exact hhandled i hi j hj d r hd (hsent j d hd)
  exact hp.noticed i c r hc (hall i hi) fun j hj => hp.marked i j c r hc (hall j (hN ▸ hj))

/-- Parties with distinct keys, who know the same candidates in the same order and start once each:
if every message that was sent has been handled by everybody, also by its sender, then all have gone
on, with the user that the sum of their numbers points to. The order of the events plays no role,
nor do broadcasts that fail or messages that are handled twice. -/
theorem everyone_signs (S : TrentChoice) (events : List ChooseEvent)
    (hdistinct : (S.parties.map (·.publicKey)).Nodup)
    (hsame : ∀ i < S.parties.length, S.known i = L) (hsome : L ≠ [])
    (honce : ∀ i, events.count (.start i) ≤ 1)
    (hstarted : ∀ i < S.parties.length, .start i ∈ events)
    (hhandled : ∀ i < S.parties.length, ∀ j < S.parties.length, ∀ d m,
      S.choosing.exec S.choosing.init events j = some d → m < d.sent.length →
        Handled (S.choosing.trace S.choosing.init events) i j m) :
    ∃ u, (sorted L)[((∑ k ∈ Finset.range S.parties.length, S.randomNumber k) % L.length).toNat]? =
      some u ∧
      ∀ i < S.parties.length, ∃ c, S.choosing.exec S.choosing.init events i = some c ∧
        c.signing = true ∧ c.trentKey.map (·.publicKey) = some u.publicKey := by
  have hpos : 0 < L.length := List.length_pos_iff.mpr hsome
  have hindex : ((∑ k ∈ Finset.range S.parties.length, S.randomNumber k) % L.length).toNat <
      (sorted L).length := by
    rw [sorted, List.length_insertionSort]
    have hlt := Int.emod_lt_of_pos (∑ k ∈ Finset.range S.parties.length, S.randomNumber k)
      (Int.natCast_pos.mpr hpos)
    omega
  refine ⟨_, List.getElem?_eq_getElem hindex, ?_⟩
  have hS : S.Uniform L _ :=
    { distinct := hdistinct, known := hsame, nonempty := hsome,
      chosen := List.getElem?_eq_getElem hindex }
  have hp := hS.progress_exec honce
  have hbegun : ∀ j d, S.choosing.exec S.choosing.init events j = some d → 0 < d.sent.length := by
    intro j d hd
    have hj : j < S.parties.length := by
      rw [← (hp.inv.placed j d hd).parties]
      exact (hp.smooth j d hd).lt
    have hmem := hstarted j hj
    rw [← S.choosing.map_trace S.choosing.init events] at hmem
    exact hp.begun j d hd (List.mem_map.mp hmem)
  -- one round after the other is over for all parties
  have hlists := fun j d hd => (hp.smooth j d hd).lists.mp (hp.ended (r := 0) hhandled hbegun hd)
  have hnumbers := fun j d hd =>
      (hp.smooth j d hd).numbers.mp (hp.ended (r := 1) hhandled hlists hd)
  intro i hi
  obtain ⟨c, hc⟩ := hp.present i hi
  have hsmooth := hp.smooth i c hc
  have hchoices : c.Ended 2 := hp.ended hhandled hnumbers hc
  obtain ⟨key, hkey⟩ := Option.ne_none_iff_exists'.mp
    (hsmooth.known (Or.inl (hsmooth.numbers.mpr (hnumbers i c hc))))
  refine ⟨c, hc, hsmooth.signing.mpr hchoices, ?_⟩
  rw [hkey, Option.map_some, hsmooth.trent key hkey]

end TrentChoice

namespace Sample

/-- Both parties start, and then every message is handled by both, one round after the other. -/
def wholeRun : List ChooseEvent :=
  [.start 0, .start 1] ++
    [0, 1, 2].flatMap fun m => [.deliver 0 0 m, .deliver 0 1 m, .deliver 1 0 m, .deliver 1 1 m]

theorem everyone_signs_wholeRun :
    ∃ u, (ProtocolChooseTrent.sorted [user 7,
        user 4])[((∑ k ∈ Finset.range trentChoice.parties.length,
        trentChoice.randomNumber k) % [user 7, user 4].length).toNat]? = some u ∧
      ∀ i < trentChoice.parties.length, ∃ c,
        trentChoice.choosing.exec trentChoice.choosing.init wholeRun i = some c ∧ c.signing = true ∧
          c.trentKey.map (·.publicKey) = some u.publicKey := by
  have hfound : ∀ i < 2, ∀ j < 2, ∀ m < 3, ∃ k < 14, wholeRun[k]? = some (.deliver i j m) ∧
      ((trentChoice.choosing.exec trentChoice.choosing.init (wholeRun.take k) j).map
        fun d => decide (m < d.sent.length)) = some true := by decide +kernel
  have hlength : ∀ j < 2, ((trentChoice.choosing.exec trentChoice.choosing.init wholeRun j).map
      (·.sent.length)) = some 3 := by decide +kernel
  refine TrentChoice.everyone_signs trentChoice wholeRun (by decide) (by decide) (by
    decide) ?_ (by decide) fun i hi j hj d m hd hm => ?_
  · intro i
    rcases i with _ | _ | i
    · decide
    · decide
    · simp [wholeRun]
  · have hthree : d.sent.length = 3 := by
      have heq := hlength j hj
      rw [hd, Option.map_some, Option.some.injEq] at heq
      exact heq
    obtain ⟨k, -, hk, hsent⟩ := hfound i hi j hj m (hthree ▸ hm)
    obtain ⟨d', hd', hm'⟩ := Option.map_eq_some_iff.mp hsent
    exact ⟨_, trentChoice.choosing.mem_trace_of_getElem? hk, rfl, d', hd', of_decide_eq_true hm'⟩

end Sample

end Sxp
