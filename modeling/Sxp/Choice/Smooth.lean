-- SUMMARY: A party to whose choice of Trent nothing happens that the others do not expect, and what keeps it so.
import Mathlib.Algebra.BigOperators.Group.Finset.Piecewise
import Sxp.Choice.Agreement
import Sxp.Choice.Intersection

/-!
# A smooth choice

Where all have one list of candidates, a party sends its list, its number and the candidate that
the sum of the numbers points to, each once. The marks in its rows say how far it has come.
-/

namespace Sxp

namespace ProtocolChooseTrent

variable {c c' : ProtocolChooseTrent}

/-! ## Marks -/

def Marked (c : ProtocolChooseTrent) (r : Fin 3) (k : Nat) : Prop := (c.hasSent r)[k]? = some true

instance decidableMarked (c : ProtocolChooseTrent) (r : Fin 3) (k : Nat) :
    Decidable (c.Marked r k) :=
  inferInstanceAs (Decidable (_ = _))

/-- The cell for the end of the round is marked. -/
def Ended (c : ProtocolChooseTrent) (r : Fin 3) : Prop := c.Marked r c.N

instance decidableEnded (c : ProtocolChooseTrent) (r : Fin 3) : Decidable (c.Ended r) :=
  inferInstanceAs (Decidable (c.Marked r c.N))

/-- All parties are marked. -/
def Full (c : ProtocolChooseTrent) (r : Fin 3) : Prop := ∀ k < c.N, c.Marked r k

theorem Fresh.mark (h : c.Fresh) (r : Fin 3) (k : Nat) : (c.mark r k).Fresh := by
  intro r'
  rw [mark_length, mark_N, h r']

theorem marked_mark (h : c.Fresh) {r r' : Fin 3} {j k : Nat} (hj : j ≤ c.N) :
    (c.mark r j).Marked r' k ↔ r' = r ∧ k = j ∨ c.Marked r' k := by
  have hlength := h r
  by_cases hr : r' = r
  · subst hr
    rw [Marked, mark_hasSent_self]
    by_cases hk : k = j
    · subst hk
      simp only [true_and, true_or, iff_true]
      exact List.getElem?_set_self (by omega)
    · rw [List.getElem?_set_ne (Ne.symm hk)]
      simp [hk, Marked]
  · rw [Marked, mark_hasSent_of_ne j hr]
    simp [hr, Marked]

theorem ended_mark (h : c.Fresh) {r r' : Fin 3} {j : Nat} (hj : j < c.N) :
    (c.mark r j).Ended r' ↔ c.Ended r' := by
  rw [Ended, marked_mark h hj.le, mark_N]
  exact or_iff_right fun heq => absurd heq.2 (by omega)

theorem ended_mark_N (h : c.Fresh) {r r' : Fin 3} : (c.mark r c.N).Ended r' ↔
    r' = r ∨ c.Ended r' := by
  rw [Ended, marked_mark h le_rfl, mark_N]
  simp [Ended]

theorem marked_mark_N (h : c.Fresh) {r r' : Fin 3} {k : Nat} (hk : k < c.N) :
    (c.mark r c.N).Marked r' k ↔ c.Marked r' k := by
  rw [marked_mark h le_rfl]
  exact or_iff_right fun heq => absurd heq.2 (by omega)

/-- A round is over when everybody is marked, and nobody has noticed. -/
theorem indexOfNull_eq_N (h : c.Fresh) {r : Fin 3} :
    indexOfNull (c.hasSent r) = some c.N ↔ c.Full r ∧ ¬ c.Ended r := by
  have hlength := h r
  constructor
  · intro hnull
    refine ⟨fun k hk => (indexOfNull_eq_some hnull).2 k hk, fun hended => ?_⟩
    obtain ⟨hlt, hfalse, -⟩ := List.findIdx?_eq_some_iff_getElem.mp hnull
    rw [Ended, Marked, List.getElem?_eq_getElem hlt, Option.some.injEq] at hended
    simp [hended] at hfalse
  · rintro ⟨hfull, hended⟩
    refine List.findIdx?_eq_some_iff_getElem.mpr ⟨by omega, ?_, fun k hk => ?_⟩
    · rw [Ended, Marked, List.getElem?_eq_getElem (by omega), Option.some.injEq] at hended
      simpa using hended
    · have hmark := hfull k hk
      rw [Marked, List.getElem?_eq_getElem (by omega), Option.some.injEq] at hmark
      simp [hmark]

/-- A row has no null left when the round has ended. -/
theorem indexOfNull_ne_none (h : c.Fresh) {r : Fin 3} (hfull : c.Ended r → c.Full r) :
    indexOfNull (c.hasSent r) ≠ none ↔ ¬ c.Ended r := by
  have hlength := h r
  rw [ne_eq, indexOfNull_eq_none, not_iff_not]
  constructor
  · exact fun hall => hall c.N (by omega)
  · intro hended k hk
    rcases Nat.lt_or_ge k c.N with hlt | hge
    · exact hfull hended k hlt
    · have heq : k = c.N := by omega
      exact heq ▸ hended

theorem Full.mark (hfresh : c.Fresh) {r r' : Fin 3} {j : Nat} (hj : j ≤ c.N) (h : c.Full r') :
    (c.mark r j).Full r' :=
  fun k hk => (marked_mark hfresh hj).mpr (Or.inr (h k hk))

/-! ## A party that meets no trouble -/

/-- The candidates once all lists were received. -/
def sorted (list : List ElGamalKey) : List ElGamalKey :=
  list.insertionSort fun u1 u2 => u1.publicKey ≤ u2.publicKey

/-- What the place `k` has added to the sum of the party in place `i`. -/
def counted (n : Nat → Int) (i : Nat) (c : ProtocolChooseTrent) (k : Nat) : Int :=
  if k ≠ i ∧ c.Marked 1 k then n k else 0

/-- The party in place `i`, when all have the candidates `L` and the numbers `n`, and choose `u`. It
sends its list, its number and its choice, in this order, and the latter two when a round ends. -/
structure Smooth (L : List ElGamalKey) (n : Nat → Int) (u : ElGamalKey) (i : Nat)
    (c : ProtocolChooseTrent) : Prop where
  place : c.senderKeyId = i
  lt : i < c.N
  fresh : c.Fresh
  number : c.randomNumber = n i
  full : ∀ r, c.Ended r → c.Full r
  sent : c.sent = [.list L, .number (n i), .choice u.publicKey].take c.sent.length
  list : c.list = if c.Ended 0 then sorted L else L
  sum : c.finalNumber = n i + ∑ k ∈ Finset.range c.N, counted n i c k
  started : c.Marked 0 i ∨ .sendMessage ∈ c.calls → 0 < c.sent.length
  lists : c.Ended 0 ↔ 1 < c.sent.length
  own : c.Marked 1 i ↔ c.Ended 0
  numbers : c.Ended 1 ↔ 2 < c.sent.length
  chosen : c.Marked 2 i ∨ (∃ v, .chose v ∈ c.calls) → c.Ended 1
  chose : ∀ v, .chose v ∈ c.calls → v.publicKey = u.publicKey
  trent : ∀ key, c.trentKey = some key → key.publicKey = u.publicKey
  known : c.Ended 1 ∨ (∃ k, c.Marked 2 k) → c.trentKey ≠ none
  signing : c.signing = true ↔ c.Ended 2

namespace Smooth

variable {L : List ElGamalKey} {n : Nat → Int} {u : ElGamalKey} {i : Nat}

theorem create {parties users : List ElGamalKey} {key : ElGamalKey}
    (hplace : (parties.findIdx fun k => k.publicKey == key.publicKey) = i) (hi : i < parties.length)
    (hlist : candidates parties users = L) : Smooth L n u i (create parties users key (n i)) := by
  have hnone : ∀ r k, ¬ (ProtocolChooseTrent.create parties users key (n i)).Marked r k := by
    intro r k hmark
    simp [Marked, ProtocolChooseTrent.create, List.getElem?_replicate] at hmark
  have hzero : ∀ k, counted n i (ProtocolChooseTrent.create parties users key (n i)) k = 0 :=
    fun k => if_neg fun h => hnone 1 k h.2
  constructor
  case place => exact hplace
  case lt => exact hi
  case fresh => exact fun r => List.length_replicate
  case number => rfl
  case full => exact fun r hended => absurd hended (hnone r _)
  case sent => rfl
  case list => exact hlist.trans (if_neg (hnone 0 _)).symm
  case sum => rw [Finset.sum_eq_zero fun k _ => hzero k]; exact (Int.add_zero _).symm
  case started =>
    rintro (hmark | hcall); exacts [absurd hmark (hnone 0 i), absurd hcall List.not_mem_nil]
  case lists => exact iff_of_false (hnone 0 _) (Nat.not_lt_zero 1)
  case own => exact iff_of_false (hnone 1 i) (hnone 0 _)
  case numbers => exact iff_of_false (hnone 1 _) (Nat.not_lt_zero 2)
  case chosen =>
    rintro (hmark | ⟨v, hv⟩); exacts [absurd hmark (hnone 2 i), absurd hv List.not_mem_nil]
  case chose => exact fun v hv => absurd hv List.not_mem_nil
  case trent => exact fun key hkey => by cases hkey
  case known =>
    rintro (hended | ⟨k, hmark⟩); exacts [absurd hended (hnone 1 _), absurd hmark (hnone 2 k)]
  case signing => exact iff_of_false Bool.false_ne_true (hnone 2 _)

/-- A party starts once. -/
theorem sendMessage (h : Smooth L n u i c) (hnone : c.sent = []) :
    Smooth L n u i c.sendMessage := by
  have hlength : c.sent.length = 0 := by rw [hnone]; rfl
  have hlist : c.list = L := by
    rw [h.list, if_neg fun hended => ?_]
    have hlt := h.lists.mp hended
    omega
  have hsent : c.sendMessage.sent = [.list L] := by
    rw [ProtocolChooseTrent.sendMessage, wait, send, hlist, hnone]
    rfl
  exact { h with
    sent := by rw [hsent]; rfl
    started := fun _ => by rw [hsent]; exact Nat.one_pos
    lists := by
      rw [hsent]
      exact iff_of_false (fun hended => absurd (h.lists.mp hended) (by omega)) (by simp)
    numbers := by
      rw [hsent]
      exact iff_of_false (fun hended => absurd (h.numbers.mp hended) (by omega)) (by simp)
    chosen := by
      rintro (hmark | ⟨v, hv⟩)
      · exact h.chosen (Or.inl hmark)
      · rcases List.mem_cons.mp hv with heq | hold
        · cases heq
        · exact h.chosen (Or.inr ⟨v, hold⟩)
    chose := fun v hv => by
      rcases List.mem_cons.mp hv with heq | hold
      · cases heq
      · exact h.chose v hold }

/-- Broadcasts return, or fail. -/
theorem calls_of (h : Smooth L n u i c) {calls : List ChooseCall} (hsub : calls ⊆ c.calls) :
    Smooth L n u i { c with calls := calls } :=
  { h with
    started := fun hstarted => h.started (hstarted.imp_right fun hcall => hsub hcall)
    chosen := fun hchosen => h.chosen (hchosen.imp_right fun ⟨v, hv⟩ => ⟨v, hsub hv⟩)
    chose := fun v hv => h.chose v (hsub hv) }

/-- A sender of a list is marked. -/
theorem mark_list (h : Smooth L n u i c) {j : Nat} (hj : j < c.N)
    (hown : j = i → 0 < c.sent.length) : Smooth L n u i (c.mark 0 j) := by
  have hended : ∀ r, (c.mark 0 j).Ended r ↔ c.Ended r := fun r => ended_mark h.fresh hj
  have hother : ∀ {r k}, r ≠ 0 → ((c.mark 0 j).Marked r k ↔ c.Marked r k) := by
    intro r k hr
    rw [marked_mark h.fresh hj.le]
    exact or_iff_right fun heq => hr heq.1
  exact { h with
    fresh := h.fresh.mark 0 j
    full := fun r hend => (h.full r ((hended r).mp hend)).mark h.fresh hj.le
    list := by simp only [hended]; exact h.list
    sum := by simp only [counted, hother (by decide : (1 : Fin 3) ≠ 0)]; exact h.sum
    started := by
      rintro (hmark | hcall)
      · rcases (marked_mark h.fresh hj.le).mp hmark with ⟨-, heq⟩ | hold
        · exact hown heq.symm
        · exact h.started (Or.inl hold)
      · exact h.started (Or.inr hcall)
    lists := (hended 0).trans h.lists
    own := by rw [hother (by decide : (1 : Fin 3) ≠ 0), hended]; exact h.own
    numbers := (hended 1).trans h.numbers
    chosen := by rw [hother (by decide : (2 : Fin 3) ≠ 0), hended]; exact h.chosen
    known := by simp only [hother (by decide : (2 : Fin 3) ≠ 0), hended]; exact h.known
    signing := h.signing.trans (hended 2).symm }

/-- The end of the first round. -/
theorem endOfLists (h : Smooth L n u i c) (hfull : c.Full 0) (hnot : ¬ c.Ended 0) :
    Smooth L n u i c.endOfLists ∧ c.endOfLists.Ended 0 ∧
      ∀ r k, c.endOfLists.Marked r k ↔ (r = 1 ∧ k = i) ∨ (r = 0 ∧ k = c.N) ∨ c.Marked r k := by
  have hlength : c.sent.length = 1 := by
    have hpos := h.started (Or.inl (hfull i h.lt))
    have hle : ¬ 1 < c.sent.length := fun hlt => hnot (h.lists.mpr hlt)
    omega
  have hlist : c.list = L := h.list.trans (if_neg hnot)
  have hfresh₀ := h.fresh.mark 0 c.N
  -- the row of the numbers gets the own mark
  have hmarked : ∀ r k, c.endOfLists.Marked r k ↔
      (r = 1 ∧ k = i) ∨ (r = 0 ∧ k = c.N) ∨ c.Marked r k := by
    intro r k
    have hset : Fresh ((c.mark 0 c.N).setList (sorted c.list)) := hfresh₀
    rw [show c.endOfLists.Marked r k ↔
      (((c.mark 0 c.N).setList (sorted c.list)).mark 1 c.senderKeyId).Marked r k from Iff.rfl,
      h.place, marked_mark hset h.lt.le]
    exact or_congr_right (marked_mark h.fresh le_rfl)
  have hN : c.endOfLists.N = c.N := rfl
  have hended : ∀ r, c.endOfLists.Ended r ↔ r = 0 ∨ c.Ended r := by
    intro r
    rw [Ended, hmarked, hN]
    have hi : c.N ≠ i := h.lt.ne'
    simp [hi, Ended]
  have hother : ∀ k, c.endOfLists.Marked 2 k ↔ c.Marked 2 k := by
    intro k
    rw [hmarked]
    simp
  have hnumbers : ¬ c.Ended 1 := fun hend => hnot (h.own.mp (h.full 1 hend i h.lt))
  have hsent : c.endOfLists.sent = [.list L, .number (n i)] := by
    have hold : c.sent = [.list L] := by
      rw [h.sent, hlength]
      rfl
    show c.sent ++ [.number c.randomNumber] = _
    rw [hold, h.number]
    rfl
  refine ⟨?_, (hended 0).mpr (Or.inl rfl), hmarked⟩
  exact { h with
    fresh := hfresh₀.mark 1 c.senderKeyId
    full := fun r hend k hk => by
      rw [hmarked]
      rcases (hended r).mp hend with rfl | hold
      · exact Or.inr (Or.inr (hfull k hk))
      · exact Or.inr (Or.inr (h.full r hold k hk))
    sent := by rw [hsent]; rfl
    list := by
      rw [if_pos ((hended 0).mpr (Or.inl rfl)), ← hlist]
      rfl
    sum := by
      refine h.sum.trans (congrArg (n i + ·) (Finset.sum_congr rfl fun k hk => ?_))
      have hk' := Finset.mem_range.mp hk
      simp only [counted, hmarked]
      by_cases hki : k = i
      · simp [hki]
      · simp [hki]
    started := fun _ => by rw [hsent]; exact Nat.two_pos
    lists := iff_of_true ((hended 0).mpr (Or.inl rfl)) (by rw [hsent]; exact Nat.one_lt_two)
    own := iff_of_true ((hmarked 1 i).mpr (Or.inl ⟨rfl, rfl⟩)) ((hended 0).mpr (Or.inl rfl))
    numbers := by
      rw [hended, hsent]
      simp [hnumbers]
    chosen := by
      rw [hother, hended]
      exact fun hchosen => Or.inr (h.chosen hchosen)
    known := by
      simp only [hother, hended, Fin.reduceEq, false_or]
      exact h.known
    signing := h.signing.trans ((hended 2).trans (or_iff_right (by decide))).symm }

/-- A number is added for a sender that is not marked yet. -/
theorem addNumber (h : Smooth L n u i c) {j : Nat} (hj : j < c.N) (hown : j = i → c.Ended 0) :
    Smooth L n u i (c.addNumber (n j) j) ∧ (c.addNumber (n j) j).Marked 1 j ∧
      ∀ r k, (c.addNumber (n j) j).Marked r k ↔ (r = 1 ∧ k = j) ∨ c.Marked r k := by
  unfold ProtocolChooseTrent.addNumber
  split
  · rename_i hnull
    have hunmarked : ¬ c.Marked 1 j := fun hmark => by
      rw [Marked, hnull] at hmark
      cases hmark
    have hji : j ≠ i := fun hji => hunmarked (hji ▸ h.own.mpr (hown hji))
    have hfresh : Fresh { c with finalNumber := c.finalNumber + n j } := h.fresh
    have hmarked : ∀ r k, (ProtocolChooseTrent.mark
        { c with finalNumber := c.finalNumber + n j } 1 j).Marked r k ↔
        (r = 1 ∧ k = j) ∨ c.Marked r k := fun r k => marked_mark hfresh hj.le
    have hended : ∀ r, (ProtocolChooseTrent.mark
        { c with finalNumber := c.finalNumber + n j } 1 j).Ended r ↔
        c.Ended r := fun r => ended_mark hfresh hj
    have hother : ∀ {r k}, r ≠ 1 →
        ((ProtocolChooseTrent.mark { c with finalNumber := c.finalNumber + n j } 1 j).Marked r k ↔
          c.Marked r k) := by
      intro r k hr
      rw [hmarked]
      exact or_iff_right fun heq => hr heq.1
    refine ⟨?_, (hmarked 1 j).mpr (Or.inl ⟨rfl, rfl⟩), hmarked⟩
    exact { h with
      fresh := hfresh.mark 1 j
      full := fun r hend k hk => (hmarked r k).mpr (Or.inr (h.full r ((hended r).mp hend) k hk))
      list := by simp only [hended]; exact h.list
      sum := by
        have hcounted : counted n i
            (ProtocolChooseTrent.mark { c with finalNumber := c.finalNumber + n j } 1 j) =
            Function.update (counted n i c) j (n j) := by
          funext k
          by_cases hk : k = j
          · subst hk
            simp [counted, hmarked, hji]
          · simp [counted, hmarked, hk]
        have hmem : j ∈ Finset.range c.N := Finset.mem_range.mpr hj
        have hzero : counted n i c j = 0 := if_neg fun hc => hunmarked hc.2
        show c.finalNumber + n j = n i + ∑ k ∈ Finset.range c.N, _
        rw [hcounted, Finset.sum_update_of_mem hmem, Finset.sdiff_singleton_eq_erase, h.sum,
          ← Finset.add_sum_erase _ _ hmem, hzero]
        ring
      started := by
        rw [hother (by decide : (0 : Fin 3) ≠ 1)]
        exact h.started
      lists := (hended 0).trans h.lists
      own := by
        rw [hmarked, hended, ← h.own]
        exact or_iff_right fun heq => hji heq.2.symm
      numbers := (hended 1).trans h.numbers
      chosen := by
        rw [hother (by decide : (2 : Fin 3) ≠ 1), hended]
        exact h.chosen
      known := by
        simp only [hother (by decide : (2 : Fin 3) ≠ 1), hended]
        exact h.known
      signing := h.signing.trans (hended 2).symm }
  · rename_i hnull
    have hmark : c.Marked 1 j := by
      have hlength := h.fresh 1
      have hlt : j < (c.hasSent 1).length := by omega
      rw [Marked]
      rw [List.getElem?_eq_getElem hlt] at hnull ⊢
      simpa using hnull
    refine ⟨h, hmark, fun r k => ⟨Or.inr, ?_⟩⟩
    rintro (⟨rfl, rfl⟩ | hold)
    · exact hmark
    · exact hold

/-- At the end of the second round the party chooses `u`. -/
theorem trentUser (h : Smooth L n u i c) (hfull : c.Full 1) (hL : L ≠ [])
    (hu : (sorted L)[((∑ k ∈ Finset.range c.N, n k) % L.length).toNat]? = some u) :
    c.list ≠ [] ∧ c.trentUser = .ok u := by
  have hlist : c.list = sorted L := h.list.trans (if_pos (h.own.mp (hfull i h.lt)))
  have hlength : c.list.length = L.length := by
    rw [hlist]
    exact (List.perm_insertionSort _ L).length_eq
  have hpos : 0 < L.length := List.length_pos_iff.mpr hL
  have hsum : c.finalNumber = ∑ k ∈ Finset.range c.N, n k := by
    have hmem : i ∈ Finset.range c.N := Finset.mem_range.mpr h.lt
    have hcounted : ∀ k ∈ (Finset.range c.N).erase i, counted n i c k = n k := by
      intro k hk
      obtain ⟨hki, hk⟩ := Finset.mem_erase.mp hk
      exact if_pos ⟨hki, hfull k (Finset.mem_range.mp hk)⟩
    have hown : counted n i c i = 0 := if_neg fun hc => hc.1 rfl
    rw [h.sum, ← Finset.add_sum_erase _ _ hmem, hown, zero_add, Finset.sum_congr rfl hcounted,
      Finset.add_sum_erase _ _ hmem]
  refine ⟨fun hnil => ?_, ?_⟩
  · rw [hnil] at hlength
    exact hL (List.length_eq_zero_iff.mp hlength.symm)
  · have hmod : BigInteger.mod c.finalNumber c.list.length =
        .ok ((∑ k ∈ Finset.range c.N, n k) % L.length) := by
      rw [hlength, hsum, BigInteger.mod]
      rw [if_neg (by omega)]
    rw [ProtocolChooseTrent.trentUser, hmod, Except.ok_bind, hlist, hu]

/-- The end of the second round. -/
theorem choose (h : Smooth L n u i c) (hfull : c.Full 1) (hnot : ¬ c.Ended 1) :
    Smooth L n u i ((c.mark 1 c.N).choose u) ∧ ((c.mark 1 c.N).choose u).Ended 1 ∧
      ∀ r k, ((c.mark 1 c.N).choose u).Marked r k ↔ (r = 1 ∧ k = c.N) ∨ c.Marked r k := by
  have hlists : c.Ended 0 := h.own.mp (hfull i h.lt)
  have hlength : c.sent.length = 2 := by
    have hle := h.lists.mp hlists
    have hlt : ¬ 2 < c.sent.length := fun hlt => hnot (h.numbers.mpr hlt)
    omega
  have hfresh := h.fresh.mark 1 c.N
  obtain ⟨trentK, hchoose, htrent, hsome⟩ : ∃ trentK, (c.mark 1 c.N).choose u =
      (((c.mark 1 c.N).setTrent (some trentK)).send (.choice u.publicKey)).wait (.chose u) ∧
      trentK.publicKey = u.publicKey ∧ (c.trentKey = none ∨ c.trentKey = some trentK) := by
    unfold ProtocolChooseTrent.choose
    dsimp only
    split
    · rename_i hnone
      exact ⟨u, rfl, rfl, Or.inl hnone⟩
    · rename_i hkey
      obtain ⟨key, hkey⟩ := Option.ne_none_iff_exists'.mp hkey
      have hsame : (c.mark 1 c.N).setTrent (some key) = c.mark 1 c.N := by
        rw [setTrent, ← hkey]
      exact ⟨key, by rw [hsame], h.trent key hkey, Or.inr hkey⟩
  rw [hchoose]
  have hmarked : ∀ {r k}, k < c.N → ((c.mark 1 c.N).Marked r k ↔ c.Marked r k) :=
    fun hk => marked_mark_N h.fresh hk
  have hended : ∀ r, (c.mark 1 c.N).Ended r ↔ r = 1 ∨ c.Ended r := fun r => ended_mark_N h.fresh
  have hsent : ((((c.mark 1 c.N).setTrent (some trentK)).send (.choice u.publicKey)).wait
      (.chose u)).sent = [.list L, .number (n i), .choice u.publicKey] := by
    show c.sent ++ [ChooseMessage.choice u.publicKey] = _
    rw [h.sent, hlength]
    rfl
  refine ⟨?_, (hended 1).mpr (Or.inl rfl), fun r k => marked_mark h.fresh le_rfl⟩
  exact { h with
    fresh := hfresh
    full := fun r hend k hk => by
      refine (hmarked hk).mpr ?_
      rcases (hended r).mp hend with rfl | hold
      · exact hfull k hk
      · exact h.full r hold k hk
    sent := by rw [hsent]; rfl
    list := h.list.trans (if_congr (((hended 0).trans (or_iff_right (by decide))).symm) rfl rfl)
    sum := by
      refine h.sum.trans (congrArg (n i + ·) (Finset.sum_congr rfl fun k hk => ?_))
      exact if_congr (and_congr_right fun _ => (hmarked (Finset.mem_range.mp hk)).symm) rfl rfl
    started := fun _ => by rw [hsent]; exact Nat.zero_lt_succ 2
    lists := iff_of_true ((hended 0).mpr (Or.inr hlists)) (by
      rw [hsent]; exact Nat.one_lt_succ_succ 1)
    own := (hmarked h.lt).trans (h.own.trans ((hended 0).trans (or_iff_right (by decide))).symm)
    numbers := iff_of_true ((hended 1).mpr (Or.inl rfl)) (by rw [hsent]; exact Nat.lt_succ_self 2)
    chosen := fun _ => (hended 1).mpr (Or.inl rfl)
    chose := fun v hv => by
      rcases List.mem_cons.mp hv with heq | hold
      · cases heq
        rfl
      · exact h.chose v hold
    trent := fun key hkey => by
      cases hkey
      exact htrent
    known := fun _ => Option.some_ne_none trentK
    signing := h.signing.trans ((hended 2).trans (or_iff_right (by decide))).symm }

/-- A sender of a choice is marked, once there is a Trent. -/
theorem mark_choice (h : Smooth L n u i c) {j : Nat} (hj : j < c.N) (hown : j = i → c.Ended 1)
    (hsome : c.trentKey ≠ none) : Smooth L n u i (c.mark 2 j) := by
  have hended : ∀ r, (c.mark 2 j).Ended r ↔ c.Ended r := fun r => ended_mark h.fresh hj
  have hother : ∀ {r k}, r ≠ 2 → ((c.mark 2 j).Marked r k ↔ c.Marked r k) := by
    intro r k hr
    rw [marked_mark h.fresh hj.le]
    exact or_iff_right fun heq => hr heq.1
  exact { h with
    fresh := h.fresh.mark 2 j
    full := fun r hend => (h.full r ((hended r).mp hend)).mark h.fresh hj.le
    list := by simp only [hended]; exact h.list
    sum := by simp only [counted, hother (by decide : (1 : Fin 3) ≠ 2)]; exact h.sum
    started := by rw [hother (by decide : (0 : Fin 3) ≠ 2)]; exact h.started
    lists := (hended 0).trans h.lists
    own := by rw [hother (by decide : (1 : Fin 3) ≠ 2), hended]; exact h.own
    numbers := (hended 1).trans h.numbers
    chosen := by
      rw [hended]
      rintro (hmark | hcall)
      · rcases (marked_mark h.fresh hj.le).mp hmark with ⟨-, heq⟩ | hold
        · exact hown heq.symm
        · exact h.chosen (Or.inl hold)
      · exact h.chosen (Or.inr hcall)
    known := fun _ => hsome
    signing := h.signing.trans (hended 2).symm }

theorem setTrent (h : Smooth L n u i c) {key : ElGamalKey} (hkey : key.publicKey = u.publicKey) :
    Smooth L n u i (c.setTrent (some key)) :=
  { h with
    trent := fun key' hkey' => by
      cases hkey'
      exact hkey
    known := fun _ => Option.some_ne_none key }

/-- The end of the third round. -/
theorem nextStep (h : Smooth L n u i c) (hfull : c.Full 2) :
    Smooth L n u i (c.mark 2 c.N).nextStep ∧ (c.mark 2 c.N).nextStep.Ended 2 := by
  have hmarked : ∀ {r k}, k < c.N → ((c.mark 2 c.N).Marked r k ↔ c.Marked r k) :=
    fun hk => marked_mark_N h.fresh hk
  have hended : ∀ r, (c.mark 2 c.N).Ended r ↔ r = 2 ∨ c.Ended r := fun r => ended_mark_N h.fresh
  have hended' : ∀ {r}, r ≠ 2 → ((c.mark 2 c.N).Ended r ↔ c.Ended r) :=
    fun hr => (hended _).trans (or_iff_right hr)
  have hchosen : c.Ended 1 := h.chosen (Or.inl (hfull i h.lt))
  refine ⟨?_, (hended 2).mpr (Or.inl rfl)⟩
  exact { h with
    fresh := h.fresh.mark 2 c.N
    full := fun r hend k hk => by
      refine (hmarked hk).mpr ?_
      rcases (hended r).mp hend with rfl | hold
      · exact hfull k hk
      · exact h.full r hold k hk
    list := h.list.trans (if_congr (hended' (by decide : (0 : Fin 3) ≠ 2)).symm rfl rfl)
    sum := by
      refine h.sum.trans (congrArg (n i + ·) (Finset.sum_congr rfl fun k hk => ?_))
      exact if_congr (and_congr_right fun _ => (hmarked (Finset.mem_range.mp hk)).symm) rfl rfl
    started := fun hstarted => h.started (hstarted.imp_left (hmarked h.lt).mp)
    lists := (hended' (by decide : (0 : Fin 3) ≠ 2)).trans h.lists
    own := (hmarked h.lt).trans (h.own.trans (hended' (by decide : (0 : Fin 3) ≠ 2)).symm)
    numbers := (hended' (by decide : (1 : Fin 3) ≠ 2)).trans h.numbers
    chosen := fun _ => (hended 1).mpr (Or.inr hchosen)
    known := fun _ => h.known (Or.inl hchosen)
    signing := iff_of_true rfl ((hended 2).mpr (Or.inl rfl)) }

end Smooth

end ProtocolChooseTrent

end Sxp
