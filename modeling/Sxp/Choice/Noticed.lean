-- SUMMARY: Rounds of the choice of Trent whose end is noticed, and what a handled message does to a smooth choice.
import Mathlib.Tactic.FinCases
import Sxp.Choice.Smooth

/-!
# Messages of a smooth choice

Every message of a smooth party keeps the choice of its receiver smooth, and marks its sender there,
unless the round is over.
-/

namespace Sxp

namespace ProtocolChooseTrent

variable {c c' : ProtocolChooseTrent}

/-! ## Rounds that are noticed

A round ends while a message is handled. A party can mark itself outside of that, but only before it
has handled its own message. -/

/-- The party has noticed whether all are marked. -/
def Noticed (c : ProtocolChooseTrent) (r : Fin 3) : Prop := c.Full r → c.Ended r

structure Keeps (i : Nat) (c c' : ProtocolChooseTrent) : Prop where
  parties : c'.parties = c.parties
  marked : ∀ r k, c.Marked r k → c'.Marked r k
  noticed : ∀ r : Fin 3, (r : Nat) < c.sent.length → c.Marked r i → c.Noticed r → c'.Noticed r

theorem Keeps.refl (i : Nat) (c : ProtocolChooseTrent) : Keeps i c c :=
  ⟨rfl, fun _ _ h => h, fun _ _ _ h => h⟩

/-- A row that got no new marks. -/
theorem Noticed.of_marked {r : Fin 3} (h : c.Noticed r) (hN : c'.N = c.N)
    (hsame : ∀ k, c'.Marked r k ↔ c.Marked r k) : c'.Noticed r := by
  intro hfull
  rw [Ended, hN, hsame]
  exact h fun k hk => (hsame k).mp (hfull k (hN ▸ hk))

/-- The end of the round was tested for, and is not there. -/
theorem noticed_of_not_last {r : Fin 3} (h : c.Fresh)
    (hlast : indexOfNull (c.hasSent r) ≠ some c.N) : c.Noticed r := by
  intro hfull
  by_contra hopen
  exact hlast ((indexOfNull_eq_N h).mpr ⟨hfull, hopen⟩)

/-- Marks are added in the row `r₀`, whose end is looked for, and in rows that the party has not
reached. -/
theorem Keeps.of_row {i : Nat} {r₀ : Fin 3} (hparties : c'.parties = c.parties)
    (hmarked : ∀ r k, c.Marked r k → c'.Marked r k)
    (hnoticed : (r₀ : Nat) < c.sent.length → c'.Noticed r₀)
    (hother : ∀ r : Fin 3, r ≠ r₀ → (r : Nat) < c.sent.length → ∀ k, c'.Marked r k ↔ c.Marked r k) :
    Keeps i c c' where
  parties := hparties
  marked := hmarked
  noticed r hr _ hold := by
    by_cases hrow : r = r₀
    · subst hrow
      exact hnoticed hr
    · exact hold.of_marked (congrArg List.length hparties) (hother r hrow hr)

namespace Smooth

variable {L : List ElGamalKey} {n : Nat → Int} {u : ElGamalKey} {i : Nat}

theorem addNumber_sent (c : ProtocolChooseTrent) (m : Int) (j : Nat) :
    (c.addNumber m j).sent = c.sent := by
  unfold ProtocolChooseTrent.addNumber
  split <;> rfl

/-- What the delivery of the message of place `j` for row `r` makes of the party. -/
structure Handles (L : List ElGamalKey) (n : Nat → Int) (u : ElGamalKey) (i j : Nat) (r : Fin 3)
    (c c' : ProtocolChooseTrent) : Prop where
  smooth : Smooth L n u i c'
  keeps : Keeps i c c'
  marked : c'.Marked r j
  noticed : j = i → c'.Noticed r
  idle : c.sent = [] → c'.sent = []

theorem onList (h : Smooth L n u i c) (hL : L ≠ []) (hnot : ¬ c.Ended 0) {j : Nat} (hj : j < c.N)
    (hown : j = i → 0 < c.sent.length) : Handles L n u i j 0 c (c.onList L j).1 := by
  have hlist : c.list = L := h.list.trans (if_neg hnot)
  have hloop : ∃ it, retainLoop L (ListIterator.of c.list) = (it, .ok ()) ∧ it.list = L := by
    obtain ⟨can, hblock⟩ := retainLoop_block hL rfl [] [] false
    have haligned : aligned L L = true := by
      cases L with
      | nil => exact absurd rfl hL
      | cons v rest => simp [aligned]
    rw [retained, if_pos haligned, retainLoop_nil, List.append_nil, List.nil_append] at hblock
    exact ⟨{ passed := L, remaining := [], canRemove := can }, by rw [hlist]; exact hblock,
      List.append_nil L⟩
  obtain ⟨it, hloop, hit⟩ := hloop
  have hset : c.setList it.list = c := by rw [hit, ← hlist]; rfl
  have hmarked := h.mark_list hj hown
  have hcells : ∀ r k, (c.mark 0 j).Marked r k ↔ r = 0 ∧ k = j ∨ c.Marked r k :=
    fun r k => marked_mark h.fresh hj.le
  have hend := indexOfNull_eq_N (r := 0) hmarked.fresh
  simp only [ProtocolChooseTrent.onList, hloop, hset]
  split
  · rename_i hlast
    obtain ⟨hfull, hnot'⟩ := hend.mp hlast
    obtain ⟨hsmooth, hended, hcells'⟩ := hmarked.endOfLists hfull hnot'
    refine ⟨hsmooth, Keeps.of_row rfl (fun r k hold =>
      (hcells' r k).mpr (Or.inr (Or.inr ((hcells r k).mpr (Or.inr hold)))))
      (fun _ _ => hended) fun r hrow hr k => ?_,
      (hcells' 0 j).mpr (Or.inr (Or.inr ((hcells 0 j).mpr (Or.inl ⟨rfl, rfl⟩)))), fun _ _ =>
      hended, fun hidle => ?_⟩
    · -- the own number was not sent before
      have hrow' : r ≠ 1 := by
        rintro rfl
        exact hnot (h.lists.mpr hr)
      rw [hcells', hcells]
      simp [hrow, hrow']
    · have hpos : 0 < c.sent.length := hmarked.started (Or.inl (hfull i h.lt))
      rw [hidle] at hpos
      exact absurd hpos (Nat.lt_irrefl 0)
  · rename_i hlast
    have hnoticed := noticed_of_not_last hmarked.fresh hlast
    refine ⟨hmarked, Keeps.of_row rfl (fun r k hold => (hcells r k).mpr (Or.inr hold))
      (fun _ => hnoticed)
      fun r hrow _ k => ?_, (hcells 0 j).mpr (Or.inl ⟨rfl, rfl⟩), fun _ => hnoticed, id⟩
    rw [hcells]
    simp [hrow]

theorem onNumber (h : Smooth L n u i c) (hL : L ≠ [])
    (hu : (sorted L)[((∑ k ∈ Finset.range c.N, n k) % L.length).toNat]? = some u) {j : Nat}
    (hj : j < c.N) (hown : j = i → c.Ended 0) : Handles L n u i j 1 c (c.onNumber (n j) j).1 := by
  obtain ⟨hadded, hmarked, hcells⟩ := h.addNumber hj hown
  have hN : (c.addNumber (n j) j).N = c.N :=
    congrArg List.length (addNumber_quiet c (n j) j).parties
  have hended : (c.addNumber (n j) j).Ended 1 ↔ c.Ended 1 := by
    rw [Ended, hN, hcells]
    exact or_iff_right fun heq => absurd heq.2 hj.ne'
  have hend := indexOfNull_eq_N (r := 1) hadded.fresh
  unfold ProtocolChooseTrent.onNumber
  dsimp only
  split
  · rename_i hlast
    obtain ⟨hfull, hnot'⟩ := hend.mp hlast
    obtain ⟨hne, htrent⟩ := hadded.trentUser hfull hL (hN.symm ▸ hu)
    obtain ⟨hsmooth, hover, hcells'⟩ := hadded.choose hfull hnot'
    have hlist : ((c.addNumber (n j) j).mark 1 (c.addNumber (n j) j).N).list.isEmpty = false := by
      rw [List.isEmpty_eq_false_iff]
      exact hne
    have htrent' : ((c.addNumber (n j) j).mark 1 (c.addNumber (n j) j).N).trentUser = .ok u :=
      htrent
    simp only [hlist, htrent', Bool.false_eq_true, if_false]
    refine ⟨hsmooth, Keeps.of_row
      ((Extends.choose _ u).parties.trans (addNumber_quiet c (n j) j).parties)
      (fun r k hold => (hcells' r k).mpr (Or.inr ((hcells r k).mpr (Or.inr hold))))
      (fun _ _ => hover)
      fun r hrow _ k => ?_, (hcells' 1 j).mpr (Or.inr hmarked), fun _ _ => hover, fun hidle => ?_⟩
    · rw [hcells', hcells]
      simp [hrow]
    · have hpos : 1 < (c.addNumber (n j) j).sent.length :=
        hadded.lists.mp (hadded.own.mp (hfull i hadded.lt))
      rw [addNumber_sent, hidle] at hpos
      exact absurd hpos (Nat.not_lt_zero 1)
  · rename_i hlast
    have hnoticed := noticed_of_not_last hadded.fresh hlast
    refine ⟨hadded, Keeps.of_row (addNumber_quiet c (n j) j).parties (fun r k hold =>
      (hcells r k).mpr (Or.inr hold))
      (fun _ => hnoticed) fun r hrow _ k => ?_, hmarked, fun _ => hnoticed,
      fun hidle => (addNumber_sent ..).trans hidle⟩
    rw [hcells]
    simp [hrow]

theorem onChoice (h : Smooth L n u i c) {j : Nat} (hj : j < c.N) (hown : j = i → c.Ended 1) :
    Handles L n u i j 2 c (c.onChoice u.publicKey j) := by
  unfold ProtocolChooseTrent.onChoice
  split
  · -- the party has not chosen yet
    rename_i hnone
    have hnot : ¬ c.Ended 1 := fun hend => h.known (Or.inl hend) hnone
    have hset : Smooth L n u i
        (c.setTrent (some ⟨ElGamalAsymKeyFactory.P, ElGamalAsymKeyFactory.G, u.publicKey⟩)) :=
      h.setTrent rfl
    have hcells : ∀ r k, ((c.setTrent (some ⟨ElGamalAsymKeyFactory.P, ElGamalAsymKeyFactory.G,
        u.publicKey⟩)).mark
        2 j).Marked r k ↔ r = 2 ∧ k = j ∨ c.Marked r k := fun r k => marked_mark hset.fresh hj.le
    refine ⟨hset.mark_choice hj hown (Option.some_ne_none _),
      Keeps.of_row rfl (fun r k hold => (hcells r k).mpr (Or.inr hold))
        (fun hr : ((2 : Fin 3) : Nat) < _ => absurd (h.numbers.mpr hr) hnot) fun r hrow _ k => ?_,
      (hcells 2 j).mpr (Or.inl ⟨rfl, rfl⟩), fun hji => absurd (hown hji) hnot, id⟩
    refine (hcells r k).trans ?_
    simp [hrow]
  · rename_i key hkey
    have hmarked := h.mark_choice hj hown (hkey ▸ Option.some_ne_none key)
    have hcells : ∀ r k, (c.mark 2 j).Marked r k ↔ r = 2 ∧ k = j ∨ c.Marked r k :=
      fun r k => marked_mark h.fresh hj.le
    have hend := indexOfNull_eq_N (r := 2) hmarked.fresh
    rw [if_pos (h.trent key hkey).symm]
    dsimp only
    split
    · rename_i hlast
      obtain ⟨hfull, -⟩ := hend.mp hlast
      obtain ⟨hsmooth, hover⟩ := hmarked.nextStep hfull
      have hcells' : ∀ r k, ((c.mark 2 j).mark 2 (c.mark 2 j).N).nextStep.Marked r k ↔
          r = 2 ∧ k = c.N ∨ (c.mark 2 j).Marked r k := fun r k => marked_mark hmarked.fresh le_rfl
      refine ⟨hsmooth, Keeps.of_row rfl (fun r k hold =>
        (hcells' r k).mpr (Or.inr ((hcells r k).mpr (Or.inr hold))))
        (fun _ _ => hover) fun r hrow _ k => ?_,
        (hcells' 2 j).mpr (Or.inr ((hcells 2 j).mpr (Or.inl ⟨rfl, rfl⟩))), fun _ _ => hover, id⟩
      rw [hcells', hcells]
      simp [hrow]
    · rename_i hlast
      have hnoticed := noticed_of_not_last hmarked.fresh hlast
      refine ⟨hmarked, Keeps.of_row rfl (fun r k hold => (hcells r k).mpr (Or.inr hold))
        (fun _ => hnoticed)
        fun r hrow _ k => ?_, (hcells 2 j).mpr (Or.inl ⟨rfl, rfl⟩), fun _ => hnoticed, id⟩
      rw [hcells]
      simp [hrow]

/-- What follows a broadcast marks nobody but the party itself. -/
theorem resume (h : Smooth L n u i c) : Smooth L n u i c.resume ∧ Keeps i c c.resume ∧
    c.resume.sent = c.sent := by
  -- an own mark that is new is for a message the party has not handled
  have hkeeps : ∀ (c₀ : ProtocolChooseTrent) (r₀ : Fin 3), c₀.Fresh → c₀.parties = c.parties →
      (∀ r k, c₀.Marked r k ↔ c.Marked r k) → Keeps i c (c₀.mark r₀ i) := by
    intro c₀ r₀ hfresh hparties hsame
    have hN : c₀.N = c.N := congrArg List.length hparties
    have hcells : ∀ r k, (c₀.mark r₀ i).Marked r k ↔ r = r₀ ∧ k = i ∨ c.Marked r k := by
      intro r k
      rw [marked_mark hfresh (hN ▸ h.lt.le), hsame]
    refine ⟨hparties, fun r k hold => (hcells r k).mpr (Or.inr hold), fun r _ hown hnoticed => ?_⟩
    refine hnoticed.of_marked hN fun k => (hcells r k).trans (or_iff_right_of_imp ?_)
    rintro ⟨-, rfl⟩
    exact hown
  unfold ProtocolChooseTrent.resume
  split
  · exact ⟨h, Keeps.refl i c, rfl⟩
  · rename_i calls heq
    have hcalls : Smooth L n u i { c with calls := calls } :=
      h.calls_of (heq ▸ List.subset_cons_self _ _)
    have hsent := h.started (Or.inr (heq ▸ List.mem_cons_self))
    rw [congrArg (mark { c with calls := calls } 0) h.place]
    exact ⟨hcalls.mark_list h.lt fun _ => hsent,
      hkeeps { c with calls := calls } 0 h.fresh rfl fun _ _ => Iff.rfl, rfl⟩
  · rename_i v calls heq
    have hcalls : Smooth L n u i { c with calls := calls } :=
      h.calls_of (heq ▸ List.subset_cons_self _ _)
    have hend : c.Ended 1 := h.chosen (Or.inr ⟨v, heq ▸ List.mem_cons_self⟩)
    have hv := h.chose v (heq ▸ List.mem_cons_self)
    obtain ⟨key, hkey⟩ := Option.ne_none_iff_exists'.mp (h.known (Or.inl hend))
    have hafter : afterChoice { c with calls := calls } v = mark { c with calls := calls } 2 i := by
      simp only [afterChoice, mark, hkey, h.place]
      rw [if_neg (not_not.mpr ((h.trent key hkey).trans hv.symm))]
    rw [hafter]
    exact ⟨hcalls.mark_choice h.lt (fun _ => hend) (hkey ▸ Option.some_ne_none key),
      hkeeps { c with calls := calls } 2 h.fresh rfl fun _ _ => Iff.rfl, rfl⟩

/-- A message for a round that has ended does nothing. -/
theorem Handles.of_ended (h : Smooth L n u i c) {r : Fin 3} (hend : c.Ended r) {j : Nat}
    (hj : j < c.N) : Handles L n u i j r c c :=
  ⟨h, Keeps.refl i c, h.full r hend j hj, fun _ _ => hend, id⟩

/-- The handler, for one of the three messages of the party in place `j`. -/
theorem notify (h : Smooth L n u i c) (hL : L ≠ [])
    (hu : (sorted L)[((∑ k ∈ Finset.range c.N, n k) % L.length).toNat]? = some u)
    {j : Nat} {r : Fin 3} {message : ChooseMessage} {senderId : Int} (hj : j < c.N)
    (hplace : c.parties.findIdx? (fun k => k.publicKey == senderId) = some j)
    (hmessage : [ChooseMessage.list L, .number (n j), .choice u.publicKey][(r : Nat)]? =
      some message)
    (hown : j = i → (r : Nat) < c.sent.length) :
    Handles L n u i j r c (c.notify message senderId).1 := by
  have hguard : indexOfNull (c.hasSent r) ≠ none ↔ ¬ c.Ended r :=
    indexOfNull_ne_none h.fresh (h.full r)
  have hover : ¬ indexOfNull (c.hasSent r) ≠ none → Handles L n u i j r c c :=
    fun hover => Handles.of_ended h (not_not.mp fun hopen => hover (hguard.mpr hopen)) hj
  have hrounds : r = 0 ∨ r = 1 ∨ r = 2 := by fin_cases r <;> simp
  rcases hrounds with rfl | rfl | rfl
  · cases hmessage
    simp only [ProtocolChooseTrent.notify, hplace]
    split
    · rename_i hopen
      exact h.onList hL (hguard.mp hopen) hj hown
    · exact hover ‹_›
  · cases hmessage
    simp only [ProtocolChooseTrent.notify, hplace]
    split
    · exact h.onNumber hL hu hj fun hji => h.lists.mpr (hown hji)
    · exact hover ‹_›
  · cases hmessage
    simp only [ProtocolChooseTrent.notify, hplace]
    split
    · exact h.onChoice hj fun hji => h.numbers.mpr (hown hji)
    · exact hover ‹_›

end Smooth

end ProtocolChooseTrent

end Sxp
