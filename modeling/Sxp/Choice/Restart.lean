-- SUMMARY: One party choosing Trent, under any messages: what its rows and its sum of numbers are worth before and after a restart.
import Mathlib.Algebra.BigOperators.Group.Finset.Piecewise
import Sxp.Choice.Agreement

/-!
# Restarting the choice

A restart makes new rows that have no cell for the end of a round, and keeps the sum of the
numbers received before. Until then every row has its last cell, and the sum is the one of
the senders that are marked.
-/

namespace Sxp

/-! ## Messages as texts -/

/-- A message as it arrives; the list is null where its text cannot be read. -/
inductive ChooseText where
  | list (users : Option (List ElGamalKey))
  | number (text : String)
  | choice (text : String)
  | other
deriving Repr, DecidableEq

def ChooseMessage.toText : ChooseMessage → ChooseText
  | .list users => .list (some users)
  | .number n => .number (BigInteger.text n)
  | .choice publicKey => .choice (BigInteger.text publicKey)

namespace ProtocolChooseTrent

variable {c c' c'' : ProtocolChooseTrent}

/-- The place of a sender. -/
def place (c : ProtocolChooseTrent) (senderId : String) : Option Nat :=
  c.parties.findIdx? fun k => BigInteger.text k.publicKey == senderId

/-- A cell of the second row that is null. -/
def Unmarked (c : ProtocolChooseTrent) (j : Nat) : Prop := (c.hasSent 1)[j]? = some false

instance (c : ProtocolChooseTrent) (j : Nat) : Decidable (c.Unmarked j) :=
  inferInstanceAs (Decidable (_ = _))

/-- The handler, with the texts it reads. -/
def receive (c : ProtocolChooseTrent) (message : ChooseText) (senderId : String) :
    ProtocolChooseTrent × Except JavaException Unit :=
  match c.place senderId with
  | none => (c, .error .indexOutOfBounds)
  | some j =>
      match message with
      | .list list2 =>
          if indexOfNull (c.hasSent 0) ≠ none then
            match list2 with
            | some list2 => c.onList list2 j
            -- the inner loop is not entered where nobody is to be looked up
            | none => if c.list.isEmpty then c.onList [] j else (c, .error .nullPointer)
          else (c, .ok ())
      | .number text =>
          if indexOfNull (c.hasSent 1) ≠ none then
            if c.Unmarked j then
              match BigInteger.ofText text with
              | .error x => (c, .error x)
              | .ok n => c.onNumber n j
            else c.onNumber 0 j
          else (c, .ok ())
      | .choice text =>
          if indexOfNull (c.hasSent 2) ≠ none then
            match c.trentKey with
            | none =>
                match BigInteger.ofText text with
                | .error x => (c, .error x)
                | .ok publicKey => (c.onChoice publicKey j, .ok ())
            | some key =>
                if text = BigInteger.text key.publicKey then (c.onChoice key.publicKey j, .ok ())
                else (c.restart, .ok ())
          else (c, .ok ())
      | .other => (c, .ok ())

theorem place_text (c : ProtocolChooseTrent) (senderId : Int) :
    c.place (BigInteger.text senderId) = c.parties.findIdx? fun k => k.publicKey == senderId := by
  have hsame : ∀ k : ElGamalKey, (BigInteger.text k.publicKey == BigInteger.text senderId) =
      (k.publicKey == senderId) := by
    intro k
    rw [Bool.eq_iff_iff, beq_iff_eq, beq_iff_eq]
    exact BigInteger.text_injective.eq_iff
  simp only [place, hsame]

/-- Messages of the parties are handled as their contents are. -/
theorem receive_toText (c : ProtocolChooseTrent) (message : ChooseMessage) (senderId : Int) :
    c.receive message.toText (BigInteger.text senderId) = c.notify message senderId := by
  rw [receive, notify, place_text]
  cases c.parties.findIdx? fun k => k.publicKey == senderId with
  | none => rfl
  | some j =>
      cases message with
      | list users => rfl
      | number n =>
          simp only [ChooseMessage.toText, BigInteger.ofText_text]
          by_cases hnull : c.Unmarked j
          · simp only [hnull, if_true]
          · have hadd : ∀ n, c.addNumber n j = c := fun n => if_neg hnull
            simp only [hnull, if_false, onNumber, hadd]
      | choice publicKey =>
          simp only [ChooseMessage.toText, BigInteger.ofText_text]
          cases htrent : c.trentKey with
          | none => rfl
          | some key =>
              by_cases hsame : publicKey = key.publicKey
              · simp only [hsame, if_true]
              · have htext : BigInteger.text publicKey ≠ BigInteger.text key.publicKey :=
                  fun h => hsame (BigInteger.text_injective h)
                simp only [htext, if_false, onChoice, htrent, hsame]

theorem place_lt {senderId : String} {j : Nat} (h : c.place senderId = some j) : j < c.N :=
  (List.findIdx?_eq_some_iff_getElem.mp h).1

/-! ## Changes that leave the sum alone -/

/-- Nothing is added, and of the parties' numbers only the own one may become marked. -/
structure Steady (c c' : ProtocolChooseTrent) : Prop where
  parties : c'.parties = c.parties
  randomNumber : c'.randomNumber = c.randomNumber
  finalNumber : c'.finalNumber = c.finalNumber
  senderKeyId : c'.senderKeyId = c.senderKeyId
  lengths : ∀ r, (c'.hasSent r).length = (c.hasSent r).length
  kept : ∀ k : Nat, (c.hasSent 1)[k]? = some true → (c'.hasSent 1)[k]? = some true
  marked : ∀ k < c.N, (c'.hasSent 1)[k]? = some true →
    (c.hasSent 1)[k]? = some true ∨ k = c.senderKeyId

namespace Steady

theorem refl (c : ProtocolChooseTrent) : Steady c c :=
  ⟨rfl, rfl, rfl, rfl, fun _ => rfl, fun _ => id, fun _ _ => Or.inl⟩

theorem trans (h : Steady c c') (h' : Steady c' c'') : Steady c c'' where
  parties := h'.parties.trans h.parties
  randomNumber := h'.randomNumber.trans h.randomNumber
  finalNumber := h'.finalNumber.trans h.finalNumber
  senderKeyId := h'.senderKeyId.trans h.senderKeyId
  lengths r := (h'.lengths r).trans (h.lengths r)
  kept k := h'.kept k ∘ h.kept k
  marked k hk hmark := by
    have hN : c'.N = c.N := congrArg List.length h.parties
    rcases h'.marked k (hN ▸ hk) hmark with hold | hown
    · exact h.marked k hk hold
    · exact Or.inr (hown.trans h.senderKeyId)

theorem mark (c : ProtocolChooseTrent) {r : Fin 3} {k : Nat}
    (h : r = 1 → k = c.senderKeyId ∨ k = c.N) : Steady c (c.mark r k) where
  parties := rfl
  randomNumber := rfl
  finalNumber := rfl
  senderKeyId := rfl
  lengths r' := mark_length r r' k
  kept k' hk' := by
    by_cases hr : r = 1
    · subst hr
      rw [mark_hasSent_self]
      by_cases hkk : k = k'
      · rw [← hkk] at hk' ⊢
        rw [List.getElem?_set_self (List.getElem?_eq_some_iff.mp hk').1]
      · rwa [List.getElem?_set_ne hkk]
    · rwa [mark_hasSent_of_ne k (Ne.symm hr)]
  marked k' hlt hk' := by
    by_cases hr : r = 1
    · subst hr
      rw [mark_hasSent_self] at hk'
      rcases getElem?_set_true hk' with rfl | hold
      · rcases h rfl with hown | hend
        · exact Or.inr hown
        · exact absurd hend (Nat.ne_of_lt hlt)
      · exact Or.inl hold
    · rw [mark_hasSent_of_ne k (Ne.symm hr)] at hk'
      exact Or.inl hk'

/-- Changes of the other fields. -/
theorem of_eq (hparties : c'.parties = c.parties) (hrandom : c'.randomNumber = c.randomNumber)
    (hfinal : c'.finalNumber = c.finalNumber) (hplace : c'.senderKeyId = c.senderKeyId)
    (hrows : c'.hasSent = c.hasSent) : Steady c c' where
  parties := hparties
  randomNumber := hrandom
  finalNumber := hfinal
  senderKeyId := hplace
  lengths r := by rw [hrows]
  kept k h := by rwa [hrows]
  marked k _ h := by
    rw [hrows] at h
    exact Or.inl h

end Steady

theorem sendMessage_steady (c : ProtocolChooseTrent) : Steady c c.sendMessage :=
  Steady.of_eq rfl rfl rfl rfl rfl

theorem endOfLists_steady (c : ProtocolChooseTrent) : Steady c c.endOfLists := by
  have hended : Steady c (c.mark 0 c.N) := Steady.mark c fun h => absurd h (by decide)
  refine hended.trans ?_
  refine (Steady.of_eq rfl rfl rfl rfl rfl : Steady (c.mark 0 c.N)
    ((c.mark 0 c.N).setList _)).trans ?_
  exact (Steady.mark _ fun _ => Or.inl rfl).trans (Steady.of_eq rfl rfl rfl rfl rfl)

theorem onList_steady (c : ProtocolChooseTrent) (list2 : List ElGamalKey) (j : Nat) :
    Steady c (c.onList list2 j).1 := by
  have hlist : ∀ list, Steady c (c.setList list) := fun list =>
    Steady.of_eq rfl rfl rfl rfl rfl
  unfold onList
  split
  · exact hlist _
  · rename_i it heq
    have hmarked : Steady c ((c.setList it.list).mark 0 j) :=
      (hlist it.list).trans (Steady.mark _ fun h => absurd h (by decide))
    dsimp only
    split
    · exact hmarked.trans (endOfLists_steady _)
    · exact hmarked

theorem choose_steady (c : ProtocolChooseTrent) (u : ElGamalKey) : Steady c (c.choose u) := by
  unfold choose
  dsimp only
  split <;> exact Steady.of_eq rfl rfl rfl rfl rfl

/-- What is left of the handler of numbers once the number is added. -/
theorem onNumber_steady (c : ProtocolChooseTrent) (n : Int) (j : Nat) :
    Steady (c.addNumber n j) (c.onNumber n j).1 := by
  unfold onNumber
  dsimp only
  split
  · have hmarked := Steady.mark (c.addNumber n j) (r := 1) fun _ => Or.inr rfl
    split
    · exact hmarked
    · split
      · exact hmarked
      · exact hmarked.trans (choose_steady _ _)
  · exact Steady.refl _

theorem mark_choice_steady (c : ProtocolChooseTrent) (k : Nat) : Steady c (c.mark 2 k) :=
  Steady.mark c fun h => absurd h (by decide)

/-! ## Events -/

/-- What can happen to a party. -/
inductive PartyEvent where
  | start
  | message (message : ChooseText) (senderId : String)
  | returns
  | throws
deriving Repr, DecidableEq

/-- The choices differ, so that the event restarts the party: another choice than its Trent's
key arrives, or it had another Trent when it chose. -/
def Disagrees (c : ProtocolChooseTrent) : PartyEvent → Prop
  | .message (.choice text) senderId =>
      c.place senderId ≠ none ∧ indexOfNull (c.hasSent 2) ≠ none ∧
        ∃ key, c.trentKey = some key ∧ text ≠ BigInteger.text key.publicKey
  | .returns => ∃ u calls key, c.calls = .chose u :: calls ∧ c.trentKey = some key ∧
      key.publicKey ≠ u.publicKey
  | _ => False

/-- The effect of an event. -/
def handle (c : ProtocolChooseTrent) : PartyEvent → ProtocolChooseTrent
  | .start => c.sendMessage
  | .message message senderId => (c.receive message senderId).1
  | .returns => c.resume
  | .throws => c.abandon

/-- The number that is taken from the party in place `j`. -/
def takes (c : ProtocolChooseTrent) (ev : PartyEvent) (j : Nat) : Option Int :=
  match ev with
  | .message (.number text) senderId =>
      if c.place senderId = some j ∧ c.Unmarked j then (BigInteger.ofText text).toOption else none
  | _ => none

theorem takes_eq_some {message : ChooseText} {senderId : String} {j : Nat} {n : Int} :
    c.takes (.message message senderId) j = some n ↔ ∃ text, message = .number text ∧
      c.place senderId = some j ∧ c.Unmarked j ∧ BigInteger.ofText text = .ok n := by
  cases message with
  | number text =>
      cases hread : BigInteger.ofText text <;>
        simp [takes, hread, Except.toOption, and_assoc]
  | list users => simp [takes]
  | choice text => simp [takes]
  | other => simp [takes]

/-- The end of a broadcast, unless it restarts the party. -/
theorem resume_steady (h : ¬ c.Disagrees .returns) : Steady c c.resume := by
  have hcalls : ∀ calls, Steady c { c with calls := calls } := fun calls =>
    Steady.of_eq rfl rfl rfl rfl rfl
  unfold resume
  split
  · exact Steady.refl c
  · exact (hcalls _).trans (Steady.mark _ fun h => absurd h (by decide))
  · rename_i u calls heq
    have hmarked := (hcalls calls).trans (mark_choice_steady _ c.senderKeyId)
    unfold afterChoice
    dsimp only
    split
    · rename_i key hkey
      rw [if_neg fun hne => h ⟨u, calls, key, heq, hkey, hne⟩]
      exact hmarked
    · exact hmarked

/-- A choice that agrees with the party's Trent, if it has one. -/
theorem onChoice_steady {publicKey : Int} (j : Nat)
    (h : ∀ key, c.trentKey = some key → publicKey = key.publicKey) :
    Steady c (c.onChoice publicKey j) := by
  unfold onChoice
  split
  · have htrent : ∀ key, Steady c (c.setTrent key) := fun _ => Steady.of_eq rfl rfl rfl rfl rfl
    exact (htrent _).trans (mark_choice_steady _ j)
  · rename_i key hkey
    rw [if_pos (h key hkey)]
    dsimp only
    split
    · have hended := (mark_choice_steady c j).trans (mark_choice_steady _ (c.mark 2 j).N)
      exact hended.trans (Steady.of_eq rfl rfl rfl rfl rfl)
    · exact mark_choice_steady c j

/-- A message that neither restarts the party nor brings a number. -/
theorem receive_steady {message : ChooseText} {senderId : String}
    (h : ¬ c.Disagrees (.message message senderId))
    (hnone : ∀ j, c.takes (.message message senderId) j = none) :
    Steady c (c.receive message senderId).1 := by
  unfold receive
  split
  · exact Steady.refl c
  · rename_i j hj
    cases message with
    | list list2 =>
        dsimp only
        split
        · split
          · exact onList_steady c _ j
          · split
            · exact onList_steady c [] j
            · exact Steady.refl c
        · exact Steady.refl c
    | number text =>
        dsimp only
        split
        · split
          · rename_i hnull
            cases hread : BigInteger.ofText text with
            | error x => exact Steady.refl c
            | ok n =>
                have hsome := hnone j
                simp [takes, hj, hnull, hread, Except.toOption] at hsome
          · rename_i hnull
            have hadd : c.addNumber 0 j = c := if_neg hnull
            have hsteady := onNumber_steady c 0 j
            rwa [hadd] at hsteady
        · exact Steady.refl c
    | choice text =>
        dsimp only
        split
        · rename_i hnull
          split
          · rename_i htrent
            split
            · exact Steady.refl c
            · exact onChoice_steady j fun key hkey => by
                rw [htrent] at hkey
                cases hkey
          · rename_i key hkey
            split
            · exact onChoice_steady j fun key' hkey' => by
                rw [hkey, Option.some.injEq] at hkey'
                rw [hkey']
            · rename_i hne
              exact absurd ⟨by rw [hj]; exact Option.some_ne_none j, hnull, key, hkey, hne⟩ h
        · exact Steady.refl c
    | other => exact Steady.refl c

end ProtocolChooseTrent

/-! ## The sum of the numbers -/

/-- A party with the number last taken from each place. -/
structure Tally where
  party : ProtocolChooseTrent
  received : Nat → Option Int

namespace Tally

open ProtocolChooseTrent

/-- The number of a place that is marked in the second row. -/
def counted (t : Tally) (k : Nat) : Int :=
  if (t.party.hasSent 1)[k]? = some true then (t.received k).getD 0 else 0

structure Usable (t : Tally) : Prop where
  rows : ∀ r, (t.party.hasSent r).length = t.party.N + 1
  sum : t.party.finalNumber = t.party.randomNumber + ∑ k ∈ Finset.range t.party.N, t.counted k

def step (t : Tally) (ev : PartyEvent) : Tally where
  party := t.party.handle ev
  received j := (t.party.takes ev j).or (t.received j)

/-- The life of a party that starts with the given data. -/
def tallying (parties users : List ElGamalKey) (key : ElGamalKey) (n : Int) :
    Machine Tally PartyEvent Unit where
  init := { party := create parties users key n, received := fun _ => none }
  step t ev := (t.step ev, ())

/-- The invariant before the first restart: only numbers of marked places were received. -/
structure Sound (t : Tally) : Prop extends Usable t where
  heard : ∀ k < t.party.N, t.received k ≠ none → (t.party.hasSent 1)[k]? = some true

namespace Sound

variable {t : Tally} {c : ProtocolChooseTrent}

theorem init (parties users : List ElGamalKey) (key : ElGamalKey) (n : Int) :
    (tallying parties users key n).init.Sound where
  rows r := List.length_replicate
  sum := by
    have hnone : ∀ k, (tallying parties users key n).init.counted k = 0 := fun k => ite_self _
    rw [Finset.sum_eq_zero fun k _ => hnone k]
    exact (Int.add_zero n).symm
  heard k _ h := absurd rfl h

theorem steady (h : t.Sound) (hsteady : Steady t.party c) : Sound { t with party := c } := by
  have hN : c.N = t.party.N := congrArg List.length hsteady.parties
  constructor
  · constructor
    · intro r
      rw [hN, ← h.rows r]
      exact hsteady.lengths r
    · have hcounted : ∀ k ∈ Finset.range t.party.N, counted { t with party := c } k =
          t.counted k := by
        intro k hk
        have hlt := Finset.mem_range.mp hk
        by_cases hold : (t.party.hasSent 1)[k]? = some true
        · simp [counted, hold, hsteady.kept k hold]
        · -- a place that only becomes marked is the own one, and no number was taken from it
          have hnone : t.received k = none := by
            by_contra hsome
            exact hold (h.heard k hlt hsome)
          simp [counted, hold, hnone]
      rw [hsteady.finalNumber, hsteady.randomNumber, hN, Finset.sum_congr rfl hcounted]
      exact h.sum
  · intro k hk hsome
    exact hsteady.kept k (h.heard k (hN ▸ hk) hsome)

/-- A number that was not received before is added, and its sender is marked. -/
theorem addNumber (h : t.Sound) {j : Nat} (hj : j < t.party.N)
    (hnull : t.party.Unmarked j) (n : Int) :
    Sound { party := t.party.addNumber n j,
            received := Function.update t.received j (some n) } := by
  have hadd : t.party.addNumber n j =
      { t.party with finalNumber := t.party.finalNumber + n }.mark 1 j := if_pos hnull
  have hlt : j < (t.party.hasSent 1).length := (List.getElem?_eq_some_iff.mp hnull).1
  have hrow : ∀ k : Nat, k ≠ j →
      ((t.party.addNumber n j).hasSent 1)[k]? = (t.party.hasSent 1)[k]? := by
    intro k hk
    rw [hadd, mark_hasSent_self, List.getElem?_set_ne hk.symm]
  have hself : ((t.party.addNumber n j).hasSent 1)[j]? = some true := by
    rw [hadd, mark_hasSent_self, List.getElem?_set_self hlt]
  constructor
  · constructor
    · intro r
      simp only [hadd, mark_length, mark_N]
      exact h.rows r
    · have hmem : j ∈ Finset.range t.party.N := Finset.mem_range.mpr hj
      have hcounted : counted
          { party := t.party.addNumber n j, received := Function.update t.received j (some n) } =
            Function.update t.counted j n := by
        funext k
        by_cases hk : k = j
        · subst hk
          simp [counted, hself]
        · simp [counted, hrow k hk, Function.update_of_ne hk]
      have hzero : t.counted j = 0 := by
        rw [ProtocolChooseTrent.Unmarked] at hnull
        simp [counted, hnull]
      calc (t.party.addNumber n j).finalNumber
          = t.party.finalNumber + n := by rw [hadd]; rfl
        _ = t.party.randomNumber + ∑ k ∈ Finset.range t.party.N, t.counted k + n := by rw [h.sum]
        _ = t.party.randomNumber +
              ∑ k ∈ Finset.range t.party.N, Function.update t.counted j n k := by
            rw [Finset.sum_update_of_mem hmem, ← Finset.add_sum_erase _ _ hmem, hzero,
              Finset.sdiff_singleton_eq_erase]
            ring
        _ = _ := by
            rw [hcounted, hadd]
            rfl
  · intro k hk hsome
    by_cases hkj : k = j
    · rw [hkj]
      exact hself
    · rw [hrow k hkj]
      have hN : (t.party.addNumber n j).N = t.party.N := by
        rw [hadd]
        rfl
      refine h.heard k (hN ▸ hk) ?_
      rwa [← Function.update_of_ne hkj (some n) t.received]

/-- Without a disagreement the invariant is kept. -/
theorem step (h : t.Sound) {ev : PartyEvent} (hagree : ¬ t.party.Disagrees ev) :
    (t.step ev).Sound := by
  have hquiet : (∀ j, t.party.takes ev j = none) → Steady t.party (t.party.handle ev) →
      (t.step ev).Sound := by
    intro hnone hsteady
    have hreceived : (fun j => (t.party.takes ev j).or (t.received j)) = t.received := by
      funext j
      rw [hnone j, Option.none_or]
    rw [Tally.step, hreceived]
    exact h.steady hsteady
  cases ev with
  | start => exact hquiet (fun _ => rfl) (sendMessage_steady _)
  | throws => exact hquiet (fun _ => rfl) (Steady.of_eq rfl rfl rfl rfl rfl)
  | returns => exact hquiet (fun _ => rfl) (resume_steady hagree)
  | message message senderId =>
      by_cases hnone : ∀ j, t.party.takes (.message message senderId) j = none
      · exact hquiet hnone (receive_steady hagree hnone)
      · -- a number is added before the rest of the handler runs
        obtain ⟨j, hsome⟩ := not_forall.mp hnone
        obtain ⟨n, hn⟩ := Option.ne_none_iff_exists'.mp hsome
        obtain ⟨text, rfl, hplace, hnull, hread⟩ := takes_eq_some.mp hn
        have hadded := (h.addNumber (place_lt hplace) hnull n).steady (onNumber_steady t.party n j)
        have hreceived : (fun k => (t.party.takes (.message (.number text) senderId) k).or
            (t.received k)) = Function.update t.received j (some n) := by
          funext k
          by_cases hk : k = j
          · rw [hk, hn, Function.update_self]
            rfl
          · have hother : t.party.takes (.message (.number text) senderId) k = none := by
              rw [takes, if_neg]
              rintro ⟨hk', -⟩
              rw [hplace, Option.some.injEq] at hk'
              exact hk hk'.symm
            rw [hother, Function.update_of_ne hk, Option.none_or]
        have hhandle : t.party.handle (.message (.number text) senderId) =
            (t.party.onNumber n j).1 := by
          have hrow : indexOfNull (t.party.hasSent 1) ≠ none := by
            intro hfull
            have htrue := indexOfNull_eq_none.mp hfull j (List.getElem?_eq_some_iff.mp hnull).1
            rw [hnull] at htrue
            cases htrue
          simp only [handle, receive, hplace, hread, hrow, ne_eq, not_false_eq_true, if_true, hnull]
        rw [Tally.step, hreceived, hhandle]
        exact hadded

end Sound

/-! ## After a restart -/

/-- No row has a cell for the end of a round, and the signing step is not there yet. -/
structure Stuck (c : ProtocolChooseTrent) : Prop where
  rows : ∀ r, (c.hasSent r).length = c.N
  signing : c.signing = false

namespace Stuck

variable {c c' : ProtocolChooseTrent}

theorem quiet (h : Stuck c) (hq : Quiet c c') : Stuck c' where
  rows r := by
    rw [hq.lengths, h.rows, N, N, hq.parties]
  signing := hq.signing_eq.trans h.signing

theorem not_last (h : Stuck c) (r : Fin 3) : indexOfNull (c.hasSent r) ≠ some c.N := by
  intro hlast
  have hlt := (indexOfNull_eq_some hlast).1
  rw [h.rows] at hlt
  exact Nat.lt_irrefl _ hlt

theorem mark (h : Stuck c) (r : Fin 3) (k : Nat) : Stuck (c.mark r k) where
  rows r' := by
    rw [mark_length]
    exact h.rows r'
  signing := h.signing

theorem restart (h : c.signing = false) : Stuck c.restart where
  rows _ := List.length_replicate
  signing := h

theorem afterChoice (h : Stuck c) (u : ElGamalKey) : Stuck (c.afterChoice u) := by
  unfold ProtocolChooseTrent.afterChoice
  dsimp only
  split
  · split
    · exact restart h.signing
    · exact h.mark 2 _
  · exact h.mark 2 _

theorem onNumber (h : Stuck c) (n : Int) (j : Nat) : Stuck (c.onNumber n j).1 := by
  have hadded := h.quiet (addNumber_quiet c n j)
  unfold ProtocolChooseTrent.onNumber
  dsimp only
  rw [if_neg (hadded.not_last 1)]
  exact hadded

theorem onChoice (h : Stuck c) (publicKey : Int) (j : Nat) : Stuck (c.onChoice publicKey j) := by
  unfold ProtocolChooseTrent.onChoice
  split
  · have htrent : ∀ key, Stuck (c.setTrent key) := fun _ => ⟨h.rows, h.signing⟩
    exact (htrent _).mark 2 j
  · split
    · dsimp only
      rw [if_neg ((h.mark 2 j).not_last 2)]
      exact h.mark 2 j
    · exact restart h.signing

theorem receive (h : Stuck c) (message : ChooseText) (senderId : String) :
    Stuck (c.receive message senderId).1 := by
  unfold ProtocolChooseTrent.receive
  split
  · exact h
  · rename_i j hj
    cases message with
    | list list2 =>
        dsimp only
        split
        · split
          · exact h.quiet (onList_quiet c _ j)
          · split
            · exact h.quiet (onList_quiet c [] j)
            · exact h
        · exact h
    | number text =>
        dsimp only
        split
        · split
          · split
            · exact h
            · exact h.onNumber _ j
          · exact h.onNumber 0 j
        · exact h
    | choice text =>
        dsimp only
        split
        · split
          · split
            · exact h
            · exact h.onChoice _ j
          · split
            · exact h.onChoice _ j
            · exact restart h.signing
        · exact h
    | other => exact h

theorem handle (h : Stuck c) (ev : PartyEvent) : Stuck (c.handle ev) := by
  cases ev with
  | start => exact h.quiet (sendMessage_quiet c)
  | message message senderId => exact h.receive message senderId
  | throws => exact h.quiet (abandon_quiet c)
  | returns =>
      have hcalls : ∀ calls, Stuck { c with calls := calls } := fun _ => ⟨h.rows, h.signing⟩
      change Stuck c.resume
      unfold resume
      split
      · exact h
      · exact (hcalls _).mark 0 _
      · exact (hcalls _).afterChoice _

end Stuck

/-- A disagreement restarts the party. -/
theorem handle_of_disagrees {c : ProtocolChooseTrent} {ev : PartyEvent} (h : c.Disagrees ev) :
    ∀ r, ((c.handle ev).hasSent r).length = (c.handle ev).N := by
  have hrestart : ∀ (c : ProtocolChooseTrent) r, (c.restart.hasSent r).length = c.restart.N :=
    fun c r => List.length_replicate
  cases ev with
  | start => exact h.elim
  | throws => exact h.elim
  | returns =>
      obtain ⟨u, calls, key, hcalls, hkey, hne⟩ := h
      have hafter : c.handle .returns =
          (({ c with calls := calls }).mark 2 c.senderKeyId).restart := by
        simp only [ProtocolChooseTrent.handle, resume, hcalls, ProtocolChooseTrent.afterChoice]
        have hkey' : (({ c with calls := calls }).mark 2 c.senderKeyId).trentKey = some key := hkey
        simp only [hkey', if_pos hne]
      rw [hafter]
      exact hrestart _
  | message message senderId =>
      cases message with
      | choice text =>
          obtain ⟨hplace, hnull, key, hkey, hne⟩ := h
          obtain ⟨j, hj⟩ := Option.ne_none_iff_exists'.mp hplace
          have hafter : c.handle (.message (.choice text) senderId) = c.restart := by
            simp only [ProtocolChooseTrent.handle, ProtocolChooseTrent.receive, hj, hkey,
              hne, if_false, hnull, ne_eq, not_false_eq_true, if_true]
          rw [hafter]
          exact hrestart c
      | list users => exact h.elim
      | number text => exact h.elim
      | other => exact h.elim

/-- From a state with rows as a restart makes them the signing step is never reached. -/
theorem restarted_stuck {parties users : List ElGamalKey} {key : ElGamalKey} {n : Int} {t : Tally}
    (h : Stuck t.party) (events : List PartyEvent) :
    ((tallying parties users key n).exec t events).party.signing = false :=
  ((tallying parties users key n).exec_preserves (P := fun t : Tally => Stuck t.party)
    (fun _ ev h => h.handle ev) h events).signing

/-! ## Usable states -/

/-- The step leads to a usable state, and to one from which the signing step can be reached if
it restarts the party. -/
def Restores (m : Machine Tally PartyEvent Unit) (t : Tally) (ev : PartyEvent) : Prop :=
  (m.next t ev).Usable ∧ (t.party.Disagrees ev →
    ∃ more, (m.exec (m.next t ev) more).party.signing = true)

/-- All states of a run are usable exactly if no event of it restarts the party. -/
theorem usable_iff (parties users : List ElGamalKey) (key : ElGamalKey) (n : Int)
    (events : List PartyEvent) :
    let m := tallying parties users key n
    (∀ s ∈ m.trace m.init events, Restores m s.1 s.2) ↔
      ∀ s ∈ m.trace m.init events, ¬ s.1.party.Disagrees s.2 := by
  have hiff : ∀ (t : Tally) ev, t.Sound →
      (Restores (tallying parties users key n) t ev ↔ ¬ t.party.Disagrees ev) := by
    intro t ev h
    constructor
    · intro hrestores hdisagrees
      have hlong := hrestores.1.rows 0
      have hshort : ((t.party.handle ev).hasSent 0).length = (t.party.handle ev).N :=
        handle_of_disagrees hdisagrees 0
      exact Nat.succ_ne_self _ (hlong.symm.trans hshort)
    · exact fun hagree => ⟨(h.step hagree).toUsable, fun hdisagrees => absurd hdisagrees hagree⟩
  exact (tallying parties users key n).trace_forall_iff hiff
    (fun t ev h hrestores => h.step ((hiff t ev h).mp hrestores)) (Sound.init parties users key n)
    events

end Tally

namespace Sample

/-- Bob announces two choices, and his number comes before and after. -/
def disagreeingRun : List ProtocolChooseTrent.PartyEvent :=
  [.message (.number "6") "20", .message (.choice "7") "20", .message (.choice "4") "20",
    .message (.number "6") "20"]

end Sample

/-- The rows have no last cell, Bob's number is counted twice, and nothing leads on to signing. -/
theorem Tally.restart_unusable :
    let m := Tally.tallying [Sample.user 10, Sample.user 20] [Sample.user 7,
      Sample.user 4] (Sample.user 10) 5
    (m.exec m.init Sample.disagreeingRun).party.finalNumber = 17 ∧
      (∀ more, (m.exec (m.exec m.init Sample.disagreeingRun) more).party.signing = false) ∧
      ¬ ∀ s ∈ m.trace m.init Sample.disagreeingRun, Tally.Restores m s.1 s.2 := by
  intro m
  have hstuck : Tally.Stuck (m.exec m.init Sample.disagreeingRun).party :=
    ⟨by decide +kernel, by decide +kernel⟩
  refine ⟨by decide +kernel, fun more => Tally.restarted_stuck hstuck more, fun hall => ?_⟩
  have hrestores := hall (m.exec m.init (Sample.disagreeingRun.take 2), .message (.choice "4") "20")
    (List.mem_cons_of_mem _ (List.mem_cons_of_mem _ List.mem_cons_self))
  exact absurd (hrestores.1.rows 0) (by decide +kernel)

end Sxp
