-- SUMMARY: Choosing Trent needs everybody: no party announces a choice before all parties have started.
import Sxp.Choice.Agreement

/-!
# Consent

A party starts when its user asks for it. Its list is the first thing it sends, and its number
waits for the lists of all parties, so a choice of anybody tells that all have started. Only then
can a party come to send its list again on its own account.
-/

namespace Sxp

namespace ProtocolChooseTrent

variable {c : ProtocolChooseTrent} {started started' : Nat → Prop}

/-- What a party has sent, was sent or still has to do tells who has started; `started k` says so of
the party in place `k`. -/
structure Willing (started : Nat → Prop) (c : ProtocolChooseTrent) : Prop where
  lists : ∀ l, .list l ∈ c.sent → started c.senderKeyId
  listed : c.Fresh → ∀ k < c.N, (c.hasSent 0)[k]? = some true → started k
  numbers : ∀ n, .number n ∈ c.sent → ∀ k < c.N, started k
  choices : ∀ a, .choice a ∈ c.sent → ∀ k < c.N, started k
  sending : .sendMessage ∈ c.calls → started c.senderKeyId
  chosen : ∀ u, .chose u ∈ c.calls → ∀ k < c.N, started k

namespace Willing

theorem mono (h : Willing started c) (hle : ∀ k, started k → started' k) : Willing started' c where
  lists l hl := hle _ (h.lists l hl)
  listed hf k hk hmark := hle k (h.listed hf k hk hmark)
  numbers n hn k hk := hle k (h.numbers n hn k hk)
  choices a ha k hk := hle k (h.choices a ha k hk)
  sending hs := hle _ (h.sending hs)
  chosen u hu k hk := hle k (h.chosen u hu k hk)

/-- Nothing has to be shown once everybody has started. -/
theorem of_everyone (hplace : c.senderKeyId < c.N) (hall : ∀ k < c.N, started k) :
    Willing started c where
  lists _ _ := hall _ hplace
  listed _ k hk _ := hall k hk
  numbers _ _ := hall
  choices _ _ := hall
  sending _ := hall _ hplace
  chosen _ _ := hall

theorem create (parties users : List ElGamalKey) (key : ElGamalKey) (n : Int) :
    Willing started (create parties users key n) where
  lists _ hl := absurd hl List.not_mem_nil
  listed _ k _ hmark := by simp [ProtocolChooseTrent.create, List.getElem?_replicate] at hmark
  numbers _ hn := absurd hn List.not_mem_nil
  choices _ ha := absurd ha List.not_mem_nil
  sending hs := absurd hs List.not_mem_nil
  chosen _ hu := absurd hu List.not_mem_nil

theorem sendMessage (h : Willing started c) (hstarted : started c.senderKeyId) :
    Willing started c.sendMessage where
  lists _ _ := hstarted
  listed := h.listed
  numbers n hn := by
    rcases List.mem_append.mp hn with hold | hnew
    · exact h.numbers n hold
    · cases List.mem_singleton.mp hnew
  choices a ha := by
    rcases List.mem_append.mp ha with hold | hnew
    · exact h.choices a hold
    · cases List.mem_singleton.mp hnew
  sending _ := hstarted
  chosen u hu := by
    rcases List.mem_cons.mp hu with heq | hold
    · cases heq
    · exact h.chosen u hold

/-- Who has started can be marked. -/
theorem mark_list (h : Willing started c) {k : Nat} (hk : started k) :
    Willing started (c.mark 0 k) :=
  { h with
    listed := fun hf k' hk' hmark => by
      rw [mark_hasSent_self] at hmark
      rcases getElem?_set_true hmark with rfl | hold
      · exact hk
      · exact h.listed (fun r => (mark_length 0 r k).symm.trans (hf r)) k' hk' hold }

theorem abandon (h : Willing started c) : Willing started c.abandon :=
  { h with
    sending := fun hs => h.sending (List.mem_of_mem_tail hs)
    chosen := fun u hu => h.chosen u (List.mem_of_mem_tail hu) }

/-- A party that reaches the end of the first round has got the lists of all. -/
theorem onList (h : Willing started c) (hrows : c.Fresh ∨ ∀ r, (c.hasSent r).length = c.N)
    (hplace : c.senderKeyId < c.N) (list2 : List ElGamalKey) {j : Nat} (hj : started j) :
    Willing started (c.onList list2 j).1 := by
  have hlist : ∀ list, Willing started (c.setList list) := fun list => { h with }
  unfold ProtocolChooseTrent.onList
  split
  · exact hlist _
  · rename_i it _
    have hmarked : Willing started ((c.setList it.list).mark 0 j) := (hlist it.list).mark_list hj
    dsimp only
    split
    · rename_i hend
      have hlt := (indexOfNull_eq_some hend).1
      have hfresh : c.Fresh := hrows.resolve_right fun hshort => by
        rw [mark_length, show (c.setList it.list).hasSent 0 = c.hasSent 0 from rfl, hshort 0] at hlt
        exact absurd hlt (Nat.lt_irrefl _)
      refine of_everyone hplace fun k hk => ?_
      exact hmarked.listed (fun r => (mark_length 0 r j).trans (hfresh r)) k hk
        ((indexOfNull_eq_some hend).2 k hk)
    · exact hmarked

theorem notify (h : Willing started c) (hrows : c.Fresh ∨ ∀ r, (c.hasSent r).length = c.N)
    (hplace : c.senderKeyId < c.N) {message : ChooseMessage} {senderId : Int}
    (hlist : ∀ j l, c.parties.findIdx? (fun k => k.publicKey == senderId) = some j →
      message = .list l → started j)
    (hother : (∀ l, message ≠ .list l) → ∀ k < c.N, started k) :
    Willing started (c.notify message senderId).1 := by
  have heveryone : (∀ l, message ≠ .list l) → Willing started (c.notify message senderId).1 := by
    intro hmessage
    have hextends := Extends.notify c message senderId
    have hN : (c.notify message senderId).1.N = c.N := congrArg List.length hextends.parties
    refine of_everyone ?_ fun k hk => hother hmessage k (hN ▸ hk)
    rw [hextends.senderKeyId, hN]
    exact hplace
  cases message with
  | list list2 =>
      unfold ProtocolChooseTrent.notify
      split
      · exact h
      · rename_i j hj
        dsimp only
        split
        · exact h.onList hrows hplace list2 (hlist j list2 hj rfl)
        · exact h
  | number n => exact heveryone fun _ => nofun
  | choice a => exact heveryone fun _ => nofun

theorem resume (h : Willing started c) (hplace : c.senderKeyId < c.N) :
    Willing started c.resume := by
  unfold ProtocolChooseTrent.resume
  split
  · exact h
  · rename_i calls heq
    have hcalls : Willing started { c with calls := calls } :=
      { h with
        sending := fun _ => h.sending (heq ▸ List.mem_cons_self)
        chosen := fun u hu => h.chosen u (heq ▸ List.mem_cons_of_mem _ hu) }
    exact hcalls.mark_list (h.sending (heq ▸ List.mem_cons_self))
  · rename_i u calls heq
    have hextends := Extends.afterChoice { c with calls := calls } u
    have hN : (afterChoice { c with calls := calls } u).N = c.N :=
      congrArg List.length hextends.parties
    have hall := h.chosen u (heq ▸ List.mem_cons_self)
    refine of_everyone ?_ fun k hk => hall k (hN ▸ hk)
    rw [hextends.senderKeyId, hN]
    exact hplace

end Willing

end ProtocolChooseTrent

namespace TrentChoice

variable (S : TrentChoice) {st : ChooseState} {accepted accepted' : Nat → Prop}

/-- Some party that is found in place `k` has started; `accepted i` says so of party `i`. -/
def Started (accepted : Nat → Prop) (k : Nat) : Prop :=
  ∃ i key, S.parties[i]? = some key ∧
    (S.parties.findIdx fun k => k.publicKey == key.publicKey) = k ∧ accepted i

/-- When somebody has started in every place, no two parties share one. -/
theorem accepted_of_started (hall : ∀ k < S.parties.length, S.Started accepted k) {k : Nat}
    (hk : k < S.parties.length) : accepted k := by
  obtain ⟨j, key, hkey, hplace, haccepted⟩ := hall k hk
  obtain ⟨hj, rfl⟩ := List.getElem?_eq_some_iff.mp hkey
  -- the place of the party that is found in place `j` is also the place of party `j`
  obtain ⟨i, key', -, hplace', -⟩ := hall j hj
  have hsame : S.parties[j].publicKey = key'.publicKey :=
    beq_iff_eq.mp ((List.findIdx_eq hj).mp hplace').1
  rw [← hsame, hplace] at hplace'
  exact hplace' ▸ haccepted

/-- Every party knows of nobody who has not started. -/
def Willing (accepted : Nat → Prop) (st : ChooseState) : Prop :=
  ∀ i c, st i = some c → c.Willing (S.Started accepted)

variable {S}

theorem Willing.mono (h : S.Willing accepted st) (hle : ∀ i, accepted i → accepted' i) :
    S.Willing accepted' st := by
  intro i c hc
  refine (h i c hc).mono ?_
  rintro k ⟨j, key, hkey, hplace, hj⟩
  exact ⟨j, key, hkey, hplace, hle j hj⟩

theorem willing_party (S : TrentChoice) (accepted : Nat → Prop) : S.Willing accepted S.party := by
  intro i c hc
  obtain ⟨key, -, rfl⟩ := Option.map_eq_some_iff.mp hc
  exact ProtocolChooseTrent.Willing.create ..

theorem Placed.started {i : Nat} {c : ProtocolChooseTrent} (h : S.Placed i c) (hi : accepted i) :
    S.Started accepted c.senderKeyId :=
  ⟨i, c.key, h.key, h.place.symm, hi⟩

theorem Placed.place_lt {i : Nat} {c : ProtocolChooseTrent} (h : S.Placed i c) :
    c.senderKeyId < c.N := by
  rw [h.place, ProtocolChooseTrent.N, h.parties]
  exact List.findIdx_lt_length_of_exists ⟨c.key, List.mem_of_getElem? h.key, BEq.rfl⟩

/-- An event keeps it, when a party that starts has been accepted. -/
theorem Willing.step (h : S.Willing accepted st) (hinv : S.Invariant st) (ev : ChooseEvent)
    (hstart : ∀ i, ev = .start i → accepted i) : S.Willing accepted (TrentChoice.step st ev) := by
  have hmove : ∀ (i : Nat) (f : ProtocolChooseTrent → ProtocolChooseTrent),
      (∀ c, st i = some c → (f c).Willing (S.Started accepted)) →
        S.Willing accepted (Function.update st i ((st i).map f)) := by
    intro i f hf j d hd
    by_cases hj : j = i
    · rw [hj, Function.update_self] at hd
      obtain ⟨c, hc, rfl⟩ := Option.map_eq_some_iff.mp hd
      exact hf c hc
    · rw [Function.update_of_ne hj] at hd
      exact h j d hd
  cases ev with
  | start i =>
      exact hmove i _ fun c hc =>
        (h i c hc).sendMessage ((hinv.placed i c hc).started (hstart i rfl))
  | returns i => exact hmove i _ fun c hc => (h i c hc).resume (hinv.placed i c hc).place_lt
  | throws i => exact hmove i _ fun c hc => (h i c hc).abandon
  | deliver i j n =>
      simp only [TrentChoice.step]
      split
      · rename_i message senderId heq
        simp only [Option.bind_eq_some_iff, Option.map_eq_some_iff, Prod.mk.injEq] at heq
        obtain ⟨d, hd, message', hmessage, rfl, rfl⟩ := heq
        have hsent := List.mem_of_getElem? hmessage
        refine hmove i _ fun c hc => ?_
        have hplaced := hinv.placed i c hc
        have hplaced' := hinv.placed j d hd
        have hN : c.N = d.N := by
          rw [ProtocolChooseTrent.N, ProtocolChooseTrent.N, hplaced.parties, hplaced'.parties]
        refine (h i c hc).notify (hinv.sound i c hc).rows hplaced.place_lt
          (fun k l hk hl => ?_) fun hother => ?_
        · have hplace : k = d.senderKeyId := by
            rw [hplaced'.place, List.findIdx_eq_getD_findIdx?, ← hplaced.parties, hk]
            rfl
          rw [hplace]
          exact (h j d hd).lists l (hl ▸ hsent)
        · rw [hN]
          cases message' with
          | list l => exact absurd rfl (hother l)
          | number n => exact (h j d hd).numbers n hsent
          | choice a => exact (h j d hd).choices a hsent
      · exact h

/-- A party that has announced a choice tells that all have started. -/
theorem Willing.everyone (h : S.Willing accepted st) (hinv : S.Invariant st) {i : Nat}
    {c : ProtocolChooseTrent} (hc : st i = some c) {a : Int} (ha : .choice a ∈ c.sent) {k : Nat}
    (hk : k < S.parties.length) : accepted k := by
  refine S.accepted_of_started (fun k hk => (h i c hc).choices a ha k ?_) hk
  rwa [ProtocolChooseTrent.N, (hinv.placed i c hc).parties]

end TrentChoice

end Sxp
