-- SUMMARY: What a party choosing Trent keeps: it announces one choice at most, and its marks stand for choices of others.
import Sxp.Choice.ChooseTrent

/-!
# Announcements

The rows of a party have a cell for the end of a round only until its first restart. Without
that cell no round ends, so a party announces its choice once, and goes on only if it never
restarted. Until then its Trent, once there is one, is the choice of everybody it has marked.
-/

namespace Sxp

namespace ChooseMessage

def choice? : ChooseMessage → Option Int
  | .choice publicKey => some publicKey
  | _ => none

end ChooseMessage

namespace ProtocolChooseTrent

variable {c c' c'' : ProtocolChooseTrent}

/-- The first choice that was broadcast. -/
def announced (c : ProtocolChooseTrent) : Option Int := c.sent.findSome? ChooseMessage.choice?

/-- The public key of Trent, once `nextStep` was called. -/
def decided (c : ProtocolChooseTrent) : Option Int :=
  if c.signing then c.trentKey.map (·.publicKey) else none

/-- The rows still have their last cell. -/
def Fresh (c : ProtocolChooseTrent) : Prop := ∀ r, (c.hasSent r).length = c.N + 1

@[simp] theorem mark_N (r : Fin 3) (k : Nat) : (c.mark r k).N = c.N := rfl

theorem mark_hasSent_of_ne {r r' : Fin 3} (k : Nat) (h : r' ≠ r) :
    (c.mark r k).hasSent r' = c.hasSent r' :=
  Function.update_of_ne h _ _

@[simp] theorem mark_hasSent_self (r : Fin 3) (k : Nat) :
    (c.mark r k).hasSent r = (c.hasSent r).set k true :=
  Function.update_self _ _ _

@[simp] theorem mark_length (r r' : Fin 3) (k : Nat) :
    ((c.mark r k).hasSent r').length = (c.hasSent r').length := by
  by_cases h : r' = r
  · rw [h, mark_hasSent_self, List.length_set]
  · rw [mark_hasSent_of_ne k h]

/-! ## What no step undoes -/

structure Extends (c c' : ProtocolChooseTrent) : Prop where
  parties : c'.parties = c.parties
  key : c'.key = c.key
  senderKeyId : c'.senderKeyId = c.senderKeyId
  sent : c.sent <+: c'.sent
  signing : c.signing = true → c'.signing = true

namespace Extends

theorem refl (c : ProtocolChooseTrent) : Extends c c := ⟨rfl, rfl, rfl, List.prefix_rfl, id⟩

theorem trans (h : Extends c c') (h' : Extends c' c'') : Extends c c'' where
  parties := h'.parties.trans h.parties
  key := h'.key.trans h.key
  senderKeyId := h'.senderKeyId.trans h.senderKeyId
  sent := h.sent.trans h'.sent
  signing := h'.signing ∘ h.signing

theorem announced (h : Extends c c') {a : Int} (ha : c.announced = some a) :
    c'.announced = some a := by
  obtain ⟨new, hnew⟩ := h.sent
  rw [ProtocolChooseTrent.announced, ← hnew, List.findSome?_append]
  rw [ProtocolChooseTrent.announced] at ha
  rw [ha, Option.some_or]

end Extends

/-- A change that concerns neither choices nor their marks. -/
structure Quiet (c c' : ProtocolChooseTrent) : Prop extends Extends c c' where
  list : c'.list ⊆ c.list
  choices : ∀ a, .choice a ∈ c'.sent → .choice a ∈ c.sent
  announced_eq : c'.announced = c.announced
  lengths : ∀ r, (c'.hasSent r).length = (c.hasSent r).length
  numbers : indexOfNull (c.hasSent 1) = none → indexOfNull (c'.hasSent 1) = none
  marks : c'.hasSent 2 = c.hasSent 2
  trentKey : c'.trentKey = c.trentKey
  calls : ∀ u, .chose u ∈ c'.calls → .chose u ∈ c.calls
  signing_eq : c'.signing = c.signing

namespace Quiet

theorem refl (c : ProtocolChooseTrent) : Quiet c c where
  toExtends := Extends.refl c
  list := List.Subset.refl _
  choices _ := id
  announced_eq := rfl
  lengths _ := rfl
  numbers := id
  marks := rfl
  trentKey := rfl
  calls _ := id
  signing_eq := rfl

theorem trans (h : Quiet c c') (h' : Quiet c' c'') : Quiet c c'' where
  toExtends := h.toExtends.trans h'.toExtends
  list := List.Subset.trans h'.list h.list
  choices a := h.choices a ∘ h'.choices a
  announced_eq := h'.announced_eq.trans h.announced_eq
  lengths r := (h'.lengths r).trans (h.lengths r)
  numbers := h'.numbers ∘ h.numbers
  marks := h'.marks.trans h.marks
  trentKey := h'.trentKey.trans h.trentKey
  calls u := h.calls u ∘ h'.calls u
  signing_eq := h'.signing_eq.trans h.signing_eq

theorem mark (c : ProtocolChooseTrent) {r : Fin 3} (k : Nat) (hr : r ≠ 2) :
    Quiet c (c.mark r k) where
  toExtends := ⟨rfl, rfl, rfl, List.prefix_rfl, id⟩
  list := List.Subset.refl _
  choices _ := id
  announced_eq := rfl
  lengths r' := mark_length r r' k
  numbers h := by
    by_cases hr1 : r = 1
    · rw [hr1, mark_hasSent_self]
      exact indexOfNull_set h k
    · rwa [mark_hasSent_of_ne k (Ne.symm hr1)]
  marks := mark_hasSent_of_ne k hr.symm
  trentKey := rfl
  calls _ := id
  signing_eq := rfl

theorem send (c : ProtocolChooseTrent) {message : ChooseMessage} (h : message.choice? = none) :
    Quiet c (c.send message) where
  toExtends := ⟨rfl, rfl, rfl, List.prefix_append _ _, id⟩
  list := List.Subset.refl _
  choices a ha := by
    rcases List.mem_append.mp ha with hold | hnew
    · exact hold
    · rw [← List.mem_singleton.mp hnew] at h
      cases h
  announced_eq := by simp [announced, ProtocolChooseTrent.send, h]
  lengths _ := rfl
  numbers := id
  marks := rfl
  trentKey := rfl
  calls _ := id
  signing_eq := rfl

theorem setList (c : ProtocolChooseTrent) {list : List ElGamalKey} (h : list ⊆ c.list) :
    Quiet c (c.setList list) :=
  { refl c with toExtends := ⟨rfl, rfl, rfl, List.prefix_rfl, id⟩, list := h }

theorem finalNumber (c : ProtocolChooseTrent) (n : Int) : Quiet c { c with finalNumber := n } :=
  { refl c with toExtends := ⟨rfl, rfl, rfl, List.prefix_rfl, id⟩ }

theorem calls_of (c : ProtocolChooseTrent) {calls : List ChooseCall}
    (h : ∀ u, .chose u ∈ calls → .chose u ∈ c.calls) : Quiet c { c with calls := calls } :=
  { refl c with toExtends := ⟨rfl, rfl, rfl, List.prefix_rfl, id⟩, calls := h }

end Quiet

theorem sendMessage_quiet (c : ProtocolChooseTrent) : Quiet c c.sendMessage := by
  refine (Quiet.send c rfl).trans (Quiet.calls_of _ fun u hu => ?_)
  rcases List.mem_cons.mp hu with heq | hold
  · cases heq
  · exact hold

theorem abandon_quiet (c : ProtocolChooseTrent) : Quiet c c.abandon :=
  Quiet.calls_of c fun _ => List.mem_of_mem_tail

theorem endOfLists_quiet (c : ProtocolChooseTrent) : Quiet c c.endOfLists := by
  have hmark : Quiet c (c.mark 0 c.N) := Quiet.mark c c.N (by decide)
  refine hmark.trans ?_
  have hsort := Quiet.setList (c.mark 0 c.N) (List.perm_insertionSort
    (fun u1 u2 : ElGamalKey => u1.publicKey ≤ u2.publicKey) c.list).subset
  refine hsort.trans ?_
  exact (Quiet.mark _ c.senderKeyId (by decide)).trans (Quiet.send _ rfl)

theorem onList_quiet (c : ProtocolChooseTrent) (list2 : List ElGamalKey) (j : Nat) :
    Quiet c (c.onList list2 j).1 := by
  have hlist : Quiet c (c.setList (retainLoop list2 (ListIterator.of c.list)).1.list) :=
    Quiet.setList c (retainLoop_sublist list2 (ListIterator.of c.list)).subset
  unfold onList
  split
  · rename_i it e heq
    rwa [heq] at hlist
  · rename_i it heq
    rw [heq] at hlist
    have hmarked := hlist.trans (Quiet.mark _ j (by decide : (0 : Fin 3) ≠ 2))
    dsimp only
    split
    · exact hmarked.trans (endOfLists_quiet _)
    · exact hmarked

theorem addNumber_quiet (c : ProtocolChooseTrent) (n : Int) (j : Nat) :
    Quiet c (c.addNumber n j) := by
  unfold addNumber
  split
  · exact (Quiet.finalNumber c (c.finalNumber + n)).trans (Quiet.mark _ j (by decide))
  · exact Quiet.refl c

/-! ## The invariant

`known` are the users the party started with, and `heard k a` says that a party in place `k`
has announced `a`. -/

/-- What holds once `nextStep` was called: everybody is marked, and Trent is the own choice. -/
structure Agreed (c : ProtocolChooseTrent) : Prop where
  fresh : c.Fresh
  full : indexOfNull (c.hasSent 2) = none
  announced : c.announced ≠ none
  trentKey : c.trentKey.map (·.publicKey) = c.announced

structure Sound (known : List ElGamalKey) (heard : Nat → Int → Prop) (c : ProtocolChooseTrent) :
    Prop where
  list : c.list ⊆ known
  chosen : ∀ a, .choice a ∈ c.sent → c.announced = some a
  offered : ∀ a, c.announced = some a → ∃ u ∈ known, u.publicKey = a
  rows : c.Fresh ∨ ∀ r, (c.hasSent r).length = c.N
  numbered : c.Fresh → c.announced ≠ none → indexOfNull (c.hasSent 1) = none
  marked : c.Fresh → ∀ k < c.N, (c.hasSent 2)[k]? = some true →
    ∃ key, c.trentKey = some key ∧ heard k key.publicKey
  pending : ∀ u, .chose u ∈ c.calls →
    c.announced = some u.publicKey ∧ (c.Fresh → c.trentKey ≠ none)
  agreed : c.signing = true → c.Agreed

namespace Sound

variable {known : List ElGamalKey} {heard heard' : Nat → Int → Prop}

theorem mono (h : Sound known heard c) (hle : ∀ k a, heard k a → heard' k a) :
    Sound known heard' c :=
  { h with
    marked := fun hfresh k hk hmark => by
      obtain ⟨key, hkey, hheard⟩ := h.marked hfresh k hk hmark
      exact ⟨key, hkey, hle k _ hheard⟩ }

theorem quiet (h : Sound known heard c) (hq : Quiet c c') : Sound known heard c' := by
  have hN : c'.N = c.N := congrArg List.length hq.parties
  have hfresh : c'.Fresh ↔ c.Fresh := by simp [Fresh, hq.lengths, hN]
  constructor
  · exact List.Subset.trans hq.list h.list
  · intro a ha
    rw [hq.announced_eq]
    exact h.chosen a (hq.choices a ha)
  · rw [hq.announced_eq]
    exact h.offered
  · simp only [hfresh, hq.lengths, hN]
    exact h.rows
  · rw [hfresh, hq.announced_eq]
    exact fun hf ha => hq.numbers (h.numbered hf ha)
  · rw [hfresh, hN, hq.marks, hq.trentKey]
    exact h.marked
  · intro u hu
    rw [hfresh, hq.announced_eq, hq.trentKey]
    exact h.pending u (hq.calls u hu)
  · rw [hq.signing_eq]
    intro hsigning
    have hagreed := h.agreed hsigning
    constructor
    · exact hfresh.mpr hagreed.fresh
    · rw [hq.marks]
      exact hagreed.full
    · rw [hq.announced_eq]
      exact hagreed.announced
    · rw [hq.trentKey, hq.announced_eq]
      exact hagreed.trentKey

/-- A round only ends before the first restart. -/
theorem fresh (h : Sound known heard c) {r : Fin 3} (hnull : indexOfNull (c.hasSent r) = some c.N) :
    c.Fresh := by
  rcases h.rows with hfresh | hshort
  · exact hfresh
  · have hlt := (indexOfNull_eq_some hnull).1
    rw [hshort r] at hlt
    exact absurd hlt (Nat.lt_irrefl _)

theorem create (parties users : List ElGamalKey) (key : ElGamalKey) (n : Int) :
    Sound (candidates parties users) heard (create parties users key n) where
  list := List.Subset.refl _
  chosen a ha := by cases ha
  offered a ha := by cases ha
  rows := Or.inl fun r => List.length_replicate
  numbered _ ha := absurd rfl ha
  marked _ k hk hmark := by
    simp [ProtocolChooseTrent.create, List.getElem?_replicate] at hmark
  pending u hu := by cases hu
  agreed hsigning := by cases hsigning

/-- Trent can be set while there is none. -/
theorem setTrent (h : Sound known heard c) (hnone : c.trentKey = none) (key : ElGamalKey) :
    Sound known heard (c.setTrent (some key)) :=
  { h with
    marked := fun hfresh k hk hmark => by
      obtain ⟨key', hkey', -⟩ := h.marked hfresh k hk hmark
      rw [hnone] at hkey'
      cases hkey'
    pending := fun u hu => ⟨(h.pending u hu).1, fun _ hkey => by cases hkey⟩
    agreed := fun hsigning => by
      have hsame := (h.agreed hsigning).trentKey
      rw [hnone] at hsame
      exact absurd hsame.symm (h.agreed hsigning).announced }

/-- Who has announced the key of Trent can be marked. -/
theorem mark_choice (h : Sound known heard c) {k : Nat}
    (hk : c.Fresh → k < c.N → ∃ key, c.trentKey = some key ∧ heard k key.publicKey) :
    Sound known heard (c.mark 2 k) := by
  have hfresh : (c.mark 2 k).Fresh ↔ c.Fresh := by simp [Fresh]
  refine { h with
    rows := by simpa [Fresh] using h.rows
    numbered := ?_
    marked := ?_
    pending := ?_
    agreed := ?_ }
  · rw [hfresh, mark_hasSent_of_ne k (by decide)]
    exact h.numbered
  · rw [hfresh, mark_hasSent_self]
    intro hf k' hk' hmark
    rcases getElem?_set_true hmark with rfl | hold
    · exact hk hf hk'
    · exact h.marked hf k' hk' hold
  · rw [hfresh]
    exact h.pending
  · intro hsigning
    have hagreed := h.agreed hsigning
    refine { hagreed with fresh := hfresh.mpr hagreed.fresh, full := ?_ }
    rw [mark_hasSent_self]
    exact indexOfNull_set hagreed.full k

theorem restart (h : Sound known heard c) (hnot : c.signing = false) :
    Sound known heard c.restart := by
  refine Sound.quiet ?_ (sendMessage_quiet _)
  have hshort : ¬ (ProtocolChooseTrent.setTrent
      { c with hasSent := fun _ => List.replicate c.N false } none).Fresh := by
    intro hfresh
    have hlength : (List.replicate c.N false).length = c.N + 1 := hfresh 0
    rw [List.length_replicate] at hlength
    exact absurd hlength (Nat.succ_ne_self _).symm
  exact { h with
    rows := Or.inr fun _ => List.length_replicate
    numbered := fun hfresh => absurd hfresh hshort
    marked := fun hfresh => absurd hfresh hshort
    pending := fun u hu => ⟨(h.pending u hu).1, fun hfresh => absurd hfresh hshort⟩
    agreed := fun hsigning => by
      rw [show c.signing = true from hsigning] at hnot
      cases hnot }

theorem announce (h : Sound known heard c) (hnone : c.announced = none)
    (hnot : c.signing = false) (hfull : indexOfNull (c.hasSent 1) = none)
    (htrent : c.trentKey ≠ none) {u : ElGamalKey} (hu : u ∈ c.list) :
    Sound known heard ((c.send (.choice u.publicKey)).wait (.chose u)) := by
  have hsome : ((c.send (.choice u.publicKey)).wait (.chose u)).announced = some u.publicKey := by
    rw [announced] at hnone
    simp [announced, send, wait, hnone, ChooseMessage.choice?]
  refine { h with
    chosen := fun a ha => ?_
    offered := fun a ha => ?_
    numbered := fun _ _ => hfull
    pending := fun v hv => ?_
    agreed := fun hsigning => ?_ }
  · rw [hsome]
    rcases List.mem_append.mp ha with hold | hnew
    · rw [h.chosen a hold] at hnone
      cases hnone
    · cases List.mem_singleton.mp hnew
      rfl
  · rw [hsome] at ha
    exact ⟨u, h.list hu, Option.some.inj ha⟩
  · rcases List.mem_cons.mp hv with heq | hold
    · cases heq
      exact ⟨hsome, fun _ => htrent⟩
    · rw [(h.pending v hold).1] at hnone
      cases hnone
  · rw [show c.signing = true from hsigning] at hnot
    cases hnot

/-- A party that reaches the end of the second round has not announced anything yet. -/
theorem choose (h : Sound known heard c) (hnull : indexOfNull (c.hasSent 1) = some c.N)
    {u : ElGamalKey} (hu : u ∈ c.list) : Sound known heard ((c.mark 1 c.N).choose u) := by
  have hfresh := h.fresh hnull
  have hnone : c.announced = none := by
    by_contra hsome
    have hfull := h.numbered hfresh hsome
    rw [hnull] at hfull
    cases hfull
  have hnot : c.signing = false :=
    Bool.eq_false_iff.mpr fun hsigning => (h.agreed hsigning).announced hnone
  have hmarked := h.quiet (Quiet.mark c c.N (by decide : (1 : Fin 3) ≠ 2))
  have hfull : indexOfNull ((c.mark 1 c.N).hasSent 1) = none := by
    rw [mark_hasSent_self]
    exact indexOfNull_set_last hnull (hfresh 1)
  unfold ProtocolChooseTrent.choose
  dsimp only
  split
  · rename_i htrent
    exact (hmarked.setTrent htrent u).announce hnone hnot hfull (Option.some_ne_none u) hu
  · rename_i htrent
    exact hmarked.announce hnone hnot hfull htrent hu

theorem onNumber (h : Sound known heard c) (n : Int) (j : Nat) :
    Sound known heard (c.onNumber n j).1 := by
  have hadded := h.quiet (addNumber_quiet c n j)
  unfold ProtocolChooseTrent.onNumber
  dsimp only
  split
  · rename_i hnull
    have hmarked := hadded.quiet (Quiet.mark _ (c.addNumber n j).N (by decide : (1 : Fin 3) ≠ 2))
    split
    · exact hmarked
    · split
      · exact hmarked
      · rename_i u hu
        exact hadded.choose hnull (trentUser_mem hu)
  · exact hadded

theorem afterChoice (h : Sound known heard c) {u : ElGamalKey}
    (hself : ∀ a, c.announced = some a → heard c.senderKeyId a)
    (hchosen : c.announced = some u.publicKey) (htrent : c.Fresh → c.trentKey ≠ none) :
    Sound known heard (c.afterChoice u) := by
  unfold ProtocolChooseTrent.afterChoice
  dsimp only
  split
  · rename_i key hkey
    split
    · rename_i hdiffers
      refine h.restart (Bool.eq_false_iff.mpr fun hsigning => ?_)
      have hsame := (h.agreed hsigning).trentKey
      rw [show c.trentKey = some key from hkey, hchosen] at hsame
      exact hdiffers (Option.some.inj hsame)
    · rename_i hsame
      refine h.mark_choice fun _ _ => ⟨key, hkey, ?_⟩
      rw [not_not.mp hsame]
      exact hself _ hchosen
  · rename_i hnone
    exact h.mark_choice fun hfresh _ => absurd hnone (htrent hfresh)

theorem nextStep (h : Sound known heard c) (hfresh : c.Fresh)
    (hfull : indexOfNull (c.hasSent 2) = none) {key : ElGamalKey} (hkey : c.trentKey = some key)
    (hsent : c.announced = some key.publicKey) : Sound known heard c.nextStep :=
  { h with
    agreed := fun _ => {
      fresh := hfresh
      full := hfull
      announced := fun hnone => by
        rw [show c.announced = none from hnone] at hsent
        cases hsent
      trentKey := by
        rw [show c.nextStep.trentKey = c.trentKey from rfl, hkey]
        exact hsent.symm } }

theorem onChoice (h : Sound known heard c) (hnull : indexOfNull (c.hasSent 2) ≠ none)
    {a : Int} {j : Nat} (hheard : heard j a)
    (hall : ∀ b, (∀ k < c.N, heard k b) → c.announced = some b) :
    Sound known heard (c.onChoice a j) := by
  have hnot : c.signing = false :=
    Bool.eq_false_iff.mpr fun hsigning => hnull (h.agreed hsigning).full
  unfold ProtocolChooseTrent.onChoice
  split
  · rename_i hnone
    exact (h.setTrent hnone _).mark_choice fun _ _ => ⟨_, rfl, hheard⟩
  · rename_i key hkey
    split
    · rename_i hsame
      have hmarked : Sound known heard (c.mark 2 j) :=
        h.mark_choice fun _ _ => ⟨key, hkey, hsame ▸ hheard⟩
      dsimp only
      split
      · rename_i hlast
        have hfresh := hmarked.fresh hlast
        -- everybody has announced the key of Trent
        have hsent := hall key.publicKey fun k hk => by
          obtain ⟨key', hkey', hheard'⟩ :=
            hmarked.marked hfresh k hk ((indexOfNull_eq_some hlast).2 k hk)
          rw [show c.trentKey = some key' from hkey', Option.some.injEq] at hkey
          exact hkey ▸ hheard'
        have hended : Sound known heard ((c.mark 2 j).mark 2 (c.mark 2 j).N) :=
          hmarked.mark_choice fun _ hk => absurd hk (Nat.lt_irrefl _)
        refine hended.nextStep (fun r => ?_) ?_ hkey hsent
        · rw [mark_length]
          exact hfresh r
        · rw [mark_hasSent_self]
          exact indexOfNull_set_last hlast (hfresh 2)
      · exact hmarked
    · exact h.restart hnot

theorem notify (h : Sound known heard c) {message : ChooseMessage} {senderId : Int}
    (hheard : ∀ j a, c.parties.findIdx? (fun k => k.publicKey == senderId) = some j →
      message = .choice a → heard j a)
    (hall : ∀ b, (∀ k < c.N, heard k b) → c.announced = some b) :
    Sound known heard (c.notify message senderId).1 := by
  unfold ProtocolChooseTrent.notify
  split
  · exact h
  · rename_i j hj
    cases message with
    | list list2 =>
        dsimp only
        split
        · exact h.quiet (onList_quiet c list2 j)
        · exact h
    | number n =>
        dsimp only
        split
        · exact h.onNumber n j
        · exact h
    | choice a =>
        dsimp only
        split
        · rename_i hnull
          exact h.onChoice hnull (hheard j a hj rfl) hall
        · exact h

theorem resume (h : Sound known heard c)
    (hself : ∀ a, c.announced = some a → heard c.senderKeyId a) : Sound known heard c.resume := by
  unfold ProtocolChooseTrent.resume
  split
  · exact h
  · rename_i calls heq
    have hcalls : Quiet c { c with calls := calls } :=
      Quiet.calls_of c fun u hu => heq ▸ List.mem_cons_of_mem _ hu
    exact h.quiet (hcalls.trans (Quiet.mark _ c.senderKeyId (by decide)))
  · rename_i u calls heq
    have hcalls : Quiet c { c with calls := calls } :=
      Quiet.calls_of c fun u hu => heq ▸ List.mem_cons_of_mem _ hu
    obtain ⟨hchosen, htrent⟩ := h.pending u (heq ▸ List.mem_cons_self)
    exact (h.quiet hcalls).afterChoice hself hchosen htrent

end Sound

/-! ## Every step extends -/

namespace Extends

theorem sendMessage (c : ProtocolChooseTrent) : Extends c c.sendMessage :=
  (sendMessage_quiet c).toExtends

theorem restart (c : ProtocolChooseTrent) : Extends c c.restart := by
  have hreset : Extends c (setTrent { c with hasSent := fun _ => List.replicate c.N false } none) :=
    ⟨rfl, rfl, rfl, List.prefix_rfl, id⟩
  exact hreset.trans (sendMessage _)

theorem choose (c : ProtocolChooseTrent) (u : ElGamalKey) : Extends c (c.choose u) := by
  unfold ProtocolChooseTrent.choose
  dsimp only
  split <;> exact ⟨rfl, rfl, rfl, List.prefix_append _ _, id⟩

theorem onNumber (c : ProtocolChooseTrent) (n : Int) (j : Nat) : Extends c (c.onNumber n j).1 := by
  have hadded := (addNumber_quiet c n j).toExtends
  have hmarked : Extends c ((c.addNumber n j).mark 1 (c.addNumber n j).N) :=
    hadded.trans (Quiet.mark _ _ (by decide)).toExtends
  unfold ProtocolChooseTrent.onNumber
  dsimp only
  split
  · split
    · exact hmarked
    · split
      · exact hmarked
      · exact hmarked.trans (choose _ _)
  · exact hadded

theorem afterChoice (c : ProtocolChooseTrent) (u : ElGamalKey) : Extends c (c.afterChoice u) := by
  have hmarked : Extends c (c.mark 2 c.senderKeyId) := ⟨rfl, rfl, rfl, List.prefix_rfl, id⟩
  unfold ProtocolChooseTrent.afterChoice
  dsimp only
  split
  · split
    · exact hmarked.trans (restart _)
    · exact hmarked
  · exact hmarked

theorem onChoice (c : ProtocolChooseTrent) (a : Int) (j : Nat) : Extends c (c.onChoice a j) := by
  unfold ProtocolChooseTrent.onChoice
  split
  · exact ⟨rfl, rfl, rfl, List.prefix_rfl, id⟩
  · split
    · dsimp only
      split
      · exact ⟨rfl, rfl, rfl, List.prefix_rfl, fun _ => rfl⟩
      · exact ⟨rfl, rfl, rfl, List.prefix_rfl, id⟩
    · exact restart c

theorem notify (c : ProtocolChooseTrent) (message : ChooseMessage) (senderId : Int) :
    Extends c (c.notify message senderId).1 := by
  unfold ProtocolChooseTrent.notify
  split
  · exact refl c
  · rename_i j _
    cases message with
    | list list2 =>
        dsimp only
        split
        · exact (onList_quiet c list2 j).toExtends
        · exact refl c
    | number n =>
        dsimp only
        split
        · exact onNumber c n j
        · exact refl c
    | choice a =>
        dsimp only
        split
        · exact onChoice c a j
        · exact refl c

theorem resume (c : ProtocolChooseTrent) : Extends c c.resume := by
  unfold ProtocolChooseTrent.resume
  split
  · exact refl c
  · exact ⟨rfl, rfl, rfl, List.prefix_rfl, id⟩
  · rename_i u calls _
    have hcalls : Extends c { c with calls := calls } := ⟨rfl, rfl, rfl, List.prefix_rfl, id⟩
    exact hcalls.trans (afterChoice _ u)

end Extends

end ProtocolChooseTrent

end Sxp
