-- SUMMARY: What the lists loop of the choice of Trent leaves of the candidates: the users of both lists, exactly if the list falls into blocks that the loop treats right.
import Sxp.Choice.ChooseTrent

/-!
# The intersection of two lists of candidates

Each turn of the outer loop takes as many users from the iterator as the received list has, and
compares them with it place by place. If no place agrees, the last of them is removed.
-/

namespace List

variable {α : Type} {p : α → Bool}

/-- Parts of two lists are what is filtered from them, if their concatenation is. -/
theorem append_eq_filter_append_iff {kept out block rest : List α} (hkept : kept.Sublist block)
    (hout : out.Sublist rest) :
    kept ++ out = (block ++ rest).filter p ↔ kept = block.filter p ∧ out = rest.filter p := by
  constructor
  · intro h
    rw [filter_append] at h
    have hall : ∀ x ∈ kept ++ out, p x = true := by
      rw [h, ← filter_append]
      exact fun x hx => (mem_filter.mp hx).2
    have hfilter : ∀ {part whole : List α}, part.Sublist whole → (∀ x ∈ part, x ∈ kept ++ out) →
        part.Sublist (whole.filter p) := by
      intro part whole hsub hmem
      have hpart : part.filter p = part := filter_eq_self.mpr fun x hx => hall x (hmem x hx)
      exact hpart ▸ hsub.filter p
    have hkept' := hfilter hkept fun x hx => mem_append_left _ hx
    have hout' := hfilter hout fun x hx => mem_append_right _ hx
    have hlength := congrArg length h
    rw [length_append, length_append] at hlength
    have hle := hkept'.length_le
    have hle' := hout'.length_le
    exact ⟨hkept'.eq_of_length (by omega), hout'.eq_of_length (by omega)⟩
  · rintro ⟨rfl, rfl⟩
    rw [filter_append]

/-- All elements but the last are what is filtered from a list, if the last one alone is refused. -/
theorem dropLast_eq_filter_iff {l : List α} (hl : l ≠ []) :
    l.dropLast = l.filter p ↔ (∀ x ∈ l.dropLast, p x = true) ∧ p (l.getLast hl) = false := by
  have hparts := @append_eq_filter_append_iff _ p l.dropLast [] l.dropLast [l.getLast hl]
    (Sublist.refl _) (nil_sublist _)
  rw [append_nil, dropLast_append_getLast hl] at hparts
  rw [hparts, eq_comm, filter_eq_self, eq_comm, filter_eq_nil_iff]
  simp

/-- A part of a list with the elements that are filtered from it is what is filtered. -/
theorem Sublist.eq_filter_of_perm {out l : List α} (hsub : out.Sublist l)
    (hperm : out.Perm (l.filter p)) : out = l.filter p := by
  have hall : out.filter p = out :=
    filter_eq_self.mpr fun x hx => (mem_filter.mp (hperm.mem_iff.mp hx)).2
  have hfilter : out.Sublist (l.filter p) := hall ▸ hsub.filter p
  exact hfilter.eq_of_length hperm.length_eq

/-- Induction over a list that is cut into blocks of one length. -/
theorem block_induction {n : Nat} (hn : 0 < n) {motive : List α → Prop} (nil : motive [])
    (short : ∀ l, l ≠ [] → l.length < n → motive l)
    (block : ∀ b rest, b.length = n → motive rest → motive (b ++ rest)) (l : List α) :
    motive l := by
  induction hlength : l.length using Nat.strongRecOn generalizing l with
  | ind m ih =>
      subst hlength
      rcases eq_or_ne l [] with rfl | hne
      · exact nil
      · rcases Nat.lt_or_ge l.length n with hlt | hge
        · exact short l hne hlt
        · rw [← take_append_drop n l]
          have hdrop : (l.drop n).length < l.length := by
            rw [length_drop]
            omega
          exact block _ _ (length_take_of_le hge) (ih _ hdrop _ rfl)

end List

namespace Sxp

namespace ProtocolChooseTrent

variable {list2 : List ElGamalKey}

/-! ## One turn of the loop -/

/-- A user of the list has the key of the user. -/
def occursIn (list2 : List ElGamalKey) (v : ElGamalKey) : Bool :=
  list2.any fun u => u.publicKey == v.publicKey

/-- At some place the two lists have users with one key. -/
def aligned (list2 block : List ElGamalKey) : Bool :=
  (list2.zip block).any fun (u, v) => u.publicKey == v.publicKey

/-- The inner loop over a block of the length of the list. -/
theorem isInBoth_block {block : List ElGamalKey} (hlength : block.length = list2.length)
    (passed rest : List ElGamalKey) (can found : Bool) :
    isInBoth list2 { passed, remaining := block ++ rest, canRemove := can } found =
      ({ passed := passed ++ block, remaining := rest, canRemove := can || !block.isEmpty },
        .ok (found || aligned list2 block)) := by
  induction list2 generalizing block passed can found with
  | nil =>
      rw [List.length_nil, List.length_eq_zero_iff] at hlength
      subst hlength
      simp [isInBoth, aligned]
  | cons u list2 ih =>
      cases block with
      | nil => cases hlength
      | cons v block =>
          rw [isInBoth, ListIterator.next]
          dsimp only [List.cons_append]
          rw [ih (Nat.succ.inj hlength)]
          simp [aligned, Bool.or_assoc]

/-- With fewer users left than the list has, the iterator runs off its end. -/
theorem isInBoth_short {remaining : List ElGamalKey} (hlt : remaining.length < list2.length)
    (passed : List ElGamalKey) (can found : Bool) :
    (isInBoth list2 { passed, remaining, canRemove := can } found).2 = .error .noSuchElement := by
  induction list2 generalizing remaining passed can found with
  | nil => exact absurd hlt (Nat.not_lt_zero _)
  | cons u list2 ih =>
      cases remaining with
      | nil => rfl
      | cons v remaining =>
          rw [isInBoth, ListIterator.next]
          exact ih (Nat.lt_of_succ_lt_succ hlt) _ _ _

/-! ## The users in both lists -/

/-- What a turn of the outer loop leaves of a block. -/
def retained (list2 block : List ElGamalKey) : List ElGamalKey :=
  if aligned list2 block then block else block.dropLast

theorem retained_sublist (block : List ElGamalKey) : (retained list2 block).Sublist block := by
  unfold retained
  split
  · exact List.Sublist.refl _
  · exact List.dropLast_sublist _

theorem retainLoop_nil (passed : List ElGamalKey) (can : Bool) :
    retainLoop list2 { passed, remaining := [], canRemove := can } =
      ({ passed, remaining := [], canRemove := can }, .ok ()) := by
  rw [retainLoop, if_neg]
  simp [ListIterator.hasNext]

theorem retainLoop_short {remaining : List ElGamalKey} (hne : remaining ≠ [])
    (hlt : remaining.length < list2.length) (passed : List ElGamalKey) (can : Bool) :
    ∃ it, retainLoop list2 { passed, remaining, canRemove := can } = (it, .error .noSuchElement) ∧
      it.list = passed ++ remaining := by
  have hshort := isInBoth_short hlt passed can false
  rw [retainLoop, if_pos (by simp [ListIterator.hasNext, hne])]
  split
  · rename_i it e h
    rw [h] at hshort
    obtain rfl := Except.error.inj hshort
    exact ⟨it, rfl, isInBoth_list h⟩
  all_goals
    rename_i it h
    rw [h] at hshort
    cases hshort

theorem retainLoop_block {block : List ElGamalKey} (hne : block ≠ [])
    (hlength : block.length = list2.length) (passed rest : List ElGamalKey) (can : Bool) :
    ∃ can', retainLoop list2 { passed, remaining := block ++ rest, canRemove := can } =
      retainLoop list2 { passed := passed ++ retained list2 block, remaining := rest,
                         canRemove := can' } := by
  have hblock := isInBoth_block hlength passed rest can false
  have hcan : (can || !block.isEmpty) = true := by simp [hne]
  rw [hcan, Bool.false_or] at hblock
  rw [retainLoop, if_pos (by simp [ListIterator.hasNext, hne])]
  split
  · rename_i it' e h
    rw [hblock] at h
    cases h
  · rename_i it' h
    rw [hblock, Prod.mk.injEq, Except.ok.injEq] at h
    obtain ⟨rfl, haligned⟩ := h
    exact ⟨true, by rw [retained, if_pos haligned]⟩
  · rename_i it' h
    rw [hblock, Prod.mk.injEq, Except.ok.injEq] at h
    obtain ⟨rfl, haligned⟩ := h
    have hlast : (passed ++ block).dropLast = passed ++ retained list2 block := by
      rw [retained, if_neg (by simp [haligned]), List.dropLast_append_of_ne_nil hne]
    split
    · rename_i e h'
      cases h'
    · rename_i it'' h'
      cases h'
      exact ⟨false, by rw [hlast]⟩

/-- The loop leaves a part of the users that were still to come. -/
theorem retainLoop_append (hne : list2 ≠ []) (passed remaining : List ElGamalKey) (can : Bool) :
    ∃ out, (retainLoop list2 { passed, remaining, canRemove := can }).1.list = passed ++ out ∧
      out.Sublist remaining := by
  induction remaining using List.block_induction (List.length_pos_iff.mpr hne)
    generalizing passed can with
  | nil =>
      rw [retainLoop_nil]
      exact ⟨[], rfl, List.Sublist.refl _⟩
  | short remaining hrem hlt =>
      obtain ⟨it, hloop, hlist⟩ := retainLoop_short hrem hlt passed can
      rw [hloop]
      exact ⟨remaining, hlist, List.Sublist.refl _⟩
  | block block rest hlength ih =>
      have hblock : block ≠ [] := by
        rw [← List.length_pos_iff, hlength]
        exact List.length_pos_iff.mpr hne
      obtain ⟨can', hstep⟩ := retainLoop_block hblock hlength passed rest can
      obtain ⟨out, hout, hsub⟩ := ih (passed ++ retained list2 block) can'
      refine ⟨retained list2 block ++ out, ?_, (retained_sublist block).append hsub⟩
      rw [hstep, hout, List.append_assoc]

/-- A block on which a turn of the loop keeps the users of the list: all of them are if a place
agrees, and all but the last one if none does. -/
def Agrees (list2 block : List ElGamalKey) : Prop :=
  if aligned list2 block then ∀ v ∈ block, occursIn list2 v = true
  else (∀ v ∈ block.dropLast, occursIn list2 v = true) ∧
    ∀ v ∈ block.getLast?, occursIn list2 v = false

/-- The candidates fall into blocks of the length of the list, each of which the loop treats
right. -/
def InBlocks (list2 list : List ElGamalKey) : Prop :=
  ∃ blocks : List (List ElGamalKey), blocks.flatten = list ∧
    ∀ block ∈ blocks, block ≠ [] ∧ block.length = list2.length ∧ Agrees list2 block

theorem retained_eq_filter_iff {block : List ElGamalKey} (hne : block ≠ []) :
    retained list2 block = block.filter (occursIn list2) ↔ Agrees list2 block := by
  unfold retained Agrees
  split
  · rw [eq_comm, List.filter_eq_self]
  · rw [List.dropLast_eq_filter_iff hne, List.getLast?_eq_some_getLast hne]
    simp

theorem inBlocks_nil : InBlocks list2 [] := ⟨[], rfl, by simp⟩

theorem inBlocks_append_iff {block rest : List ElGamalKey} (hne : block ≠ [])
    (hlength : block.length = list2.length) :
    InBlocks list2 (block ++ rest) ↔ Agrees list2 block ∧ InBlocks list2 rest := by
  constructor
  · rintro ⟨blocks, hflatten, hblocks⟩
    cases blocks with
    | nil => simp_all
    | cons first blocks =>
        obtain ⟨-, hfirst, hagrees⟩ := hblocks first List.mem_cons_self
        rw [List.flatten_cons] at hflatten
        obtain ⟨rfl, hrest⟩ := List.append_inj hflatten (hfirst.trans hlength.symm)
        exact ⟨hagrees, blocks, hrest, fun b hb => hblocks b (List.mem_cons_of_mem _ hb)⟩
  · rintro ⟨hagrees, blocks, hflatten, hblocks⟩
    refine ⟨block :: blocks, by rw [List.flatten_cons, hflatten], fun b hb => ?_⟩
    rcases List.mem_cons.mp hb with rfl | hb
    · exact ⟨hne, hlength, hagrees⟩
    · exact hblocks b hb

theorem not_inBlocks_short {list : List ElGamalKey} (hne : list ≠ [])
    (hlt : list.length < list2.length) : ¬ InBlocks list2 list := by
  rintro ⟨blocks, hflatten, hblocks⟩
  cases blocks with
  | nil => exact hne hflatten.symm
  | cons first blocks =>
      obtain ⟨-, hlength, -⟩ := hblocks first List.mem_cons_self
      rw [← hflatten, List.flatten_cons, List.length_append] at hlt
      omega

/-- The loop ends and leaves the users of both lists if the candidates fall into such blocks, and
only then. -/
theorem retainLoop_iff (hne : list2 ≠ []) (passed remaining : List ElGamalKey) (can : Bool) :
    ((retainLoop list2 { passed, remaining, canRemove := can }).2 = .ok () ∧
      (retainLoop list2 { passed, remaining, canRemove := can }).1.list =
        passed ++ remaining.filter (occursIn list2)) ↔ InBlocks list2 remaining := by
  induction remaining using List.block_induction (List.length_pos_iff.mpr hne)
    generalizing passed can with
  | nil =>
      rw [retainLoop_nil]
      exact iff_of_true ⟨rfl, rfl⟩ inBlocks_nil
  | short remaining hrem hlt =>
      obtain ⟨it, hloop, -⟩ := retainLoop_short hrem hlt passed can
      rw [hloop]
      refine iff_of_false ?_ (not_inBlocks_short hrem hlt)
      rintro ⟨h, -⟩
      cases h
  | block block rest hlength ih =>
      have hblock : block ≠ [] := by
        rw [← List.length_pos_iff, hlength]
        exact List.length_pos_iff.mpr hne
      obtain ⟨can', hstep⟩ := retainLoop_block hblock hlength passed rest can
      obtain ⟨out, hout, hsub⟩ := retainLoop_append hne (passed ++ retained list2 block) rest can'
      have hrest := ih (passed ++ retained list2 block) can'
      rw [hout, List.append_cancel_left_eq] at hrest
      rw [hstep, hout, inBlocks_append_iff hblock hlength, ← retained_eq_filter_iff hblock, ← hrest,
        List.append_assoc, List.append_cancel_left_eq,
        List.append_eq_filter_append_iff (retained_sublist block) hsub]
      exact and_left_comm

/-- Nothing is compared with an empty list, and nothing can be removed. -/
theorem retainLoop_empty (list : List ElGamalKey) :
    (retainLoop [] (ListIterator.of list)).2 = .ok () ↔ list = [] := by
  cases list with
  | nil => simp [ListIterator.of, retainLoop_nil]
  | cons v list =>
      rw [retainLoop, if_pos (by simp [ListIterator.hasNext, ListIterator.of])]
      simp [isInBoth, ListIterator.remove, ListIterator.of]

/-- The same for the whole loop, with any list. -/
theorem retainLoop_of_iff (list : List ElGamalKey) :
    ((retainLoop list2 (ListIterator.of list)).2 = .ok () ∧
      (retainLoop list2 (ListIterator.of list)).1.list = list.filter (occursIn list2)) ↔
        InBlocks list2 list := by
  rcases eq_or_ne list2 [] with rfl | hne
  · rcases eq_or_ne list [] with rfl | hlist
    · exact iff_of_true ⟨(retainLoop_empty []).mpr rfl, by
        rw [ListIterator.of, retainLoop_nil]; rfl⟩ inBlocks_nil
    · refine iff_of_false (fun h => hlist ((retainLoop_empty list).mp h.1)) ?_
      rintro ⟨blocks, rfl, hblocks⟩
      refine hlist (List.flatten_eq_nil_iff.mpr fun block hblock => ?_)
      obtain ⟨-, hlength, -⟩ := hblocks block hblock
      exact List.length_eq_zero_iff.mp hlength
  · exact retainLoop_iff hne [] list false

/-! ## The handler -/

/-- The order of the users once all lists were received. -/
def byPublicKey (u1 u2 : ElGamalKey) : Prop := u1.publicKey ≤ u2.publicKey

instance decidableByPublicKey : DecidableRel byPublicKey :=
  fun u1 u2 => inferInstanceAs (Decidable (u1.publicKey ≤ u2.publicKey))

instance totalByPublicKey : Std.Total byPublicKey :=
  ⟨fun u1 u2 => Int.le_total u1.publicKey u2.publicKey⟩

instance transByPublicKey : IsTrans ElGamalKey byPublicKey := ⟨fun _ _ _ h h' => Int.le_trans h h'⟩

/-- The list of the party at the place `j` is the last one that was awaited. -/
def IsLast (c : ProtocolChooseTrent) (j : Nat) : Prop :=
  indexOfNull ((c.hasSent 0).set j true) = some c.N

/-- How the handler ends, and the list it leaves, which it sorts after the last list. -/
theorem onList_ok (c : ProtocolChooseTrent) (list2 : List ElGamalKey) (j : Nat) :
    (c.onList list2 j).2 = (retainLoop list2 (ListIterator.of c.list)).2 ∧
      ((retainLoop list2 (ListIterator.of c.list)).2 = .ok () →
        (IsLast c j → (c.onList list2 j).1.list =
          (retainLoop list2 (ListIterator.of c.list)).1.list.insertionSort byPublicKey) ∧
        (¬ IsLast c j → (c.onList list2 j).1.list =
          (retainLoop list2 (ListIterator.of c.list)).1.list)) := by
  rcases hloop : retainLoop list2 (ListIterator.of c.list) with ⟨it, _ | _⟩
  · simp only [onList, hloop]
    exact ⟨trivial, fun h => by cases h⟩
  · simp only [onList, hloop]
    refine ⟨trivial, fun _ => ⟨fun hlast => ?_, fun hlast => ?_⟩⟩
    · rw [if_pos]
      · rfl
      · simpa [IsLast, mark, setList, N] using hlast
    · rw [if_neg]
      · rfl
      · simpa [IsLast, mark, setList, N] using hlast

/-- The handler ends and leaves the users of both lists in their order if the candidates fall into
blocks that agree with the received list, and after the last list they are in the order of their
keys already. -/
theorem onList_intersection_iff (c : ProtocolChooseTrent) (list2 : List ElGamalKey) (j : Nat) :
    ((c.onList list2 j).2 = .ok () ∧ (c.onList list2 j).1.list = c.list.filter (occursIn list2)) ↔
      InBlocks list2 c.list ∧ (IsLast c j →
        (c.list.filter (occursIn list2)).Pairwise byPublicKey) := by
  obtain ⟨hend, hlist⟩ := onList_ok c list2 j
  have hsub := retainLoop_sublist list2 (ListIterator.of c.list)
  rw [ListIterator.list_of] at hsub
  rw [hend, ← retainLoop_of_iff]
  constructor
  · rintro ⟨hok, hleft⟩
    obtain ⟨hsorted, hkept⟩ := hlist hok
    rcases Classical.em (IsLast c j) with hlast | hlast
    · rw [hsorted hlast] at hleft
      have hperm := (List.perm_insertionSort byPublicKey
        (retainLoop list2 (ListIterator.of c.list)).1.list).symm
      rw [hleft] at hperm
      refine ⟨⟨hok, hsub.eq_filter_of_perm hperm⟩, fun _ => ?_⟩
      rw [← hleft]
      exact List.pairwise_insertionSort byPublicKey _
    · rw [hkept hlast] at hleft
      exact ⟨⟨hok, hleft⟩, fun h => absurd h hlast⟩
  · rintro ⟨⟨hok, hfilter⟩, hpair⟩
    obtain ⟨hsorted, hkept⟩ := hlist hok
    refine ⟨hok, ?_⟩
    rcases Classical.em (IsLast c j) with hlast | hlast
    · rw [hsorted hlast, hfilter]
      exact (hpair hlast).insertionSort_eq
    · rw [hkept hlast, hfilter]

/-- A party that receives its own two candidates in the other order loses one of them. -/
theorem reversed_lists_lose_user :
    let c := create [⟨7, 3, 5⟩, ⟨7, 3, 6⟩] [⟨7, 3, 4⟩, ⟨7, 3, 2⟩] ⟨7, 3, 5⟩ 0
    ¬ ((c.onList [⟨7, 3, 2⟩, ⟨7, 3, 4⟩] 1).2 = .ok () ∧
      (c.onList [⟨7, 3, 2⟩, ⟨7, 3, 4⟩] 1).1.list =
      c.list.filter (occursIn [⟨7, 3, 2⟩, ⟨7, 3, 4⟩])) := by
  decide +kernel

end ProtocolChooseTrent

end Sxp
