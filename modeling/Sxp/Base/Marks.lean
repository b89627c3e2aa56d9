-- SUMMARY: Searching a sequence for marks: first positions, the parts between marks, and when parts written behind their marks are found again.
import Mathlib.Data.List.Infix
import Mathlib.Data.List.Nodup
import Mathlib.Data.Nat.Find
import Mathlib.Tactic.Common

/-!
# Marks

A record is written as a sequence of parts, each behind its mark, and read by searching for the
marks from the start: a part is what stands between the first place of its mark and the first
place of the next one. A mark opens with a symbol and closes with a symbol that it holds nowhere
else, so no mark overlaps another; but nothing keeps a mark from standing inside a part.
-/

namespace Marks

variable {α : Type} [DecidableEq α] {o c u : α} {a b b' e f g p p' q r s t v w : List α}

/-! ## Positions and slices -/

/-- The first position of `b` in `s`, or -1. -/
def indexOf (b s : List α) : Int :=
  match s.dropInfix? b with
  | some (p, _) => p.length
  | none => -1

/-- What stands from position `i` on and before position `j`. -/
def slice (i j : Int) (s : List α) : Option (List α) :=
  if 0 ≤ i ∧ i ≤ j ∧ j ≤ s.length then some ((s.take j.toNat).drop i.toNat) else none

/-- What stands between the first `b` and the first `b'`. -/
def between (b b' s : List α) : Option (List α) := slice (indexOf b s + b.length) (indexOf b' s) s

/-- What stands behind the first `b`. -/
def after (b s : List α) : Option (List α) := slice (indexOf b s + b.length) s.length s

omit [DecidableEq α] in
theorem slice_eq_some {i j : Int} :
    slice i j s = some v ↔ ∃ p r, s = p ++ v ++ r ∧ i = p.length ∧ j = (p ++ v).length := by
  rw [slice]
  constructor
  · intro h
    split at h
    · rename_i hij
      obtain ⟨hi, hle, hj⟩ := hij
      have hv : (s.take j.toNat).drop i.toNat = v := Option.some.inj h
      refine ⟨s.take i.toNat, s.drop j.toNat, ?_, ?_, ?_⟩
      · have htake : s.take i.toNat = (s.take j.toNat).take i.toNat := by
          rw [List.take_take, Nat.min_eq_left (by omega)]
        rw [← hv, htake, List.take_append_drop, List.take_append_drop]
      · rw [List.length_take]
        omega
      · rw [← hv, List.length_append, List.length_drop, List.length_take, List.length_take]
        omega
    · cases h
  · rintro ⟨p, r, rfl, rfl, rfl⟩
    rw [if_pos (by simp only [List.length_append]; omega), Int.toNat_natCast, Int.toNat_natCast,
      List.take_left' rfl, List.drop_left' rfl]

/-- The first `b` in `s` has `p` before it. -/
def FirstAt (b p s : List α) : Prop :=
  (∃ r, s = p ++ b ++ r) ∧ ∀ p' r', s = p' ++ b ++ r' → p.length ≤ p'.length

omit [DecidableEq α] in
theorem FirstAt.isInfix (h : FirstAt b p s) : b <:+: s := by
  obtain ⟨⟨r, rfl⟩, -⟩ := h
  exact List.infix_append p b r

omit [DecidableEq α] in
theorem FirstAt.start : FirstAt b [] (b ++ r) := ⟨⟨r, rfl⟩, fun _ _ _ => Nat.zero_le _⟩

theorem dropInfix_eq_some : s.dropInfix? b = some (p, r) ↔
    s = p ++ b ++ r ∧ ∀ p' r', s = p' ++ b ++ r' → p.length ≤ p'.length := by
  rw [List.dropInfix?_eq_some_iff]
  constructor
  · rintro ⟨⟨b', hs, hb⟩, hfirst⟩
    rw [beq_iff_eq] at hb
    subst hb
    exact ⟨hs, fun p' r' h => hfirst p' b' r' h (beq_self_eq_true b')⟩
  · rintro ⟨hs, hfirst⟩
    refine ⟨⟨b, hs, beq_self_eq_true b⟩, fun p' b' r' h hb => ?_⟩
    rw [beq_iff_eq] at hb
    subst hb
    exact hfirst p' r' h

theorem indexOf_cases (b s : List α) :
    (indexOf b s = -1 ∧ ¬ b <:+: s) ∨ ∃ p, FirstAt b p s ∧ indexOf b s = p.length := by
  rw [indexOf]
  cases h : s.dropInfix? b with
  | some found =>
      obtain ⟨p, r⟩ := found
      obtain ⟨hs, hfirst⟩ := dropInfix_eq_some.mp h
      exact Or.inr ⟨p, ⟨⟨r, hs⟩, hfirst⟩, rfl⟩
  | none =>
      refine Or.inl ⟨rfl, ?_⟩
      rintro ⟨p, r, hs⟩
      -- among all places there is a first one
      obtain ⟨n, ⟨p, r, hs, hn⟩, hmin⟩ : ∃ n, (∃ p r, p ++ b ++ r = s ∧ p.length = n) ∧
          ∀ m < n, ¬ ∃ p r, p ++ b ++ r = s ∧ p.length = m := by
        classical
        have hex : ∃ n, ∃ p r, p ++ b ++ r = s ∧ p.length = n := ⟨p.length, p, r, hs, rfl⟩
        exact ⟨Nat.find hex, Nat.find_spec hex, fun m hm => Nat.find_min hex hm⟩
      have hfound : s.dropInfix? b = some (p, r) := by
        refine dropInfix_eq_some.mpr ⟨hs.symm, fun p' r' h' => ?_⟩
        by_contra hlt
        exact hmin p'.length (by omega) ⟨p', r', h'.symm, rfl⟩
      rw [h] at hfound
      cases hfound

omit [DecidableEq α] in
/-- There is one first place. -/
theorem FirstAt.unique (h : FirstAt b p s) (h' : FirstAt b p' s) : p = p' := by
  obtain ⟨⟨r, hr⟩, hfirst⟩ := h
  obtain ⟨⟨r', hr'⟩, hfirst'⟩ := h'
  have hlength : p.length = p'.length := Nat.le_antisymm (hfirst p' r' hr') (hfirst' p r hr)
  rw [hr, List.append_assoc, List.append_assoc] at hr'
  exact (List.append_inj hr' hlength).1

theorem FirstAt.indexOf (h : FirstAt b p s) : indexOf b s = p.length := by
  rcases indexOf_cases b s with ⟨-, hnone⟩ | ⟨p', h', heq⟩
  · exact absurd h.isInfix hnone
  · rw [heq, h.unique h']

theorem exists_firstAt (h : b <:+: s) : ∃ p, FirstAt b p s := by
  rcases indexOf_cases b s with ⟨-, hnone⟩ | ⟨p, hp, -⟩
  · exact absurd h hnone
  · exact ⟨p, hp⟩

theorem indexOf_eq_neg_one : Marks.indexOf b s = -1 ↔ ¬ b <:+: s := by
  constructor
  · intro h hfound
    obtain ⟨p, hp⟩ := exists_firstAt hfound
    rw [hp.indexOf] at h
    omega
  · intro h
    rcases indexOf_cases b s with ⟨hnone, -⟩ | ⟨p, hp, -⟩
    · exact hnone
    · exact absurd hp.isInfix h

theorem between_eq_some (h : FirstAt b p s) :
    between b b' s = some v ↔ FirstAt b' (p ++ b ++ v) s := by
  rw [between, h.indexOf, slice_eq_some]
  obtain ⟨⟨r, hr⟩, -⟩ := h
  constructor
  · rintro ⟨q, t, hs, hq, hindex⟩
    have hlength : q.length = (p ++ b).length := by
      rw [List.length_append]
      omega
    have hfront : q = p ++ b := by
      rw [hr, List.append_assoc q] at hs
      exact ((List.append_inj hs hlength.symm).1).symm
    subst hfront
    rcases indexOf_cases b' s with ⟨hnone, -⟩ | ⟨p', h', heq⟩
    · omega
    · have hp' : p' = p ++ b ++ v := by
        obtain ⟨⟨r', hr'⟩, -⟩ := h'
        rw [hs, List.append_assoc p'] at hr'
        exact ((List.append_inj hr' (by omega)).1).symm
      rw [← hp']
      exact h'
  · intro h'
    obtain ⟨r', hr'⟩ := h'.1
    refine ⟨p ++ b, b' ++ r', ?_, ?_, h'.indexOf⟩
    · rw [hr', List.append_assoc _ b']
    · rw [List.length_append]
      omega

omit [DecidableEq α] in
theorem slice_append {i j : Int} (h : j ≤ s.length) (t : List α) :
    slice i j (s ++ t) = slice i j s := by
  rw [slice, slice]
  by_cases hij : 0 ≤ i ∧ i ≤ j
  · have hs : j ≤ (s ++ t).length := by
      rw [List.length_append]
      omega
    rw [if_pos ⟨hij.1, hij.2, hs⟩, if_pos ⟨hij.1, hij.2, h⟩,
      List.take_append_of_le_length (by omega)]
  · rw [if_neg fun hall => hij ⟨hall.1, hall.2.1⟩, if_neg fun hall => hij ⟨hall.1, hall.2.1⟩]

theorem after_eq (h : FirstAt b p (p ++ b ++ r)) : after b (p ++ b ++ r) = some r := by
  rw [after, h.indexOf, slice_eq_some]
  refine ⟨p ++ b, [], by rw [List.append_nil], ?_, rfl⟩
  rw [List.length_append]
  omega

/-! ## No overlap -/

section Overlap

omit [DecidableEq α]

/-- A `b` that is found in a sequence cut at a symbol which `b` holds at most in front stands on
one side of the cut. -/
theorem append_cons_eq (ho : o ∉ b.tail) (h : f ++ o :: t = p ++ b ++ r) :
    (∃ r', f = p ++ b ++ r') ∨ ∃ p', p = f ++ p' := by
  rw [List.append_assoc, List.append_eq_append_iff] at h
  rcases h with ⟨p', hp, -⟩ | ⟨x, hf, hrest⟩
  · exact Or.inr ⟨p', hp⟩
  · rw [List.append_eq_append_iff] at hrest
    rcases hrest with ⟨r', hx, -⟩ | ⟨y, hb, hy⟩
    · exact Or.inl ⟨r', by rw [hf, hx, List.append_assoc]⟩
    · cases x with
      | nil => exact Or.inr ⟨[], by rw [hf, List.append_nil, List.append_nil]⟩
      | cons x xs =>
          cases y with
          | nil => exact Or.inl ⟨[], by rw [hf, hb, List.append_nil, List.append_nil]⟩
          | cons y ys =>
              obtain ⟨rfl, -⟩ := List.cons.inj hy
              exact absurd (by simp [hb]) ho

theorem infix_append_cons (ho : o ∉ b.tail) : b <:+: f ++ o :: t ↔ b <:+: f ∨ b <:+: o :: t := by
  constructor
  · rintro ⟨p, r, h⟩
    rcases append_cons_eq ho h.symm with ⟨r', hf⟩ | ⟨p', hp⟩
    · exact Or.inl ⟨p, r', hf.symm⟩
    · rw [hp, List.append_assoc, List.append_assoc, List.append_cancel_left_eq] at h
      exact Or.inr ⟨p', r, by rw [List.append_assoc, h]⟩
  · rintro (h | h)
    · exact h.trans List.infix_append_left
    · exact h.trans List.infix_append_right

theorem infix_concat_append (hc : c ∉ b.dropLast) :
    b <:+: f ++ c :: t ↔ b <:+: f ++ [c] ∨ b <:+: t := by
  have htail : c ∉ b.reverse.tail := by
    rw [List.tail_reverse, List.mem_reverse]
    exact hc
  have hreverse : (f ++ c :: t).reverse = t.reverse ++ c :: f.reverse := by simp
  rw [← List.reverse_infix, hreverse, infix_append_cons htail, or_comm, List.reverse_infix]
  have hf : c :: f.reverse = (f ++ [c]).reverse := by simp
  rw [hf, List.reverse_infix]

theorem FirstAt.append_left (ho : o ∉ b.tail) (hf : ¬ b <:+: f) (h : FirstAt b p (o :: t)) :
    FirstAt b (f ++ p) (f ++ o :: t) := by
  obtain ⟨⟨r, hr⟩, hfirst⟩ := h
  refine ⟨⟨r, by rw [hr, List.append_assoc, List.append_assoc, List.append_assoc]⟩, ?_⟩
  intro p' r' h'
  rcases append_cons_eq ho h' with ⟨r'', hf'⟩ | ⟨q, hp'⟩
  · exact absurd ⟨p', r'', hf'.symm⟩ hf
  · subst hp'
    rw [List.append_assoc, List.append_assoc, List.append_cancel_left_eq] at h'
    have hle := hfirst q r' (by rw [h', List.append_assoc])
    rw [List.length_append, List.length_append]
    omega

theorem FirstAt.append_right (ho : o ∉ b.tail) (h : FirstAt b p f) : FirstAt b p (f ++ o :: t) := by
  obtain ⟨⟨r, hr⟩, hfirst⟩ := h
  refine ⟨⟨r ++ o :: t, by rw [hr, List.append_assoc]⟩, ?_⟩
  intro p' r' h'
  rcases append_cons_eq ho h' with ⟨r'', hf'⟩ | ⟨q, hp'⟩
  · exact hfirst p' r'' hf'
  · rw [hp', hr]
    simp only [List.length_append]
    omega

/-- What is found first is found first with any sequence behind. -/
theorem FirstAt.extend (h : FirstAt b p s) (v : List α) : FirstAt b p (s ++ v) := by
  obtain ⟨⟨r, hr⟩, hfirst⟩ := h
  refine ⟨⟨r ++ v, by rw [hr, List.append_assoc]⟩, ?_⟩
  intro p' r' h'
  by_contra hlt
  have hprefix : p' ++ b <+: s := by
    refine List.prefix_of_prefix_length_le ⟨r', h'.symm⟩ (List.prefix_append s v) ?_
    rw [hr]
    simp only [List.length_append]
    omega
  obtain ⟨r'', hr''⟩ := hprefix
  exact hlt (hfirst p' r'' hr''.symm)

/-- Symbols that `b` does not open with are passed over. -/
theorem append_eq_of_head (hu : b.head? = some u) (hw : u ∉ w) (h : w ++ s = p ++ b ++ r) :
    ∃ p', p = w ++ p' := by
  rw [List.append_assoc, List.append_eq_append_iff] at h
  rcases h with ⟨p', hp, -⟩ | ⟨x, hx, hrest⟩
  · exact ⟨p', hp⟩
  · cases x with
    | nil => exact ⟨[], by rw [hx, List.append_nil, List.append_nil]⟩
    | cons x xs =>
        cases b with
        | nil => cases hu
        | cons y ys =>
            obtain ⟨rfl, -⟩ := List.cons.inj hrest
            cases hu
            exact absurd (by simp [hx]) hw

theorem infix_skip (hu : b.head? = some u) (hw : u ∉ w) : b <:+: w ++ s ↔ b <:+: s := by
  constructor
  · rintro ⟨p, r, h⟩
    obtain ⟨p', rfl⟩ := append_eq_of_head hu hw h.symm
    rw [List.append_assoc, List.append_assoc, List.append_cancel_left_eq] at h
    exact ⟨p', r, by rw [List.append_assoc, h]⟩
  · exact fun h => h.trans List.infix_append_right

theorem infix_append_skip (hc : b.getLast? = some c) (hw : c ∉ w) : b <:+: f ++ w ↔ b <:+: f := by
  have hhead : b.reverse.head? = some c := by rw [List.head?_reverse, hc]
  have hreverse : c ∉ w.reverse := by rwa [List.mem_reverse]
  rw [← List.reverse_infix, List.reverse_append, infix_skip hhead hreverse, List.reverse_infix]

theorem FirstAt.skip (hu : b.head? = some u) (hw : u ∉ w) (h : FirstAt b p s) :
    FirstAt b (w ++ p) (w ++ s) := by
  obtain ⟨⟨r, hr⟩, hfirst⟩ := h
  refine ⟨⟨r, by rw [hr, List.append_assoc, List.append_assoc, List.append_assoc]⟩, ?_⟩
  intro p' r' h'
  obtain ⟨q, rfl⟩ := append_eq_of_head hu hw h'
  rw [List.append_assoc, List.append_assoc, List.append_cancel_left_eq] at h'
  have hle := hfirst q r' (by rw [h', List.append_assoc])
  rw [List.length_append, List.length_append]
  omega

/-- A `b` that stands in front of symbols which it does not close with leaves these behind it. -/
theorem append_eq_of_last (hc : b.getLast? = some c) (hw : c ∉ w) (h : s ++ w = p ++ b ++ r) :
    ∃ r', r = r' ++ w := by
  have hhead : b.reverse.head? = some c := by rw [List.head?_reverse, hc]
  have hreverse : w.reverse ++ s.reverse = r.reverse ++ b.reverse ++ p.reverse := by
    rw [← List.reverse_append, h, List.reverse_append, List.reverse_append, List.append_assoc]
  obtain ⟨q, hq⟩ := append_eq_of_head hhead (by rwa [List.mem_reverse]) hreverse
  refine ⟨q.reverse, ?_⟩
  rw [← List.reverse_reverse r, hq, List.reverse_append, List.reverse_reverse]

/-- A sequence is cut at a symbol that `b` does not hold. -/
theorem infix_cut (hb : b ≠ []) (ho : o ∉ b) : b <:+: f ++ o :: t ↔ b <:+: f ∨ b <:+: t := by
  obtain ⟨u, b, rfl⟩ := List.exists_cons_of_ne_nil hb
  rw [List.mem_cons, not_or] at ho
  rw [infix_append_cons ho.2]
  exact or_congr_right (infix_skip (w := [o]) rfl fun hu => ho.1 (List.mem_singleton.mp hu).symm)

/-- `b` has no symbol in common with the ends of the sequence, and is not in it. -/
def Cuts (w b : List α) : Prop :=
  w ≠ [] ∧ b ≠ [] ∧ (∀ o ∈ w.head?, o ∉ b) ∧ (∀ c ∈ w.getLast?, c ∉ b) ∧ ¬ b <:+: w

/-- What is found in parts with a sequence between them is found in one of the parts. -/
theorem Cuts.infix_iff (h : Cuts w b) : b <:+: f ++ w ++ t ↔ b <:+: f ∨ b <:+: t := by
  obtain ⟨hw, hb, hhead, hlast, hnone⟩ := h
  have hfront : b <:+: f ++ w ↔ b <:+: f := by
    obtain ⟨o, w', rfl⟩ := List.exists_cons_of_ne_nil hw
    rw [infix_cut hb (hhead o rfl)]
    exact or_iff_left fun h => hnone (h.trans (List.suffix_cons o w').isInfix)
  rw [← List.dropLast_concat_getLast hw, ← List.append_assoc f, List.append_assoc _ [_],
    List.singleton_append, infix_cut hb (hlast _ (List.getLast?_eq_some_getLast hw))]
  refine or_congr_left ⟨fun h => hfront.mp (h.trans ?_), fun h => h.trans List.infix_append_left⟩
  nth_rewrite 2 [← List.dropLast_concat_getLast hw]
  rw [← List.append_assoc]
  exact List.infix_append_left

end Overlap

instance Cuts.decidable (w b : List α) : Decidable (Cuts w b) := inferInstanceAs (Decidable (_ ∧ _))

theorem indexOf_append (hb : b ≠ []) (ho : o ∉ b) (ht : ¬ b <:+: t) (f : List α) :
    indexOf b (f ++ o :: t) = indexOf b f := by
  rcases indexOf_cases b f with ⟨hnone, hf⟩ | ⟨p, hp, heq⟩
  · rw [hnone, indexOf_eq_neg_one, infix_cut hb ho]
    exact not_or_intro hf ht
  · rw [heq, (hp.append_right fun h => ho (List.mem_of_mem_tail h)).indexOf]

theorem Cuts.indexOf_append (h : Cuts w b) (ht : ¬ b <:+: t) (f : List α) :
    Marks.indexOf b (f ++ (w ++ t)) = Marks.indexOf b f := by
  have hrest : ¬ b <:+: w ++ t := by
    rw [← List.nil_append w, h.infix_iff, List.infix_nil]
    exact not_or_intro h.2.1 ht
  obtain ⟨hw, hb, hhead, -⟩ := h
  obtain ⟨o, w, rfl⟩ := List.exists_cons_of_ne_nil hw
  exact Marks.indexOf_append hb (hhead o rfl) (fun hfound =>
    hrest (hfound.trans (List.suffix_cons o _).isInfix)) f

/-! ## Marks -/

/-- The sequence opens with `o` and closes with `c`, and holds neither at another place. -/
structure IsMark (o c : α) (b : List α) : Prop where
  opens : b.head? = some o
  opens_once : o ∉ b.tail
  closes : b.getLast? = some c
  closes_once : c ∉ b.dropLast

instance IsMark.decidable (o c : α) (b : List α) : Decidable (IsMark o c b) :=
  decidable_of_iff (b.head? = some o ∧ o ∉ b.tail ∧ b.getLast? = some c ∧ c ∉ b.dropLast)
    ⟨fun ⟨h₁, h₂, h₃, h₄⟩ => ⟨h₁, h₂, h₃, h₄⟩, fun ⟨h₁, h₂, h₃, h₄⟩ => ⟨h₁, h₂, h₃, h₄⟩⟩

namespace IsMark

omit [DecidableEq α]

theorem eq_cons (h : IsMark o c b) : b = o :: b.tail := by
  cases b with
  | nil => cases h.opens
  | cons x xs =>
      cases h.opens
      rfl

theorem eq_concat (h : IsMark o c b) : b = b.dropLast ++ [c] := by
  obtain ⟨xs, hxs⟩ := List.getLast?_eq_some_iff.mp h.closes
  rw [hxs, List.dropLast_concat]

/-- A mark inside a mark is the whole of it. -/
theorem eq_of_infix (hb : IsMark o c b) (hb' : IsMark o c b') (h : b <:+: b') : b = b' := by
  obtain ⟨p, r, rfl⟩ := h
  have hp : p = [] := by
    cases p with
    | nil => rfl
    | cons x xs =>
        refine absurd ?_ hb'.opens_once
        rw [hb.eq_cons]
        simp
  subst hp
  cases r using List.reverseRecOn with
  | nil => simp
  | append_singleton r x =>
      refine absurd ?_ hb'.closes_once
      rw [← List.append_assoc, List.dropLast_concat, hb.eq_concat]
      simp

/-- A mark is found before another mark, as it, or behind it. -/
theorem infix_append_mark (hb : IsMark o c b) (hb' : IsMark o c b') :
    b <:+: f ++ b' ++ s ↔ b <:+: f ∨ b = b' ∨ b <:+: s := by
  have hcons : f ++ b' ++ s = f ++ o :: (b'.tail ++ s) := by
    rw [List.append_assoc, ← List.cons_append, ← hb'.eq_cons]
  have hconcat : o :: (b'.tail ++ s) = b'.dropLast ++ c :: s := by
    rw [← List.cons_append, ← hb'.eq_cons]
    nth_rewrite 1 [hb'.eq_concat]
    rw [List.append_assoc, List.singleton_append]
  rw [hcons, infix_append_cons hb.opens_once, hconcat, infix_concat_append hb.closes_once,
    ← hb'.eq_concat]
  constructor
  · rintro (h | h | h)
    · exact Or.inl h
    · exact Or.inr (Or.inl (hb.eq_of_infix hb' h))
    · exact Or.inr (Or.inr h)
  · rintro (h | rfl | h)
    · exact Or.inl h
    · exact Or.inr (Or.inl List.infix_rfl)
    · exact Or.inr (Or.inr h)

/-- The first place of a mark that nothing before it holds. -/
theorem firstAt (h : IsMark o c b) (hp : ¬ b <:+: p) : FirstAt b p (p ++ b ++ r) := by
  have hstart : FirstAt b [] (o :: (b.tail ++ r)) := by
    rw [← List.cons_append, ← h.eq_cons]
    exact FirstAt.start
  have hfirst := hstart.append_left h.opens_once hp
  rw [List.append_nil, ← List.cons_append, ← h.eq_cons, ← List.append_assoc] at hfirst
  exact hfirst

theorem firstAt_iff (h : IsMark o c b) : FirstAt b p (p ++ b ++ r) ↔ ¬ b <:+: p := by
  constructor
  · rintro ⟨-, hfirst⟩ ⟨p', r', hp⟩
    have hle := hfirst p' (r' ++ b ++ r) (by rw [← hp]; simp only [List.append_assoc])
    rw [← hp, h.eq_cons] at hle
    simp only [List.length_append, List.length_cons] at hle
    omega
  · exact h.firstAt

end IsMark

/-! ## Records -/

/-- A part of a record: its mark, the text written behind it, and the texts that are read as
the value of the part. -/
structure Slot (α : Type) where
  mark : List α
  text : List α
  good : List α → Prop

/-- The parts one after the other, each behind its mark. -/
def texts (slots : List (Slot α)) : List α := slots.flatMap fun x => x.mark ++ x.text

/-- The texts read in `s` for the parts, which end where the mark of the next one begins, are
texts of their values. -/
def Restores (s : List α) : List (Slot α) → Prop
  | [] => True
  | [x] => ∃ v, after x.mark s = some v ∧ x.good v
  | x :: y :: rest => (∃ v, between x.mark y.mark s = some v ∧ x.good v) ∧ Restores s (y :: rest)

/-- The parts have marks of their own, and no text that breaks off at a mark is still a text of
the value. -/
structure Layout (o c : α) (slots : List (Slot α)) : Prop where
  marks : ∀ x ∈ slots, IsMark o c x.mark
  nodup : (slots.map Slot.mark).Nodup
  fragile : ∀ x ∈ slots, ∀ y ∈ slots, ∀ v r, x.text = v ++ y.mark ++ r → ¬ x.good v

section Records

variable {x y z : Slot α} {slots rest pre post : List (Slot α)}

omit [DecidableEq α] in
@[simp] theorem texts_nil : texts ([] : List (Slot α)) = [] := rfl

omit [DecidableEq α] in
@[simp] theorem texts_cons : texts (x :: slots) = x.mark ++ x.text ++ texts slots := by
  rw [texts, List.flatMap_cons, texts]

omit [DecidableEq α] in
@[simp] theorem texts_append : texts (pre ++ post) = texts pre ++ texts post := by
  rw [texts, List.flatMap_append, texts, texts]

omit [DecidableEq α] in
theorem Layout.tail (h : Layout o c (x :: slots)) : Layout o c slots where
  marks z hz := h.marks z (List.mem_cons_of_mem _ hz)
  nodup := (List.nodup_cons.mp h.nodup).2
  fragile z hz y hy := h.fragile z (List.mem_cons_of_mem _ hz) y (List.mem_cons_of_mem _ hy)

/-- In a record that is restored a text of the value of the last part was read. -/
theorem Restores.exists_last (h : Restores s (slots ++ [z])) : ∃ v, z.good v := by
  induction slots with
  | nil =>
      obtain ⟨v, -, hv⟩ := h
      exact ⟨v, hv⟩
  | cons x slots ih =>
      cases slots with
      | nil => exact ih h.2
      | cons y slots => exact ih h.2

/-- A part is restored exactly if its text is whole, and this is the case exactly if the next
mark is not found before. -/
theorem between_good_iff (hx : FirstAt x.mark p (p ++ x.mark ++ x.text ++ y.mark ++ t))
    (hy : IsMark o c y.mark) (hfragile : ∀ v r, x.text = v ++ y.mark ++ r → ¬ x.good v) :
    (∃ v, between x.mark y.mark (p ++ x.mark ++ x.text ++ y.mark ++ t) = some v ∧ x.good v) ↔
      x.good x.text ∧ ¬ y.mark <:+: p ++ x.mark ++ x.text := by
  simp only [between_eq_some hx]
  constructor
  · rintro ⟨v, hv, hgood⟩
    obtain ⟨⟨r, hr⟩, hfirst⟩ := hv
    have hrest : x.text ++ o :: (y.mark.tail ++ t) = v ++ y.mark ++ r := by
      rw [← List.cons_append, ← hy.eq_cons]
      simpa only [List.append_assoc, List.append_cancel_left_eq] using hr
    rcases append_cons_eq hy.opens_once hrest with ⟨r', hbreak⟩ | ⟨w, rfl⟩
    · exact absurd hgood (hfragile v r' hbreak)
    · have hle := hfirst (p ++ x.mark ++ x.text) t rfl
      have hw : w = [] := by
        rw [← List.append_assoc, List.length_append] at hle
        exact List.length_eq_zero_iff.mp (by omega)
      subst hw
      rw [List.append_nil] at hgood hfirst
      exact ⟨hgood, hy.firstAt_iff.mp ⟨⟨t, rfl⟩, hfirst⟩⟩
  · rintro ⟨hgood, hnone⟩
    exact ⟨x.text, hy.firstAt hnone, hgood⟩

/-- The parts of a record are restored exactly if the texts are texts of their values and none
holds the mark of a later part. -/
theorem restores_append_iff (h : Layout o c (x :: rest)) (hp : ¬ x.mark <:+: p) :
    Restores (p ++ texts (x :: rest)) (x :: rest) ↔
      (∀ z ∈ x :: rest, z.good z.text) ∧ (∀ y ∈ rest, ¬ y.mark <:+: p) ∧
        (x :: rest).Pairwise fun y z => ¬ z.mark <:+: y.text := by
  have hxmark := h.marks x List.mem_cons_self
  induction rest generalizing x p with
  | nil =>
      have hfirst := hxmark.firstAt hp (r := x.text)
      simp only [texts_cons, texts_nil, List.append_nil, Restores, ← List.append_assoc,
        after_eq hfirst,
        Option.some.injEq, exists_eq_left', List.forall_mem_cons, List.not_mem_nil, false_imp_iff,
        implies_true, and_true, List.pairwise_singleton]
  | cons y rest ih =>
      have hymark := h.marks y (by simp)
      have hfirst : FirstAt x.mark p (p ++ x.mark ++ x.text ++ y.mark ++
        (y.text ++ texts rest)) := by
        rw [List.append_assoc _ y.mark, List.append_assoc _ x.text]
        exact hxmark.firstAt hp
      have hnext := between_good_iff hfirst hymark (h.fragile x (by simp) y (by simp))
      have hmark : ∀ z ∈ y :: rest, z.mark <:+: p ++ x.mark ++ x.text ↔
          z.mark <:+: p ∨ z.mark <:+: x.text := by
        intro z hz
        have hne : z.mark ≠ x.mark := by
          intro heq
          refine (List.nodup_cons.mp h.nodup).1 ?_
          rw [← heq]
          exact List.mem_map_of_mem hz
        rw [(h.marks z (List.mem_cons_of_mem _ hz)).infix_append_mark hxmark]
        simp only [hne, false_or]
      have hs : p ++ texts (x :: y :: rest) = p ++ x.mark ++ x.text ++ y.mark ++
          (y.text ++ texts rest) := by
        simp only [texts_cons, List.append_assoc]
      have hs' : p ++ texts (x :: y :: rest) = p ++ x.mark ++ x.text ++ texts (y :: rest) := by
        simp only [texts_cons, List.append_assoc]
      rw [Restores, hs, hnext, ← hs, hs', List.pairwise_cons]
      constructor
      · rintro ⟨⟨hgood, hy⟩, hrest⟩
        obtain ⟨hgoods, hfront, hpairs⟩ := (ih h.tail hy hymark).mp hrest
        have hfree : ∀ z ∈ y :: rest, ¬ z.mark <:+: p ++ x.mark ++ x.text := by
          rw [List.forall_mem_cons]
          exact ⟨hy, hfront⟩
        refine ⟨?_, fun z hz hin => hfree z hz ((hmark z hz).mpr (Or.inl hin)),
          fun z hz hin => hfree z hz ((hmark z hz).mpr (Or.inr hin)), hpairs⟩
        rw [List.forall_mem_cons]
        exact ⟨hgood, hgoods⟩
      · rintro ⟨hgoods, hfront, hfirst, hpairs⟩
        rw [List.forall_mem_cons] at hgoods
        have hfree : ∀ z ∈ y :: rest, ¬ z.mark <:+: p ++ x.mark ++ x.text := fun z hz hin =>
          ((hmark z hz).mp hin).elim (hfront z hz) (hfirst z hz)
        have hy := hfree y List.mem_cons_self
        exact ⟨⟨hgoods.1, hy⟩, (ih h.tail hy hymark).mpr
          ⟨hgoods.2, fun z hz => hfree z (List.mem_cons_of_mem _ hz), hpairs⟩⟩

/-- A record that breaks off inside a part before the last is not restored. -/
theorem not_restores_break (h : Layout o c (pre ++ x :: y :: post)) (hf : f <+: x.text)
    (hp : ∀ z ∈ (pre ++ [x]).head?, ¬ z.mark <:+: p) :
    ¬ Restores (p ++ texts pre ++ x.mark ++ f) (pre ++ x :: y :: post) := by
  intro hrestores
  induction pre generalizing p with
  | nil =>
      have hfirst : FirstAt x.mark p (p ++ texts [] ++ x.mark ++ f) := by
        rw [texts_nil, List.append_nil]
        exact (h.marks x List.mem_cons_self).firstAt (hp x rfl)
      obtain ⟨v, hv, hgood⟩ := hrestores.1
      obtain ⟨⟨r, hr⟩, -⟩ := (between_eq_some hfirst).mp hv
      have hbreak : f = v ++ y.mark ++ r := by
        simpa only [texts_nil, List.append_nil, List.append_assoc,
          List.append_cancel_left_eq] using hr
      obtain ⟨g, hg⟩ := hf
      refine h.fragile x List.mem_cons_self y (by simp) v (r ++ g) ?_ hgood
      rw [← hg, hbreak, List.append_assoc]
  | cons z pre ih =>
      obtain ⟨w, rest, hrest⟩ : ∃ w rest, pre ++ x :: y :: post = w :: rest ∧
          (pre ++ [x]).head? = some w ∧ ∃ t, texts pre ++ x.mark ++ f = w.mark ++ t := by
        cases pre with
        | nil => exact ⟨x, y :: post, rfl, rfl, f, rfl⟩
        | cons w pre =>
            refine ⟨w, pre ++ x :: y :: post, rfl, rfl, w.text ++ texts pre ++ x.mark ++ f, ?_⟩
            simp only [texts_cons, List.append_assoc]
      obtain ⟨hlist, hhead, t, ht⟩ := hrest
      rw [List.cons_append, hlist] at h hrestores
      have hs : p ++ texts (z :: pre) ++ x.mark ++ f = p ++ z.mark ++ z.text ++ w.mark ++ t := by
        rw [texts_cons, List.append_assoc _ w.mark, ← ht]
        simp only [List.append_assoc]
      have hfirst : FirstAt z.mark p (p ++ z.mark ++ z.text ++ w.mark ++ t) := by
        rw [List.append_assoc _ w.mark, List.append_assoc _ z.text]
        exact (h.marks z List.mem_cons_self).firstAt (hp z rfl)
      have hfree := ((between_good_iff hfirst (h.marks w (by simp))
        (h.fragile z List.mem_cons_self w (by simp))).mp (by rw [← hs]; exact hrestores.1)).2
      have hs' : p ++ texts (z :: pre) ++ x.mark ++ f = p ++ z.mark ++ z.text ++ texts pre ++
          x.mark ++ f := by
        simp only [texts_cons, List.append_assoc]
      refine ih (by rw [hlist]; exact h.tail) ?_ (by rw [hlist, ← hs']; exact hrestores.2)
      rintro w' hw'
      rw [hhead] at hw'
      cases hw'
      exact hfree

/-! ### The end of a record -/

/-- What stands between the first `b` and the first `e`, with `k` symbols of the latter. -/
def record (b e : List α) (k : Nat) (s : List α) : Option (List α) :=
  slice (indexOf b s + b.length) (indexOf e s + k) s

theorem record_eq {k : Nat} (hb : FirstAt b [] s) (he : FirstAt e (b ++ q) s) (hk : k ≤ e.length) :
    record b e k s = some (q ++ e.take k) := by
  obtain ⟨r, hr⟩ := he.1
  rw [record, hb.indexOf, he.indexOf, slice_eq_some]
  refine ⟨b, e.drop k ++ r, ?_, ?_, ?_⟩
  · rw [hr]
    nth_rewrite 1 [← List.take_append_drop k e]
    simp only [List.append_assoc]
  · rw [List.length_nil]
    omega
  · simp only [List.length_append, List.length_take]
    omega

omit [DecidableEq α] in
theorem exists_cons_texts (h : ∀ x ∈ slots, IsMark o c x.mark) :
    ∃ t', texts slots ++ o :: t = o :: t' := by
  cases slots with
  | nil => exact ⟨t, rfl⟩
  | cons x slots =>
      rw [texts_cons, (h x List.mem_cons_self).eq_cons]
      exact ⟨_, rfl⟩

variable (ho : o ∉ e.tail) (hu : e.head? = some u)

include ho hu

/-- The first place of the end mark in a sequence of parts: in none of them, or in one that is
the first to hold it. -/
theorem firstAt_texts (hmarks : ∀ x ∈ slots, IsMark o c x.mark ∧ u ∉ x.mark) (hp : ¬ e <:+: p) :
    ((∀ x ∈ slots, ¬ e <:+: x.text) ∧ ¬ e <:+: p ++ texts slots) ∨
      ∃ pre x post f, slots = pre ++ x :: post ∧ (∃ g, x.text = f ++ e ++ g) ∧
        ∀ t, FirstAt e (p ++ texts pre ++ x.mark ++ f) (p ++ texts slots ++ o :: t) := by
  induction slots generalizing p with
  | nil =>
      exact Or.inl ⟨fun x hx => absurd hx List.not_mem_nil, by rwa [texts_nil, List.append_nil]⟩
  | cons x slots ih =>
      rw [List.forall_mem_cons] at hmarks
      obtain ⟨⟨hmark, hux⟩, hmarks⟩ := hmarks
      have hcons : ∀ s, p ++ x.mark ++ s = p ++ o :: (x.mark.tail ++ s) := fun s => by
        rw [List.append_assoc, ← List.cons_append, ← hmark.eq_cons]
      by_cases hx : e <:+: x.text
      · obtain ⟨f, hf⟩ := exists_firstAt hx
        obtain ⟨g, hg⟩ := hf.1
        refine Or.inr ⟨[], x, slots, f, rfl, ⟨g, hg⟩, fun t => ?_⟩
        obtain ⟨t', ht'⟩ := exists_cons_texts (fun x hx => (hmarks x hx).1) (t := t)
        have hskip := (hf.append_right ho (t := t')).skip hu hux
        have hopen : x.mark ++ (x.text ++ o :: t') = o :: (x.mark.tail ++ (x.text ++ o :: t')) := by
          rw [← List.cons_append, ← hmark.eq_cons]
        rw [hopen] at hskip
        have hfirst := hskip.append_left ho hp
        rw [← hopen] at hfirst
        simpa only [texts_nil, texts_cons, List.append_nil, List.append_assoc, ht'] using hfirst
      · have hp' : ¬ e <:+: p ++ x.mark ++ x.text := by
          rw [hcons, infix_append_cons ho, ← List.cons_append, ← hmark.eq_cons, infix_skip hu hux]
          exact not_or_intro hp hx
        rcases ih hmarks hp' with ⟨hnone, hall⟩ | ⟨pre, y, post, f, hslots, hg, hfirst⟩
        · refine Or.inl ⟨?_, ?_⟩
          · rw [List.forall_mem_cons]
            exact ⟨hx, hnone⟩
          · simpa only [texts_cons, List.append_assoc] using hall
        · refine Or.inr ⟨x :: pre, y, post, f, by rw [hslots, List.cons_append], hg, fun t => ?_⟩
          simpa only [texts_cons, List.append_assoc] using hfirst t

/-- A record is cut out whole exactly if no part holds the end mark, and a record that is cut
elsewhere is not restored. The last part holds no symbol that the end mark opens with. -/
theorem record_restores_iff {k : Nat} (h : Layout o c (slots ++ [z])) (hk : k ≤ e.length)
    (hmarks : ∀ x ∈ slots ++ [z], u ∉ x.mark ∧ ¬ x.mark <:+: a) (hb : u ∉ b) (ha : u ∉ a)
    (hf : u ∉ f) (htext : z.text = f ++ e.take k) :
    (∃ r, record b e k (b ++ a ++ texts slots ++ z.mark ++ f ++ e ++ t) = some r ∧
        Restores r (slots ++ [z])) ↔
      (∀ x ∈ slots, ¬ e <:+: x.text) ∧ (∀ x ∈ slots ++ [z], x.good x.text) ∧
        (slots ++ [z]).Pairwise fun x y => ¬ y.mark <:+: x.text := by
  have hzmark := h.marks z (by simp)
  have hzu := (hmarks z (by simp)).1
  have hnone : ¬ e <:+: b ++ a := by
    rintro hfound
    have hmem : u ∈ b ++ a := hfound.subset (List.mem_of_mem_head? hu)
    exact (List.mem_append.mp hmem).elim hb ha
  have hstart : FirstAt b [] (b ++ a ++ texts slots ++ z.mark ++ f ++ e ++ t) := by
    simp only [List.append_assoc]
    exact FirstAt.start
  have hopen : ∀ s, z.mark ++ s = o :: (z.mark.tail ++ s) := fun s => by
    rw [← List.cons_append, ← hzmark.eq_cons]
  have hinit : ∀ x ∈ slots, IsMark o c x.mark ∧ u ∉ x.mark := fun x hx =>
    ⟨h.marks x (by simp [hx]), (hmarks x (by simp [hx])).1⟩
  rcases firstAt_texts ho hu hinit hnone with
    ⟨hparts, hall⟩ | ⟨pre, x, post, v, hslots, ⟨g, hg⟩, hfirst⟩
  · have hlast : FirstAt e (z.mark ++ f) (z.mark ++ f ++ (e ++ t)) := by
      have hskip := (FirstAt.start (b := e) (r := t)).skip hu (w := z.mark ++ f) (by
        rw [List.mem_append]
        exact not_or_intro hzu hf)
      rwa [List.append_nil] at hskip
    have hfirst : FirstAt e (b ++ (a ++ texts slots ++ z.mark ++ f))
        (b ++ a ++ texts slots ++ z.mark ++ f ++ e ++ t) := by
      rw [List.append_assoc z.mark, hopen (f ++ (e ++ t))] at hlast
      have happend := hlast.append_left ho hall
      rw [← hopen] at happend
      simpa only [List.append_assoc] using happend
    have hrecord : a ++ texts slots ++ z.mark ++ f ++ e.take k = a ++ texts (slots ++ [z]) := by
      simp only [texts_append, texts_cons, texts_nil, htext, List.append_assoc, List.append_nil]
    rw [record_eq hstart hfirst hk, hrecord]
    simp only [Option.some.injEq, exists_eq_left']
    cases hlist : slots ++ [z] with
    | nil => simp at hlist
    | cons y rest =>
        rw [hlist] at h hmarks
        rw [restores_append_iff h (hmarks y List.mem_cons_self).2]
        exact ⟨fun ⟨hgood, _, hpairs⟩ => ⟨hparts, hgood, hpairs⟩, fun ⟨_, hgood, hpairs⟩ =>
          ⟨hgood, fun y hy => (hmarks y (List.mem_cons_of_mem _ hy)).2, hpairs⟩⟩
  · refine iff_of_false ?_ fun ⟨hparts, _⟩ => hparts x (by simp [hslots]) ⟨v, g, hg.symm⟩
    rintro ⟨r, hr, hrestores⟩
    have hcut : FirstAt e (b ++ (a ++ texts pre ++ x.mark ++ v))
        (b ++ a ++ texts slots ++ z.mark ++ f ++ e ++ t) := by
      have hwhole := hfirst (z.mark.tail ++ (f ++ (e ++ t)))
      rw [← hopen] at hwhole
      simpa only [List.append_assoc] using hwhole
    rw [record_eq hstart hcut hk] at hr
    cases hr
    obtain ⟨y, post', hpost⟩ : ∃ y post', post ++ [z] = y :: post' := by
      cases post with
      | nil => exact ⟨z, [], rfl⟩
      | cons y post => exact ⟨y, post ++ [z], rfl⟩
    have hlist : slots ++ [z] = pre ++ x :: y :: post' := by
      rw [hslots, List.append_assoc, List.cons_append, hpost]
    rw [hlist] at h hmarks hrestores
    rw [List.append_assoc (a ++ texts pre ++ x.mark)] at hrestores
    refine not_restores_break h ?_ ?_ hrestores
    · rw [hg, List.append_assoc, List.prefix_append_right_inj]
      exact (List.take_prefix k e).trans (List.prefix_append e g)
    · intro w hw
      refine (hmarks w ?_).2
      have hmem := List.mem_of_mem_head? hw
      simp only [List.mem_append, List.mem_cons, List.not_mem_nil, or_false] at hmem ⊢
      exact hmem.imp_right Or.inl

end Records

end Marks
