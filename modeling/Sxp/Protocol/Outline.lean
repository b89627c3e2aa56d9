-- SUMMARY: The optimistic exchange in outline, with rounds, promises and signatures as flags: when everybody ends up with everything.
import Sxp.Base.Machine
import Mathlib.Data.Bool.Basic
import Mathlib.Logic.Function.Basic

/-!
# The optimistic exchange in outline

What matters of a party is its round, whose promises and signatures it has, and whether it
is still signing. The message that a party sends in round `n + 1` is its `n`th one. Nothing
is lost on the way, and a message is handled once, in any order; but a party that has stopped
listening may discard it.
-/

namespace Sxp

inductive ExchangeEvent where
  | start (i : Nat) (coins : Nat → Nat)
  | deliver (i j n : Nat)
  | advance (i : Nat) (coins : Nat → Nat)
  | discard (i j n : Nat)

/-- The state of all parties: `has i r j` says that `i` has the promise of `j` for round `r`,
`holds i j` that it has the signature of `j`. Round zero is before the start. -/
structure Outline where
  round : Nat → Nat := fun _ => 0
  has : Nat → Nat → Nat → Bool := fun _ _ _ => false
  holds : Nat → Nat → Bool := fun _ _ => false
  signing : Nat → Bool := fun _ => false
  taken : Nat → Nat → Nat → Bool := fun _ _ _ => false
  listening : Nat → Bool := fun _ => true

namespace Outline

/-! ## Flags -/

/-- `i` has now the promise of `j` for round `r`. -/
def receive (a : Outline) (i r j : Nat) : Outline :=
  { a with has := fun i' r' j' => (i' == i && r' == r && j' == j) || a.has i' r' j' }

/-- The `n`th message of `j` to `i` is no longer in flight. -/
def take (a : Outline) (i j n : Nat) : Outline :=
  { a with taken := fun i' j' n' => (i' == i && j' == j && n' == n) || a.taken i' j' n' }

/-- `i` has now the signature of `j`. Once it has the one of the first party it takes the contract
for finalized. -/
def hold (a : Outline) (i j : Nat) : Outline :=
  { a with
    holds := fun i' j' => (i' == i && j' == j) || a.holds i' j'
    signing := fun i' => a.signing i' && !(i' == i && (j == 0 || a.holds i 0)) }

/-- `i` stops listening if it takes the contract for finalized. -/
def unlisten (a : Outline) (i : Nat) : Outline :=
  { a with listening := fun i' => a.listening i' && !(i' == i && a.holds i 0) }

def enter (a : Outline) (i r : Nat) : Outline :=
  { a with round := Function.update a.round i r }

/-! ## The machine -/

variable (N : Nat)

/-- `i` has all promises for its round. -/
def CanAdvance (a : Outline) (i : Nat) : Prop :=
  1 ≤ a.round i ∧ a.round i ≤ N + 1 ∧ a.signing i = true ∧ ∀ k < N, a.has i (a.round i) k = true

instance (a : Outline) (i : Nat) : Decidable (a.CanAdvance N i) :=
  inferInstanceAs (Decidable (_ ∧ _ ∧ _ ∧ _))

/-- The `n`th message of `j` is on its way to `i`, which has started. -/
def InFlight (a : Outline) (i j n : Nat) : Prop :=
  i < N ∧ i ≠ j ∧ a.round i ≠ 0 ∧ n < a.round j ∧ a.taken i j n = false

instance (a : Outline) (i j n : Nat) : Decidable (a.InFlight N i j n) :=
  inferInstanceAs (Decidable (_ ∧ _ ∧ _ ∧ _ ∧ _))

def step (a : Outline) : ExchangeEvent → Outline
  | .start i _ =>
      if i < N ∧ a.round i = 0 then
        { (a.enter i 1).receive i 1 i with signing := Function.update a.signing i true }
      else a
  | .deliver i j n =>
      if a.InFlight N i j n then
        if n ≤ N then (a.take i j n).receive i (n + 1) j
        else ((a.take i j n).hold i j).unlisten i
      else a
  | .advance i _ =>
      if a.CanAdvance N i then
        if a.round i ≤ N then (a.enter i (a.round i + 1)).receive i (a.round i + 1) i
        else (a.enter i (a.round i + 1)).hold i i
      else a
  | .discard i j n =>
      if a.InFlight N i j n ∧ a.listening i = false then a.take i j n else a

def machine : Machine Outline ExchangeEvent Unit where
  init := {}
  step a ev := (a.step N ev, ())

/-- All have started, nobody can go on by itself, and nothing is in flight. -/
def Quiescent (a : Outline) : Prop :=
  ∀ i < N, a.round i ≠ 0 ∧ ¬ a.CanAdvance N i ∧ ∀ j < N, i ≠ j →
    ∀ n < a.round j, a.taken i j n = true

instance (a : Outline) : Decidable (a.Quiescent N) :=
  inferInstanceAs (Decidable (∀ i < N, _ ∧ _ ∧ _))

/-- Everybody is in the last round and has all signatures. -/
def Fair (a : Outline) : Prop :=
  ∀ i < N, a.round i = N + 2 ∧ ∀ j < N, a.holds i j = true

instance (a : Outline) : Decidable (a.Fair N) :=
  inferInstanceAs (Decidable (∀ i < N, _ ∧ _))

/-- The first party's signature is not handled by a party that has not sent its own, and no
signature is discarded that is not there. -/
def Patient (a : Outline) : ExchangeEvent → Prop
  | .deliver i j n => a.InFlight N i j n → N < n → j = 0 → a.round i = N + 2
  | .discard i j n => a.InFlight N i j n → a.listening i = false → N < n → a.holds i j = true
  | _ => True

/-! ## What an event does -/

/-- What an event can do, with the condition under which it does. -/
inductive Change (a : Outline) : ExchangeEvent → Outline → Prop
  | none (ev : ExchangeEvent) : Change a ev a
  | start (i : Nat) (coins : Nat → Nat) (hi : i < N) (hround : a.round i = 0) :
      Change a (.start i coins)
        { (a.enter i 1).receive i 1 i with signing := Function.update a.signing i true }
  | promise (i j n : Nat) (hflight : a.InFlight N i j n) (hn : n ≤ N) :
      Change a (.deliver i j n) ((a.take i j n).receive i (n + 1) j)
  | signature (i j n : Nat) (hflight : a.InFlight N i j n) (hn : N < n) :
      Change a (.deliver i j n) (((a.take i j n).hold i j).unlisten i)
  | next (i : Nat) (coins : Nat → Nat) (hcan : a.CanAdvance N i) (hround : a.round i ≤ N) :
      Change a (.advance i coins) ((a.enter i (a.round i + 1)).receive i (a.round i + 1) i)
  | last (i : Nat) (coins : Nat → Nat) (hcan : a.CanAdvance N i) (hround : a.round i = N + 1) :
      Change a (.advance i coins) ((a.enter i (a.round i + 1)).hold i i)
  | discard (i j n : Nat) (hflight : a.InFlight N i j n) (hlistening : a.listening i = false) :
      Change a (.discard i j n) (a.take i j n)

theorem step_change (a : Outline) (ev : ExchangeEvent) : Change N a ev (a.step N ev) := by
  cases ev with
  | start i coins =>
      simp only [step]
      split
      · rename_i h
        exact .start i coins h.1 h.2
      · exact .none _
  | deliver i j n =>
      simp only [step]
      split
      · rename_i hflight
        split
        · rename_i hn
          exact .promise i j n hflight hn
        · rename_i hn
          exact .signature i j n hflight (Nat.lt_of_not_le hn)
      · exact .none _
  | advance i coins =>
      simp only [step]
      split
      · rename_i hcan
        split
        · rename_i hround
          exact .next i coins hcan hround
        · rename_i hround
          exact .last i coins hcan (by have := hcan.2.1; omega)
      · exact .none _
  | discard i j n =>
      simp only [step]
      split
      · rename_i h
        exact .discard i j n h.1 h.2
      · exact .none _

/-! ## What holds in every state -/

/-- Nobody gets past the last round, only parties start and have anything, and whoever has started
has its own promises and, in the last round, its own signature. -/
structure Sound (a : Outline) : Prop where
  round_le : ∀ i, a.round i ≤ N + 2
  party : ∀ i, a.round i ≠ 0 → i < N
  own : ∀ i r, 1 ≤ r → r ≤ a.round i → r ≤ N + 1 → a.has i r i = true
  own_signature : ∀ i, a.holds i i = true ↔ a.round i = N + 2
  idle : ∀ i, a.round i = 0 → (∀ r j, a.has i r j = false) ∧ ∀ j, a.holds i j = false

theorem sound_init : Sound N (machine N).init where
  round_le _ := Nat.zero_le _
  party i h := absurd rfl h
  own i r hpos hr := absurd hr (by simp [machine]; omega)
  own_signature i := by simp [machine]
  idle _ _ := ⟨fun _ _ => rfl, fun _ => rfl⟩

variable {N}

theorem Sound.change {a a' : Outline} (h : Sound N a) {ev : ExchangeEvent} (hc : Change N a ev a') :
    Sound N a' := by
  obtain ⟨hle, hparty, hown, hsig, hidle⟩ := h
  cases hc with
  | none => exact ⟨hle, hparty, hown, hsig, hidle⟩
  | start i coins hi hround =>
      constructor <;> simp only [receive, enter, Function.update_apply] <;> grind
  | promise i j n hflight hn =>
      obtain ⟨-, hne, hstarted, -⟩ := hflight
      constructor <;> simp only [receive, take] <;> grind
  | signature i j n hflight hn =>
      obtain ⟨-, hne, hstarted, -⟩ := hflight
      constructor <;> simp only [hold, take, unlisten] <;> grind
  | next i coins hcan hround =>
      constructor <;> simp only [receive, enter, Function.update_apply] <;> grind [CanAdvance]
  | last i coins hcan hround =>
      constructor <;> simp only [hold, enter, Function.update_apply] <;> grind [CanAdvance]
  | discard i j n hflight hlistening => exact ⟨hle, hparty, hown, hsig, hidle⟩

theorem sound_exec (events : List ExchangeEvent) :
    Sound N ((machine N).exec (machine N).init events) :=
  (machine N).exec_preserves (fun a ev h => h.change (a.step_change N ev)) (sound_init N) events

/-! ## Patience is enough -/

/-- Nobody stops before its last round, and nothing that was taken is lost, but for promises that
come too late to matter. -/
structure Unhurried (N : Nat) (a : Outline) : Prop extends Sound N a where
  early : ∀ i, a.round i ≤ N + 1 →
    a.holds i 0 = false ∧ a.listening i = true ∧ (a.round i ≠ 0 → a.signing i = true)
  taken_promise : ∀ i j n, a.taken i j n = true → n ≤ N →
    a.round i = N + 2 ∨ a.has i (n + 1) j = true
  taken_signature : ∀ i j n, a.taken i j n = true → N < n → a.holds i j = true

theorem unhurried_init : Unhurried N (machine N).init where
  toSound := sound_init N
  early i _ := ⟨rfl, rfl, fun h => absurd rfl h⟩
  taken_promise i j n h := by cases h
  taken_signature i j n h := by cases h

theorem Unhurried.change {a a' : Outline} (h : Unhurried N a) {ev : ExchangeEvent}
    (hc : Change N a ev a') (hpatient : a.Patient N ev) : Unhurried N a' := by
  have hsound := h.toSound.change hc
  obtain ⟨⟨hle, -, -, -, -⟩, hearly, hpromise, hsignature⟩ := h
  cases hc with
  | none => exact ⟨hsound, hearly, hpromise, hsignature⟩
  | start i coins hi hround =>
      refine ⟨hsound, ?_, ?_, ?_⟩ <;>
        simp only [receive, enter, Function.update_apply] <;> grind
  | promise i j n hflight hn =>
      refine ⟨hsound, ?_, ?_, ?_⟩ <;> simp only [receive, take] <;> grind
  | signature i j n hflight hn =>
      -- the first party's signature comes to a party that has sent its own
      have hlate : j = 0 → a.round i = N + 2 := hpatient hflight hn
      refine ⟨hsound, ?_, ?_, ?_⟩ <;> simp only [hold, take, unlisten] <;> grind
  | next i coins hcan hround =>
      refine ⟨hsound, ?_, ?_, ?_⟩ <;>
        simp only [receive, enter, Function.update_apply] <;> grind [CanAdvance]
  | last i coins hcan hround =>
      refine ⟨hsound, ?_, ?_, ?_⟩ <;> simp only [hold, enter, Function.update_apply] <;> grind
  | discard i j n hflight hlistening =>
      -- who has stopped listening is in its last round, and has what it discards
      have hheld : N < n → a.holds i j = true := hpatient hflight hlistening
      refine ⟨hsound, ?_, ?_, ?_⟩ <;> simp only [take] <;> grind

/-- With nothing in flight everybody has got through every round. -/
theorem Unhurried.round_of_quiescent {a : Outline} (h : Unhurried N a) (hq : a.Quiescent N) :
    ∀ r ≤ N + 2, ∀ i < N, r ≤ a.round i := by
  intro r
  induction r with
  | zero => exact fun _ _ _ => Nat.zero_le _
  | succ r ih =>
      intro hr i hi
      have hall := ih (by omega)
      obtain ⟨hstarted, hstuck, -⟩ := hq i hi
      rcases Nat.lt_or_ge r (a.round i) with hlt | hge
      · exact hlt
      -- whoever were still in round `r` would have all promises for it
      · have hround : a.round i = r := Nat.le_antisymm hge (hall i hi)
        refine absurd ⟨by omega, by omega, (h.early i (by omega)).2.2 hstarted, ?_⟩ hstuck
        intro k hk
        rw [hround]
        rcases Decidable.em (i = k) with rfl | hne
        · exact h.own i r (by omega) (hall i hi) (by omega)
        · have htaken := (hq i hi).2.2 k hk hne (r - 1) (by have := hall k hk; omega)
          have hgot := h.taken_promise i k (r - 1) htaken (by omega)
          rw [show r - 1 + 1 = r by omega] at hgot
          exact hgot.resolve_left (by omega)

theorem Unhurried.fair_of_quiescent {a : Outline} (h : Unhurried N a) (hq : a.Quiescent N) :
    a.Fair N := by
  have hround : ∀ i < N, a.round i = N + 2 := fun i hi =>
    Nat.le_antisymm (h.round_le i) (h.round_of_quiescent hq (N + 2) (Nat.le_refl _) i hi)
  intro i hi
  refine ⟨hround i hi, fun j hj => ?_⟩
  rcases Decidable.em (i = j) with rfl | hne
  · exact (h.own_signature i).mpr (hround i hi)
  · have htaken := (hq i hi).2.2 j hj hne (N + 1) (by rw [hround j hj]; exact Nat.lt_succ_self _)
    exact h.taken_signature i j (N + 1) htaken (Nat.lt_succ_self N)

/-! ## Impatience is never made good -/

/-- `i` has stopped before its last round, or the signature of some `j` is lost to it. -/
def Behind (N : Nat) (a : Outline) (i : Nat) : Prop :=
  (a.round i ≠ 0 ∧ a.round i ≤ N + 1 ∧ a.signing i = false) ∨
    ∃ j < N, i ≠ j ∧ a.taken i j (N + 1) = true ∧ a.holds i j = false

theorem Behind.change {a a' : Outline} (hsound : Sound N a) {i : Nat} (h : a.Behind N i)
    {ev : ExchangeEvent} (hc : Change N a ev a') : a'.Behind N i := by
  have hle := hsound.round_le
  cases hc with
  | none => exact h
  | start k coins hk hround =>
      simp only [Behind, receive, enter, Function.update_apply] at h ⊢
      grind
  | promise k j n hflight hn =>
      simp only [Behind, receive, take] at h ⊢
      grind
  | signature k j n hflight hn =>
      -- a signature is handled once, so the lost one stays lost
      obtain ⟨-, -, -, hlt, htaken⟩ := hflight
      have hlast : n = N + 1 := by
        have := hle j
        omega
      simp only [Behind, hold, take, unlisten] at h ⊢
      grind
  | next k coins hcan hround =>
      simp only [Behind, receive, enter, Function.update_apply] at h ⊢
      grind [CanAdvance]
  | last k coins hcan hround =>
      simp only [Behind, hold, enter, Function.update_apply] at h ⊢
      grind [CanAdvance]
  | discard k j n hflight hlistening =>
      simp only [Behind, take] at h ⊢
      grind

theorem behind_of_impatient {a : Outline} (hsound : Sound N a) {ev : ExchangeEvent}
    (h : ¬ a.Patient N ev) : ∃ i < N, (a.step N ev).Behind N i := by
  have hle := hsound.round_le
  cases ev with
  | start i coins => exact absurd trivial h
  | advance i coins => exact absurd trivial h
  | deliver i j n =>
      simp only [Patient, Classical.not_imp] at h
      obtain ⟨hflight, hn, rfl, hround⟩ := h
      refine ⟨i, hflight.1, Or.inl ?_⟩
      simp only [step, hflight, if_true, Nat.not_le.mpr hn, if_false, hold, take, unlisten]
      have := hle i
      exact ⟨hflight.2.2.1, by omega, by simp⟩
  | discard i j n =>
      simp only [Patient, Classical.not_imp] at h
      obtain ⟨hflight, hlistening, hn, hlost⟩ := h
      obtain ⟨hi, hne, -, hlt, -⟩ := id hflight
      obtain rfl : n = N + 1 := by
        have := hle j
        omega
      refine ⟨i, hi, Or.inr ⟨j, hsound.party j (by omega), hne, ?_⟩⟩
      simp only [step, hflight, hlistening, and_self, if_true, take]
      simpa using hlost

theorem Behind.not_fair {a : Outline} {i : Nat} (hi : i < N) (h : a.Behind N i) : ¬ a.Fair N := by
  intro hfair
  rcases h with ⟨-, hround, -⟩ | ⟨j, hj, -, -, hlost⟩
  · have := (hfair i hi).1
    omega
  · rw [(hfair i hi).2 j hj] at hlost
    cases hlost

/-- A run that ends with nothing in flight is fair exactly if everybody was patient. -/
theorem fair_iff_all_patient (events : List ExchangeEvent)
    (hq : ((machine N).exec (machine N).init events).Quiescent N) :
    ((machine N).exec (machine N).init events).Fair N ↔
      ∀ t ∈ (machine N).trace (machine N).init events, t.1.Patient N t.2 := by
  constructor
  · intro hfair
    -- an impatient step leaves somebody behind for good
    have hbehind : ∀ (a : Outline), Sound N a → ((machine N).exec a events).Fair N →
        ∀ t ∈ (machine N).trace a events, t.1.Patient N t.2 := by
      clear hq hfair
      induction events with
      | nil => simp
      | cons ev events ih =>
          intro a hsound hfair
          have hnext : Sound N (a.step N ev) := hsound.change (a.step_change N ev)
          rw [Machine.trace_cons, List.forall_mem_cons]
          refine ⟨?_, ih _ hnext hfair⟩
          by_contra himpatient
          obtain ⟨i, hi, hbehind⟩ := behind_of_impatient hsound himpatient
          have hend := (machine N).exec_preserves (P := fun a => Sound N a ∧ a.Behind N i)
            (fun a ev h => ⟨h.1.change (a.step_change N ev), h.2.change h.1 (a.step_change N ev)⟩)
            ⟨hnext, hbehind⟩ events
          exact hend.2.not_fair hi hfair
    exact hbehind _ (sound_init N) hfair
  · intro hpatient
    have hend : Unhurried N ((machine N).exec (machine N).init events) :=
      (machine N).exec_preserves_of_trace (fun a ev h hp => h.change (a.step_change N ev) hp)
        unhurried_init hpatient
    exact hend.fair_of_quiescent hq

end Outline

end Sxp
