-- SUMMARY: All parties choosing Trent, under every schedule: those that go on agree on a key that every party knew.
import Sxp.Base.Machine
import Sxp.Base.Unanimity
import Sxp.Choice.Announcements

/-!
# Agreement on Trent

Messages that were sent can be handled by anybody at any time, any number of times or
never, also while the receiver is inside a broadcast. The broadcasts of a party return, or
end in an exception, from the innermost outwards. Sender ids are authentic.
-/

namespace Sxp

/-- The parties of one contract, with the users each of them knows and its random number. -/
structure TrentChoice where
  parties : List ElGamalKey
  users : Nat → List ElGamalKey
  randomNumber : Nat → Int

/-- The parties, by their place in the contract. -/
abbrev ChooseState := Nat → Option ProtocolChooseTrent

inductive ChooseEvent where
  | start (i : Nat)
  | deliver (i j n : Nat)
  | returns (i : Nat)
  | throws (i : Nat)
deriving Repr, DecidableEq

namespace TrentChoice

variable (S : TrentChoice)

def party (i : Nat) : Option ProtocolChooseTrent :=
  S.parties[i]?.map fun key =>
    ProtocolChooseTrent.create S.parties (S.users i) key (S.randomNumber i)

/-- An event that is not possible does nothing. -/
def step (st : ChooseState) : ChooseEvent → ChooseState
  | .start i => Function.update st i ((st i).map (·.sendMessage))
  | .deliver i j n =>
      match (st j).bind fun c => c.sent[n]?.map fun message => (message, c.key.publicKey) with
      | some (message, senderId) =>
          Function.update st i ((st i).map fun c => (c.notify message senderId).1)
      | none => st
  | .returns i => Function.update st i ((st i).map (·.resume))
  | .throws i => Function.update st i ((st i).map (·.abandon))

def choosing : Machine ChooseState ChooseEvent Unit where
  init := S.party
  step st ev := (step st ev, ())

/-! ## What an event does -/

/-- The ways a party moves. -/
def Moves (st : ChooseState) (c c' : ProtocolChooseTrent) : Prop :=
  c' = c.sendMessage ∨
  (∃ j d message, st j = some d ∧ message ∈ d.sent ∧
    c' = (c.notify message d.key.publicKey).1) ∨
  c' = c.resume ∨ c' = c.abandon

theorem update_map (st : ChooseState) (i : Nat) (f : ProtocolChooseTrent → ProtocolChooseTrent) :
    Function.update st i ((st i).map f) = st ∨
      ∃ c, st i = some c ∧ Function.update st i ((st i).map f) =
      Function.update st i (some (f c)) := by
  cases hparty : st i with
  | none =>
      rw [Option.map_none, ← hparty, Function.update_eq_self]
      exact Or.inl rfl
  | some c => exact Or.inr ⟨c, rfl, rfl⟩

/-- An event moves one party, or does nothing. -/
theorem step_cases (st : ChooseState) (ev : ChooseEvent) :
    step st ev = st ∨
      ∃ i c c', st i = some c ∧ Moves st c c' ∧ step st ev = Function.update st i (some c') := by
  cases ev with
  | start i =>
      rcases update_map st i (·.sendMessage) with hsame | ⟨c, hc, hstep⟩
      · exact Or.inl hsame
      · exact Or.inr ⟨i, c, _, hc, Or.inl rfl, hstep⟩
  | deliver i j n =>
      simp only [step]
      split
      · rename_i message senderId heq
        simp only [Option.bind_eq_some_iff, Option.map_eq_some_iff, Prod.mk.injEq] at heq
        obtain ⟨d, hd, message', hmessage, rfl, rfl⟩ := heq
        rcases update_map st i fun c => (c.notify message' d.key.publicKey).1 with
          hsame | ⟨c, hc, hstep⟩
        · exact Or.inl hsame
        · exact Or.inr ⟨i, c, _, hc,
            Or.inr (Or.inl ⟨j, d, message', hd, List.mem_of_getElem? hmessage, rfl⟩), hstep⟩
      · exact Or.inl rfl
  | returns i =>
      rcases update_map st i (·.resume) with hsame | ⟨c, hc, hstep⟩
      · exact Or.inl hsame
      · exact Or.inr ⟨i, c, _, hc, Or.inr (Or.inr (Or.inl rfl)), hstep⟩
  | throws i =>
      rcases update_map st i (·.abandon) with hsame | ⟨c, hc, hstep⟩
      · exact Or.inl hsame
      · exact Or.inr ⟨i, c, _, hc, Or.inr (Or.inr (Or.inr rfl)), hstep⟩

theorem Moves.extends {st : ChooseState} {c c' : ProtocolChooseTrent} (h : Moves st c c') :
    c.Extends c' := by
  rcases h with rfl | ⟨j, d, message, -, -, rfl⟩ | rfl | rfl
  · exact ProtocolChooseTrent.Extends.sendMessage c
  · exact ProtocolChooseTrent.Extends.notify c message _
  · exact ProtocolChooseTrent.Extends.resume c
  · exact (ProtocolChooseTrent.abandon_quiet c).toExtends

/-! ## The invariant -/

/-- The users a party chooses from. -/
def known (i : Nat) : List ElGamalKey := ProtocolChooseTrent.candidates S.parties (S.users i)

/-- A party that is found in place `k` has announced `a`. -/
def Heard (st : ChooseState) (k : Nat) (a : Int) : Prop :=
  ∃ j c, st j = some c ∧ c.senderKeyId = k ∧ c.announced = some a

structure Placed (i : Nat) (c : ProtocolChooseTrent) : Prop where
  parties : c.parties = S.parties
  key : S.parties[i]? = some c.key
  place : c.senderKeyId = S.parties.findIdx fun k => k.publicKey == c.key.publicKey

structure Invariant (st : ChooseState) : Prop where
  placed : ∀ i c, st i = some c → S.Placed i c
  sound : ∀ i c, st i = some c → c.Sound (S.known i) (Heard st)

variable {S} {st : ChooseState}

/-- When all places have announced a value, no two parties share a place. -/
theorem Invariant.announced_of_heard (h : S.Invariant st) {a : Int}
    (hall : ∀ k < S.parties.length, Heard st k a) {k : Nat} (hk : k < S.parties.length) :
    ∃ c, st k = some c ∧ c.announced = some a := by
  obtain ⟨j, c, hc, hplace, ha⟩ := hall k hk
  have hplaced := h.placed j c hc
  obtain ⟨hj, hkey⟩ := List.getElem?_eq_some_iff.mp hplaced.key
  -- the place of the party that is found in place `j` is also the place of party `j`
  obtain ⟨i, d, hd, hplace', -⟩ := hall j hj
  rw [(h.placed i d hd).place] at hplace'
  have hsame : S.parties[j].publicKey = d.key.publicKey :=
    beq_iff_eq.mp ((List.findIdx_eq hj).mp hplace').1
  have hjk : j = k := by
    rw [← hplace, hplaced.place, ← hkey, hsame, hplace']
  exact ⟨c, hjk ▸ hc, ha⟩

/-- A step of one party, which others may have heard of, keeps the invariant. -/
theorem Invariant.move (h : S.Invariant st) {i : Nat} {c c' : ProtocolChooseTrent}
    (hc : st i = some c) (hextends : c.Extends c') (hsound : c'.Sound (S.known i) (Heard st)) :
    S.Invariant (Function.update st i (some c')) := by
  have hheard : ∀ k a, Heard st k a → Heard (Function.update st i (some c')) k a := by
    rintro k a ⟨j, d, hd, hplace, ha⟩
    by_cases hj : j = i
    · rw [hj, hc, Option.some.injEq] at hd
      subst hd
      exact ⟨i, c', Function.update_self .., hextends.senderKeyId.trans hplace,
        hextends.announced ha⟩
    · exact ⟨j, d, by rw [Function.update_of_ne hj, hd], hplace, ha⟩
  constructor
  · intro j d hd
    by_cases hj : j = i
    · rw [hj, Function.update_self, Option.some.injEq] at hd
      have hplaced := h.placed i c hc
      rw [hj, ← hd]
      exact ⟨hextends.parties.trans hplaced.parties, hextends.key ▸ hplaced.key,
        by rw [hextends.senderKeyId, hextends.key, hplaced.place]⟩
    · rw [Function.update_of_ne hj] at hd
      exact h.placed j d hd
  · intro j d hd
    by_cases hj : j = i
    · rw [hj, Function.update_self, Option.some.injEq] at hd
      rw [hj, ← hd]
      exact hsound.mono hheard
    · rw [Function.update_of_ne hj] at hd
      exact (h.sound j d hd).mono hheard

theorem Invariant.moves_sound (h : S.Invariant st) {i : Nat} {c c' : ProtocolChooseTrent}
    (hc : st i = some c) (hmoves : Moves st c c') : c'.Sound (S.known i) (Heard st) := by
  have hplaced := h.placed i c hc
  have hsound := h.sound i c hc
  rcases hmoves with rfl | ⟨j, d, message, hd, hmessage, rfl⟩ | rfl | rfl
  · exact hsound.quiet (ProtocolChooseTrent.sendMessage_quiet c)
  · refine hsound.notify (fun k a hk ha => ?_) fun a hall => ?_
    · have hplaced' := h.placed j d hd
      refine ⟨j, d, hd, ?_, (h.sound j d hd).chosen a (ha ▸ hmessage)⟩
      rw [hplaced'.place, List.findIdx_eq_getD_findIdx?, ← hplaced.parties, hk]
      rfl
    · rw [ProtocolChooseTrent.N, hplaced.parties] at hall
      obtain ⟨c₁, hc₁, ha⟩ :=
        h.announced_of_heard hall (List.getElem?_eq_some_iff.mp hplaced.key).1
      rw [hc, Option.some.injEq] at hc₁
      rwa [hc₁]
  · exact hsound.resume fun a ha => ⟨i, c, hc, rfl, ha⟩
  · exact hsound.quiet (ProtocolChooseTrent.abandon_quiet c)

theorem Invariant.step (h : S.Invariant st) (ev : ChooseEvent) : S.Invariant (step st ev) := by
  rcases step_cases st ev with hsame | ⟨i, c, c', hc, hmoves, hstep⟩
  · rwa [hsame]
  · rw [hstep]
    exact h.move hc hmoves.extends (h.moves_sound hc hmoves)

theorem invariant_party (S : TrentChoice) : S.Invariant S.party := by
  have hcreated : ∀ i c, S.party i = some c → ∃ key, S.parties[i]? = some key ∧
      c = ProtocolChooseTrent.create S.parties (S.users i) key (S.randomNumber i) := by
    intro i c hc
    obtain ⟨key, hkey, rfl⟩ := Option.map_eq_some_iff.mp hc
    exact ⟨key, hkey, rfl⟩
  constructor
  · intro i c hc
    obtain ⟨key, hkey, rfl⟩ := hcreated i c hc
    exact ⟨rfl, hkey, rfl⟩
  · intro i c hc
    obtain ⟨key, -, rfl⟩ := hcreated i c hc
    exact ProtocolChooseTrent.Sound.create ..

/-! ## The purpose of the step -/

/-- What a party may choose, as public keys. -/
def allowed (S : TrentChoice) (i : Fin S.parties.length) : Set Int :=
  {a | ∃ u ∈ S.known i, u.publicKey = a}

/-- The choices that were announced, and those that were acted upon. -/
def view (S : TrentChoice) (st : ChooseState) : Unanimity (Fin S.parties.length) Int where
  announced i := (st i).bind (·.announced)
  decided i := (st i).bind (·.decided)

theorem view_of (S : TrentChoice) {i : Nat} {c : ProtocolChooseTrent} (hc : st i = some c)
    (hi : i < S.parties.length) : (S.view st).announced ⟨i, hi⟩ = c.announced ∧
      (S.view st).decided ⟨i, hi⟩ = c.decided := by
  simp [view, hc]

theorem view_party (S : TrentChoice) : S.view S.party = Unanimity.init := by
  apply Unanimity.ext
  · funext k
    simp [view, party, Unanimity.init, ProtocolChooseTrent.announced, ProtocolChooseTrent.create]
  · funext k
    simp [view, party, Unanimity.init, ProtocolChooseTrent.decided, ProtocolChooseTrent.create]

theorem bind_update (S : TrentChoice) (st : ChooseState) {i : Nat} (hi : i < S.parties.length)
    (c : ProtocolChooseTrent) (f : ProtocolChooseTrent → Option Int) :
    (fun k : Fin S.parties.length => (Function.update st i (some c) k).bind f) =
      Function.update (fun k : Fin S.parties.length => (st k).bind f) ⟨i, hi⟩ (f c) := by
  funext k
  by_cases hk : k = ⟨i, hi⟩
  · simp [hk]
  · have hne : (k : Nat) ≠ i := fun heq => hk (Fin.ext heq)
    rw [Function.update_of_ne hk, Function.update_of_ne hne]

theorem Invariant.decided (h : S.Invariant st) {i : Nat} {c : ProtocolChooseTrent}
    (hc : st i = some c) (hsigning : c.signing = true) :
    ∃ a, c.decided = some a ∧ c.announced = some a ∧
      ∀ k, (S.view st).announced k = some a := by
  have hsound := h.sound i c hc
  obtain ⟨hfresh, hfull, hsome, hsame⟩ := hsound.agreed hsigning
  obtain ⟨a, ha⟩ := Option.ne_none_iff_exists'.mp hsome
  refine ⟨a, ?_, ha, fun k => ?_⟩
  · rw [ProtocolChooseTrent.decided, if_pos hsigning, hsame, ha]
  · have hheard : ∀ k < S.parties.length, Heard st k a := by
      intro k hk
      have hN : c.N = S.parties.length := congrArg List.length (h.placed i c hc).parties
      have hmark := indexOfNull_eq_none.mp hfull k (by rw [hfresh 2]; omega)
      obtain ⟨key, hkey, hheard⟩ := hsound.marked hfresh k (hN ▸ hk) hmark
      rw [hkey, ha, Option.map_some, Option.some.injEq] at hsame
      exact hsame ▸ hheard
    obtain ⟨d, hd, ha'⟩ := h.announced_of_heard hheard k.isLt
    simp [view, hd, ha']

/-- Every step announces a choice, acts on a choice that everybody announced, or does neither. -/
theorem Invariant.refines (h : S.Invariant st) (ev : ChooseEvent) :
    Relation.ReflTransGen (Unanimity.Step S.allowed) (S.view st)
      (S.view (TrentChoice.step st ev)) := by
  have h' := h.step ev
  rcases step_cases st ev with hsame | ⟨i, c, c', hc, hmoves, hstep⟩
  · rw [hsame]
  rw [hstep] at h' ⊢
  have hextends := hmoves.extends
  obtain ⟨hi, -⟩ := List.getElem?_eq_some_iff.mp (h.placed i c hc).key
  refine Unanimity.steps_of_move (S.bind_update st hi c' (·.announced))
    (S.bind_update st hi c' (·.decided)) ?_ ?_ ?_
  · intro a ha
    rw [(S.view_of hc hi).1] at ha
    exact hextends.announced ha
  · exact (h.moves_sound hc hmoves).offered
  · rw [(S.view_of hc hi).2]
    cases hsigning' : c'.signing with
    | false =>
        have hsigning : c.signing = false := Bool.eq_false_iff.mpr fun hbefore => by
          rw [hextends.signing hbefore] at hsigning'
          cases hsigning'
        simp [ProtocolChooseTrent.decided, hsigning, hsigning']
    | true =>
        obtain ⟨a, hdecided, -, hall⟩ := h'.decided (Function.update_self ..) hsigning'
        exact Or.inr ⟨a, hdecided, hall⟩

/-! ## Agreement -/

/-- Whatever the initial lists and numbers, and however messages are ordered, repeated, lost or
handled inside broadcasts, and broadcasts fail: any two parties that go on to sign hold the same
public key of Trent, which is that of a user every party started with, and not of a signer. -/
theorem trent_agreement (S : TrentChoice) (events : List ChooseEvent) {i j : Nat}
    {c d : ProtocolChooseTrent} (hc : S.choosing.exec S.choosing.init events i = some c)
    (hd : S.choosing.exec S.choosing.init events j = some d) (hi : c.signing = true)
    (hj : d.signing = true) :
    ∃ a, c.trentKey.map (·.publicKey) = some a ∧ d.trentKey.map (·.publicKey) = some a ∧
      (∀ k < S.parties.length, ∃ u ∈ S.users k, u.publicKey = a) ∧
      ∀ key ∈ S.parties, key.publicKey ≠ a := by
  have hstep : ∀ st ev, S.Invariant st → S.Invariant (S.choosing.next st ev) :=
    fun _ ev h => h.step ev
  have hstart := S.invariant_party
  have h : S.Invariant (S.choosing.exec S.choosing.init events) :=
    S.choosing.exec_preserves hstep hstart events
  have hsteps := Machine.exec_refines (m := S.choosing) S.view hstep (fun _ ev h => h.refines ev)
    hstart events
  rw [show S.view S.party = Unanimity.init from S.view_party] at hsteps
  have hsound := Unanimity.Sound.init.steps hsteps
  obtain ⟨hi', -⟩ := List.getElem?_eq_some_iff.mp (h.placed i c hc).key
  obtain ⟨hj', -⟩ := List.getElem?_eq_some_iff.mp (h.placed j d hd).key
  obtain ⟨a, ha, -, -⟩ := h.decided hc hi
  obtain ⟨b, hb, -, -⟩ := h.decided hd hj
  obtain ⟨hab, hallowed⟩ := hsound.agreement ((S.view_of hc hi').2.trans ha)
    ((S.view_of hd hj').2.trans hb)
  rw [ProtocolChooseTrent.decided, if_pos hi] at ha
  rw [ProtocolChooseTrent.decided, if_pos hj, ← hab] at hb
  refine ⟨a, ha, hb, fun k hk => ?_, fun key hkey => ?_⟩
  · obtain ⟨u, hu, hkey⟩ := hallowed ⟨k, hk⟩
    exact ⟨u, (ProtocolChooseTrent.mem_candidates.mp hu).1, hkey⟩
  · obtain ⟨u, hu, rfl⟩ := hallowed ⟨i, hi'⟩
    exact (ProtocolChooseTrent.mem_candidates.mp hu).2 key hkey

end TrentChoice

namespace Sample

def user (publicKey : Int) : ElGamalKey := { p := 23, g := 5, publicKey := publicKey }

/-- Two parties who know each other and two more users. -/
def trentChoice : TrentChoice where
  parties := [user 10, user 20]
  users _ := [user 7, user 10, user 20, user 4]
  randomNumber i := if i = 0 then 5 else 6

/-- Both lists, both numbers and both choices arrive, one of each before its broadcast returns. -/
def agreeingRun : List ChooseEvent :=
  [.start 0, .deliver 1 0 0, .returns 0, .start 1, .deliver 0 1 0, .returns 1, .deliver 0 0 0,
    .deliver 1 1 0, .deliver 0 1 1, .deliver 1 0 1, .deliver 1 0 2, .returns 0, .returns 1,
    .deliver 0 1 2, .deliver 1 0 2]

/-- There are runs in which both parties go on. -/
theorem trent_agreement_agreeingRun :
    ∃ c d, trentChoice.choosing.exec trentChoice.choosing.init agreeingRun 0 = some c ∧
      trentChoice.choosing.exec trentChoice.choosing.init agreeingRun 1 = some d ∧
      ∃ a, c.trentKey.map (·.publicKey) = some a ∧ d.trentKey.map (·.publicKey) = some a ∧
        (∀ k < trentChoice.parties.length, ∃ u ∈ trentChoice.users k, u.publicKey = a) ∧
        ∀ key ∈ trentChoice.parties, key.publicKey ≠ a := by
  have hrun : ∀ i < 2, ∃ c, trentChoice.choosing.exec trentChoice.choosing.init agreeingRun i =
      some c ∧ c.signing = true := by
    have hsigning : ∀ i < 2, ((trentChoice.choosing.exec trentChoice.choosing.init agreeingRun
        i).map (·.signing)) = some true := by decide +kernel
    exact fun i hi => Option.map_eq_some_iff.mp (hsigning i hi)
  obtain ⟨c, hc, hc'⟩ := hrun 0 (by decide)
  obtain ⟨d, hd, hd'⟩ := hrun 1 (by decide)
  exact ⟨c, d, hc, hd, TrentChoice.trent_agreement trentChoice agreeingRun hc hd hc' hd'⟩

end Sample

end Sxp
