-- SUMMARY: The manager over the persistence layer: transactions, the watch list, and what the end of a transaction validates and commits.
import Sxp.Entity.Items

/-!
# AbstractSyncManager

The persistence layer is a parameter: what it keeps, which entities it manages, and its calls,
each of which can throw and can change the state also when it throws. The manager turns what
is thrown into the answer `false`.
-/

namespace Sxp

/-- An open `EntityManager` with its transaction. `stored` is what the database holds. -/
structure EntityManager (S E : Type) where
  begin : S → Except JavaException Unit × S
  persist (entity : E) : S → Except JavaException Unit × S
  find (id : String) : S → Except JavaException (Option E) × S
  getRollbackOnly : S → Except JavaException Bool
  commit : S → Except JavaException Unit × S
  clear : S → S
  cloneMapping : S → List E
  hasChanges (entity : E) (s : S) : Bool
  stored : S → List E

/-- The documented behaviour that is relied on: only `clear` and a commit detach entities, and only
a commit writes to the database. -/
structure EntityManager.Lawful {S E : Type} (em : EntityManager S E) : Prop where
  begin_cloneMapping : ∀ s, em.cloneMapping s ⊆ em.cloneMapping (em.begin s).2
  persist_cloneMapping : ∀ e s, em.cloneMapping s ⊆ em.cloneMapping (em.persist e s).2
  find_cloneMapping : ∀ id s, em.cloneMapping s ⊆ em.cloneMapping (em.find id s).2
  begin_stored : ∀ s, em.stored (em.begin s).2 = em.stored s
  persist_stored : ∀ e s, em.stored (em.persist e s).2 = em.stored s
  find_stored : ∀ id s, em.stored (em.find id s).2 = em.stored s
  clear_cloneMapping : ∀ s, em.cloneMapping (em.clear s) = []

/-- How a call of `end` went: its answer, and the changed entities that it committed. -/
structure Ended (S E : Type) where
  result : Bool
  committed : List E
  state : S

namespace AbstractSyncManager

variable {S E : Type} (em : EntityManager S E) (validate : E → Bool)

/-- An exception is logged, and answered with `false`. -/
def answer (x : Except JavaException Unit × S) : Bool × S :=
  match x with
  | (.ok _, s) => (true, s)
  | (.error _, s) => (false, s)

def begin (s : S) : Bool × S := answer (em.begin s)

def persist (entity : E) (s : S) : Bool × S := answer (em.persist entity s)

def findOneById (id : String) (s : S) : Option E × S :=
  match em.find id s with
  | (.ok found, s) => (found, s)
  | (.error _, s) => (none, s)

def watchlist (s : S) : List E := em.cloneMapping s

def changesInWatchlist (s : S) : List E := (watchlist em s).filter (em.hasChanges · s)

def check (s : S) : Bool := (watchlist em s).all validate

/-- `end`. A commit writes the changes of all managed entities. -/
def end_ (s : S) : Ended S E :=
  if check em validate s = false then { result := false, committed := [], state := s }
  else
    match em.getRollbackOnly s with
    | .error _ => { result := false, committed := [], state := s }
    | .ok true => { result := true, committed := [], state := em.clear s }
    | .ok false =>
        match em.commit s with
        | (.error _, s') => { result := false, committed := [], state := s' }
        | (.ok _, s') =>
            { result := true, committed := changesInWatchlist em s, state := em.clear s' }

/-! ## Sequences of calls -/

inductive Call (E : Type) where
  | begin
  | persist (entity : E)
  | watch (id : String)
  | end_

/-- The calls of one manager, with their answers. -/
def calls (s₀ : S) : Machine S (Call E) Bool where
  init := s₀
  step s call :=
    match call with
    | .begin => ((begin em s).2, (begin em s).1)
    | .persist entity => ((persist em entity s).2, (persist em entity s).1)
    | .watch id => ((findOneById em id s).2, (findOneById em id s).1.isSome)
    | .end_ => ((end_ em validate s).state, (end_ em validate s).result)

/-- Some watched entity is invalid. -/
def Blocked (s : S) : Prop := ∃ e ∈ watchlist em s, validate e = false

variable {em validate} {s : S}

theorem check_eq_false_iff : check em validate s = false ↔ Blocked em validate s := by
  simp [check, Blocked]

/-- With an invalid entity in the watch list, `end` does nothing at all. -/
theorem Blocked.end_eq (h : Blocked em validate s) :
    end_ em validate s = { result := false, committed := [], state := s } := by
  rw [end_, if_pos (check_eq_false_iff.mpr h)]

theorem answer_state (x : Except JavaException Unit × S) : (answer x).2 = x.2 := by
  obtain ⟨result, s⟩ := x
  cases result <;> rfl

theorem findOneById_state (id : String) (s : S) : (findOneById em id s).2 = (em.find id s).2 := by
  unfold findOneById
  split <;> simp [*]

theorem Blocked.of_subset {s' : S} (h : Blocked em validate s)
    (hsub : em.cloneMapping s ⊆ em.cloneMapping s') : Blocked em validate s' := by
  obtain ⟨e, he, hinvalid⟩ := h
  exact ⟨e, hsub he, hinvalid⟩

/-- No call takes the invalid entity off the watch list, and none writes to the database. -/
theorem Blocked.next (hem : em.Lawful) (s₀ : S) (h : Blocked em validate s) (call : Call E) :
    Blocked em validate ((calls em validate s₀).next s call) ∧
      em.stored ((calls em validate s₀).next s call) = em.stored s := by
  cases call with
  | begin =>
      rw [show (calls em validate s₀).next s .begin = (em.begin s).2 from answer_state _]
      exact ⟨h.of_subset (hem.begin_cloneMapping s), hem.begin_stored s⟩
  | persist entity =>
      rw [show (calls em validate s₀).next s (.persist entity) =
        (em.persist entity s).2 from answer_state _]
      exact ⟨h.of_subset (hem.persist_cloneMapping entity s), hem.persist_stored entity s⟩
  | watch id =>
      rw [show (calls em validate s₀).next s (.watch id) =
        (em.find id s).2 from findOneById_state id s]
      exact ⟨h.of_subset (hem.find_cloneMapping id s), hem.find_stored id s⟩
  | end_ =>
      have hnext : (calls em validate s₀).next s .end_ = s := by
        change (end_ em validate s).state = s
        rw [h.end_eq]
      rw [hnext]
      exact ⟨h, rfl⟩

/-- A blocked manager stays blocked, whatever is called. -/
theorem Blocked.exec (hem : em.Lawful) (s₀ : S) (h : Blocked em validate s) (cs : List (Call E)) :
    Blocked em validate ((calls em validate s₀).exec s cs) ∧
      em.stored ((calls em validate s₀).exec s cs) = em.stored s :=
  (calls em validate s₀).exec_preserves (P := fun t => Blocked em validate t ∧
    em.stored t = em.stored s)
    (fun _ call ht => ⟨(ht.1.next hem s₀ call).1, (ht.1.next hem s₀ call).2.trans ht.2⟩) ⟨h, rfl⟩ cs

/-- A new transaction with `v` alone succeeds, and commits `v` alone. -/
def Recovers (em : EntityManager S E) (validate : E → Bool) (s : S) (v : E) : Prop :=
  let begun := begin em s
  let persisted := persist em v begun.2
  let ended := end_ em validate persisted.2
  begun.1 = true ∧ persisted.1 = true ∧ ended.result = true ∧ ended.committed = [v]

/-- After an `end` that failed on an invalid entity no further transaction succeeds: the entity is
neither rolled back nor detached, and is validated again. -/
theorem failed_end_blocks (hem : em.Lawful) (s₀ : S) (cs : List (Call E))
    (hfailed : check em validate ((calls em validate s₀).exec s₀ cs) = false) :
    (end_ em validate ((calls em validate s₀).exec s₀ cs)).result = false ∧
    (∀ v, ¬ Recovers em validate (end_ em validate ((calls em validate s₀).exec s₀ cs)).state v) ∧
    ∀ later, (end_ em validate ((calls em validate s₀).exec
          (end_ em validate ((calls em validate s₀).exec s₀ cs)).state later)).result = false ∧
      em.stored ((calls em validate s₀).exec
        (end_ em validate ((calls em validate s₀).exec s₀ cs)).state later) =
        em.stored ((calls em validate s₀).exec s₀ cs) := by
  have hblocked := check_eq_false_iff.mp hfailed
  rw [hblocked.end_eq]
  refine ⟨rfl, fun v hrecovers => ?_, fun later => ?_⟩
  · have hlater := (hblocked.exec hem s₀ [.begin, .persist v]).1
    have hend : (end_ em validate
      (persist em v (begin em ((calls em validate s₀).exec s₀ cs)).2).2).result = false :=
      congrArg Ended.result hlater.end_eq
    exact absurd (hend.symm.trans hrecovers.2.2.1) Bool.false_ne_true
  · have hlater := hblocked.exec hem s₀ later
    rw [hlater.1.end_eq]
    exact ⟨rfl, hlater.2⟩

end AbstractSyncManager

/-! ## A persistence context -/

namespace Sample

/-- A local database with the managed entities, each with whether it has changes. -/
structure PersistenceContext (E : Type) where
  active : Bool := false
  rollbackOnly : Bool := false
  managed : List (E × Bool) := []
  stored : List E := []

namespace PersistenceContext

variable {E : Type} (validate : E → Bool) (id : E → Option String)

def manage (s : PersistenceContext E) (e : E) (changed : Bool) : PersistenceContext E :=
  if s.managed.any fun x =>
    id x.1 == id e then s else { s with managed := s.managed ++ [(e, changed)] }

/-- Bean validation throws when an invalid entity is persisted, which is managed all the same. -/
def entityManager : EntityManager (PersistenceContext E) E where
  begin s := if s.active then (.error .illegalState, s) else (.ok (),
    { s with active := true, rollbackOnly := false })
  persist e s :=
    if validate e then (.ok (), s.manage id e true)
    else (.error (.runtime "Bean Validation constraint(s) violated"),
      { s.manage id e true with rollbackOnly := s.active })
  find k s :=
    match s.stored.find? fun e => id e = some k with
    | some e => (.ok (some e), s.manage id e false)
    | none => (.ok none, s)
  getRollbackOnly s := if s.active then .ok s.rollbackOnly else .error .illegalState
  commit s :=
    if s.active = false then (.error .illegalState, s)
    else if s.rollbackOnly then (.error (.runtime "RollbackException"),
      { s with active := false, managed := [] })
    else
      (.ok (), {
        active := false, managed := s.managed.map fun x => (x.1, false)
        stored := s.stored ++ (s.managed.filter Prod.snd).map Prod.fst })
  clear s := { s with managed := [] }
  cloneMapping s := s.managed.map Prod.fst
  hasChanges e s := s.managed.any fun x => id x.1 == id e && x.2
  stored s := s.stored

theorem manage_managed (s : PersistenceContext E) (e : E) (changed : Bool) :
    s.managed.map Prod.fst ⊆ (s.manage id e changed).managed.map Prod.fst := by
  unfold manage
  split
  · exact List.Subset.refl _
  · simp

theorem manage_stored (s : PersistenceContext E) (e : E) (changed : Bool) :
    (s.manage id e changed).stored = s.stored := by
  unfold manage
  split <;> rfl

theorem entityManager_lawful (validate : E → Bool) : (entityManager validate id).Lawful where
  begin_cloneMapping s := by
    simp only [entityManager]
    split <;> exact List.Subset.refl _
  persist_cloneMapping e s := by
    simp only [entityManager]
    split <;> exact manage_managed id s e true
  find_cloneMapping k s := by
    simp only [entityManager]
    split
    · exact manage_managed id s _ false
    · exact List.Subset.refl _
  begin_stored s := by
    simp only [entityManager]
    split <;> rfl
  persist_stored e s := by
    simp only [entityManager]
    split <;> exact manage_stored id s e true
  find_stored k s := by
    simp only [entityManager]
    split
    · exact manage_stored id s _ false
    · rfl
  clear_cloneMapping _ := rfl

end PersistenceContext

/-- The manager of the items, on a local database. -/
def itemManager : EntityManager (PersistenceContext Item) Item :=
  PersistenceContext.entityManager Item.validate Item.id

theorem itemManager_lawful : itemManager.Lawful :=
  PersistenceContext.entityManager_lawful Item.id Item.validate

def lampItem : Item := {
  id := some "1", title := some "Lamp", description := some "Works", createdAt :=
    some 0, pbkey := some 5
  username := some "alice", userid := some "0001", signature := none }

/-- An item without a title. -/
def untitledItem : Item := { lampItem with id := some "2", title := none }

end Sample

namespace AbstractSyncManager

open Sample (itemManager lampItem untitledItem)

theorem failed_end_blocks_lamp :
    (end_ itemManager Item.validate ((calls itemManager Item.validate {}).exec {} [.begin,
        .persist untitledItem])).result = false ∧
      ¬ Recovers itemManager Item.validate (end_ itemManager Item.validate
        ((calls itemManager Item.validate {}).exec {} [.begin, .persist untitledItem])).state
          lampItem := by
  have h := @failed_end_blocks _ _ itemManager Item.validate Sample.itemManager_lawful {} [.begin,
    .persist untitledItem] (by decide)
  exact ⟨h.1, h.2.1 lampItem⟩

/-- One item without a title is enough. -/
theorem recovers_not_always :
    ¬ ∀ (cs : List (Call Item)) (v : Item), v.validate = true →
      check itemManager Item.validate ((calls itemManager Item.validate {}).exec {} cs) = false →
      Recovers itemManager Item.validate (end_ itemManager Item.validate
        ((calls itemManager Item.validate {}).exec {} cs)).state v := by
  intro h
  exact absurd (h [.begin, .persist untitledItem] lampItem (by decide) (by decide)).1 (by decide)

end AbstractSyncManager

end Sxp
