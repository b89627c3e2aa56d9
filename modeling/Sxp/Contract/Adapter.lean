-- SUMMARY: Sigma contracts made from stored ones: what they share with the entity, and what the entity keeps of the signatures.
import Sxp.Contract.SigmaContract
import Sxp.Controller.Contracts

/-!
# Contracts and their entities

A sigma contract that is made from an entity looks up the keys of the parties in the directory of
users. It keeps its status and its wish in the entity, and puts a text for each signature there. The
class of signatures has no `toString` of its own, so that this text names an object and holds
nothing of it.
-/

namespace Sxp

/-- A signature as an object, with its identity hash code. -/
structure SignatureObject where
  signature : SigmaSignature
  hashCode : UInt32

/-- `Object.toString`. -/
def SignatureObject.toString (s : SignatureObject) : String :=
  "model.entity.sigma.SigmaSignature@" ++ String.ofList (Nat.toDigits 16 s.hashCode.toNat)

/-- A key whose parts are all there. -/
def ElGamalKeyEntity.complete (k : ElGamalKeyEntity) : Option ElGamalKey := do
  return { p := ← k.p, g := ← k.g, publicKey := ← k.publicKey }

/-- A sigma contract with its entity. -/
structure SigmaContractAdapter where
  entity : ContractEntity
  parties : List ElGamalKey := []
  partiesId : HashMap ElGamalKey (Option String) := {}
  signatures : HashMap ElGamalKey SigmaSignature := {}
  clauses : Option (List (Option String)) := none
  signer : SigmaSigner := {}

namespace SigmaContractAdapter

/-- The loop of `setParties`: the keys of the parties, each with the id of its user. -/
def partyKeys (db : Comparison) (users : List User) (ids : List (Option String)) :
    Except JavaException (List (ElGamalKey × Option String)) :=
  ids.mapM fun id => do
    let user ← notNull (Contracts.getUser db users id)
    let key ← notNull (user.keys.bind ElGamalKeyEntity.complete)
    return (key, user.id)

/-- The constructor from an entity, with the users that the directory has. -/
def ofEntity (db : Comparison) (users : List User) (c : ContractEntity) :
    Except JavaException SigmaContractAdapter := do
  let ids ← notNull c.parties
  let keys ← partyKeys db users ids
  return {
    entity := { c with establisherType := some .sigma }
    parties := (keys.map Prod.fst).insertionSort fun k1 k2 => k1.publicKey ≤ k2.publicKey
    partiesId := HashMap.ofEntries keys
    clauses := c.clauses }

/-- The sigma contract on its own, once it has clauses. A clause that is null is read as a text. -/
def toSigmaContract (a : SigmaContractAdapter) (clauses : List (Option String)) :
    SigmaContract where
  parties := a.parties
  clauses := clauses.map (·.getD "null")
  signatures := a.signatures
  signer := a.signer
  status := a.entity.status.getD .nowhere
  wish := a.entity.wish.getD .neutral

def setTrentKey (a : SigmaContractAdapter) (k : Option ElGamalKey) : SigmaContractAdapter :=
  { a with signer := { a.signer with trentK := k } }

def setStatus (a : SigmaContractAdapter) (s : Status) : SigmaContractAdapter :=
  { a with entity := { a.entity with status := some s } }

def setWish (a : SigmaContractAdapter) (w : Wish) : SigmaContractAdapter :=
  { a with entity := { a.entity with wish := some w } }

variable (hash : String → Int)

/-- `isFinalized`. Without clauses it throws as soon as a signature is to be verified. -/
def isFinalized (a : SigmaContractAdapter) : SigmaContractAdapter × Except JavaException Bool :=
  match a.clauses with
  | some clauses =>
      let r := (a.toSigmaContract clauses).isFinalized hash
      ({ a with signer := r.1.signer }, r.2)
  | none =>
      match a.signer.trentK, a.parties with
      | none, _ => (a, .ok false)
      | some _, [] => (a, .ok false)
      | some _, k :: _ =>
          ({ a with signer := { a.signer with receiverK := some k } },
            match a.signatures.get k with
            | none => .ok false
            | some _ => .error .nullPointer)

/-- What a signature puts into the map of the entity. -/
def enter (id : Option String) (s : SignatureObject) (m : StringMap) : StringMap where
  map := m.map.put id s.toString
  nodup := HashMap.nodup_put m.nodup _ _

/-- The end of `addSignature`. -/
def finalize (a : SigmaContractAdapter) : SigmaContractAdapter × Except JavaException Unit :=
  match a.isFinalized hash with
  | (a, .error e) => (a, .error e)
  | (a, .ok true) => (a.setStatus .finalized, .ok ())
  | (a, .ok false) => (a, .ok ())

def addSignature (a : SigmaContractAdapter) (k : ElGamalKey) (s : SignatureObject) :
    SigmaContractAdapter × Except JavaException Unit :=
  if k ∈ a.parties then
    let a := { a with signatures := a.signatures.put k s.signature }
    match a.entity.signatures with
    | none => (a, .error .nullPointer)
    | some m => finalize hash { a with
        entity := { a.entity with signatures := some (enter (a.partiesId.get k).join s m) } }
  else (a, .error (.runtime "invalid key"))

end SigmaContractAdapter

/-- What the protocol does with a contract. -/
inductive SigmaContractEvent where
  | addSignature (k : ElGamalKey) (s : SignatureObject)
  | isFinalized
  | setTrentKey (k : Option ElGamalKey)
  | setStatus (s : Status)
  | setWish (w : Wish)

namespace SigmaContractAdapter

variable (hash : String → Int)

/-- The contract with its entity. Of the answers only the one to `addSignature` is kept. -/
def machine (init : SigmaContractAdapter) :
    Machine SigmaContractAdapter SigmaContractEvent (Except JavaException Unit) where
  init := init
  step a
    | .addSignature k s => a.addSignature hash k s
    | .isFinalized => ((a.isFinalized hash).1, (a.isFinalized hash).2.map fun _ => ())
    | .setTrentKey k => (a.setTrentKey k, .ok ())
    | .setStatus s => (a.setStatus s, .ok ())
    | .setWish w => (a.setWish w, .ok ())

end SigmaContractAdapter

/-- The contract on its own. -/
def SigmaContract.machine (hash : String → Int) (init : SigmaContract) :
    Machine SigmaContract SigmaContractEvent (Except JavaException Unit) where
  init := init
  step c
    | .addSignature k s => c.addSignature hash k s.signature
    | .isFinalized => ((c.isFinalized hash).1, (c.isFinalized hash).2.map fun _ => ())
    | .setTrentKey k => (c.setTrentKey k, .ok ())
    | .setStatus s => (c.setStatus s, .ok ())
    | .setWish w => (c.setWish w, .ok ())

namespace SigmaContractAdapter

variable {hash : String → Int} {db : Comparison} {users : List User} {c : ContractEntity}
  {a : SigmaContractAdapter}

/-! ## The parties and their ids -/

/-- The id of the user whose key it is. -/
def idOf (a : SigmaContractAdapter) (k : ElGamalKey) : Option String := (a.partiesId.get k).join

/-- Every party has an id, and no two have the same. -/
structure Founded (a : SigmaContractAdapter) : Prop where
  known : ∀ k ∈ a.parties, ∃ id, a.partiesId.get k = some id
  injective : ∀ k ∈ a.parties, ∀ k' ∈ a.parties, a.idOf k = a.idOf k' → k = k'

/-- The id that goes with a key is that of a user who has the key. -/
theorem mem_partyKeys {ids : List (Option String)} {keys : List (ElGamalKey × Option String)}
    (h : partyKeys db users ids = .ok keys) {x : ElGamalKey × Option String} (hx : x ∈ keys) :
    ∃ u, Contracts.getUser db users x.2 = some u ∧
    u.keys.bind ElGamalKeyEntity.complete = some x.1 := by
  have hall := List.mapM_eq_ok_iff.mp h
  induction hall with
  | nil => cases hx
  | @cons id y ids keys hy hrest ih =>
      rcases List.mem_cons.mp hx with rfl | hmem
      · simp only [Except.bind_eq_ok, notNull_eq_ok, Except.pure_eq_ok] at hy
        obtain ⟨u, hu, key, hkey, rfl⟩ := hy
        exact ⟨u, Comparison.findOneById_self hu, hkey⟩
      · exact ih (List.mapM_eq_ok_iff.mpr hrest) hmem

theorem ofEntity_eq_ok (h : ofEntity db users c = .ok a) : ∃ ids keys, c.parties = some ids ∧
    partyKeys db users ids = .ok keys ∧
    a = { entity := { c with establisherType := some .sigma }
          parties := (keys.map Prod.fst).insertionSort fun k1 k2 => k1.publicKey ≤ k2.publicKey
          partiesId := HashMap.ofEntries keys
          clauses := c.clauses } := by
  simp only [ofEntity, Except.bind_eq_ok, notNull_eq_ok, Except.pure_eq_ok] at h
  obtain ⟨ids, hids, keys, hkeys, rfl⟩ := h
  exact ⟨ids, keys, hids, hkeys, rfl⟩

theorem founded_ofEntity (h : ofEntity db users c = .ok a) : Founded a := by
  obtain ⟨ids, keys, -, hkeys, rfl⟩ := ofEntity_eq_ok h
  have hknown : ∀ k ∈ (keys.map Prod.fst).insertionSort fun k1 k2 => k1.publicKey ≤ k2.publicKey,
      ∃ id, (HashMap.ofEntries keys).get k = some id :=
    fun k hk => HashMap.exists_get_ofEntries ((List.mem_insertionSort _).mp hk)
  refine { known := hknown, injective := fun k hk k' hk' hsame => ?_ }
  obtain ⟨id, hid⟩ := hknown k hk
  obtain ⟨id', hid'⟩ := hknown k' hk'
  obtain ⟨u, hu, hkey⟩ := mem_partyKeys hkeys (HashMap.mem_of_get_ofEntries hid)
  obtain ⟨u', hu', hkey'⟩ := mem_partyKeys hkeys (HashMap.mem_of_get_ofEntries hid')
  simp only [idOf, hid, hid', Option.join_some] at hsame
  subst hsame
  rw [hu, Option.some.injEq] at hu'
  subst hu'
  rw [hkey, Option.some.injEq] at hkey'
  exact hkey'

/-! ## One step -/

variable (hash) in
theorem isFinalized_frame (a : SigmaContractAdapter) :
    ∃ signer, (a.isFinalized hash).1 = { a with signer } := by
  unfold isFinalized
  split
  · exact ⟨_, rfl⟩
  · split
    · exact ⟨a.signer, rfl⟩
    · exact ⟨a.signer, rfl⟩
    · exact ⟨_, rfl⟩

theorem finalize_frame (a : SigmaContractAdapter) :
    ∃ signer status, (a.finalize hash).1 =
    { a with signer, entity := { a.entity with status } } := by
  obtain ⟨signer, hsigner⟩ := isFinalized_frame hash a
  unfold finalize
  split <;> rename_i b hb <;> rw [hb] at hsigner <;> cases hsigner
  · exact ⟨signer, a.entity.status, rfl⟩
  · exact ⟨signer, some .finalized, rfl⟩
  · exact ⟨signer, a.entity.status, rfl⟩

/-- The signature of a party is stored, and its text if the entity has a map. -/
theorem addSignature_of_mem {k : ElGamalKey} (hk : k ∈ a.parties) (s : SignatureObject) :
    ∃ signer status, (a.addSignature hash k s).1 =
      { a with
        signatures := a.signatures.put k s.signature
        signer
        entity := { a.entity with signatures := a.entity.signatures.map (enter (a.idOf k) s),
                                  status } } := by
  unfold addSignature
  rw [if_pos hk]
  dsimp only
  split
  · rename_i hnull
    have hentity : a.entity = { a.entity with signatures := none } := by rw [← hnull]
    refine ⟨a.signer, a.entity.status, ?_⟩
    rw [hnull, Option.map_none, ← hentity]
  · rename_i m hm
    rw [hm, Option.map_some]
    exact finalize_frame _

theorem addSignature_of_not_mem {k : ElGamalKey} (hk : k ∉ a.parties) (s : SignatureObject) :
    a.addSignature hash k s = (a, .error (.runtime "invalid key")) := if_neg hk

/-- The signature that an event adds for a key. -/
def adds (k : ElGamalKey) : SigmaContractEvent → Option SignatureObject
  | .addSignature k' s => if k' = k then some s else none
  | _ => none

variable (hash) in
/-- An event is a signature of a party, or changes no more than the signer object, the status and
the wish. -/
theorem next_cases (init a : SigmaContractAdapter) (e : SigmaContractEvent) :
    (∃ k s, e = .addSignature k s ∧ k ∈ a.parties ∧ ∃ signer status, (machine hash init).next a e =
      { a with
        signatures := a.signatures.put k s.signature
        signer
        entity := { a.entity with signatures := a.entity.signatures.map (enter (a.idOf k) s),
                                  status } }) ∨
    (∀ k ∈ a.parties, adds k e = none) ∧ ∃ signer status wish, (machine hash init).next a e =
      { a with signer, entity := { a.entity with status, wish } } := by
  cases e with
  | addSignature k s =>
      by_cases hk : k ∈ a.parties
      · exact Or.inl ⟨k, s, rfl, hk, addSignature_of_mem hk s⟩
      · have hother : ∀ k' ∈ a.parties, adds k' (.addSignature k s) = none := by
          intro k' hk'
          refine if_neg ?_
          rintro rfl
          exact hk hk'
        refine Or.inr ⟨hother, a.signer, a.entity.status, a.entity.wish, ?_⟩
        exact congrArg Prod.fst (addSignature_of_not_mem hk s)
  | isFinalized =>
      obtain ⟨signer, hsigner⟩ := isFinalized_frame hash a
      exact Or.inr ⟨fun _ _ => rfl, signer, a.entity.status, a.entity.wish, hsigner⟩
  | setTrentKey k =>
      exact Or.inr ⟨fun _ _ => rfl, { a.signer with trentK := k }, a.entity.status,
        a.entity.wish, rfl⟩
  | setStatus s => exact Or.inr ⟨fun _ _ => rfl, a.signer, some s, a.entity.wish, rfl⟩
  | setWish w => exact Or.inr ⟨fun _ _ => rfl, a.signer, a.entity.status, some w, rfl⟩

/-! ## Runs -/

/-- The last signature that was added for a key. -/
def lastAdded (k : ElGamalKey) (es : List SigmaContractEvent) : Option SignatureObject :=
  (es.filterMap (adds k)).getLast?

theorem lastAdded_concat (k : ElGamalKey) (es : List SigmaContractEvent) (e : SigmaContractEvent) :
    lastAdded k (es ++ [e]) = (adds k e).or (lastAdded k es) := by
  rw [lastAdded, lastAdded, List.filterMap_append, List.getLast?_append]
  cases h : adds k e <;> simp [h]

/-- What the events `es` have made of a contract whose entity had the map `m`. -/
structure Mirrors (a₀ : SigmaContractAdapter) (m : Option StringMap) (es : List SigmaContractEvent)
    (a : SigmaContractAdapter) : Prop where
  parties : a.parties = a₀.parties
  partiesId : a.partiesId = a₀.partiesId
  clauses : a.clauses = a₀.clauses
  signatures : ∀ k ∈ a₀.parties, a.signatures.get k = (lastAdded k es).map (·.signature)
  isNone : a.entity.signatures = none ↔ m = none
  texts : ∀ m₀ m', m = some m₀ → a.entity.signatures = some m' →
    (∀ k ∈ a₀.parties, m'.map.get (a₀.idOf k) =
      match lastAdded k es with
      | some s => some (some s.toString)
      | none => m₀.map.get (a₀.idOf k)) ∧
    ∀ id, (∀ k ∈ a₀.parties, a₀.idOf k ≠ id) → m'.map.get id = m₀.map.get id

theorem Mirrors.next {a₀ : SigmaContractAdapter} (hfounded : Founded a₀) {m : Option StringMap}
    {es : List SigmaContractEvent} (h : Mirrors a₀ m es a) (e : SigmaContractEvent) :
    Mirrors a₀ m (es ++ [e]) ((machine hash a₀).next a e) := by
  have hid : ∀ k, a.idOf k = a₀.idOf k := fun k => by rw [idOf, h.partiesId, idOf]
  rcases next_cases hash a₀ a e with
    ⟨k, s, rfl, hk, signer, status, heq⟩ | ⟨hnone, signer, status, wish, heq⟩
  · rw [h.parties] at hk
    have hlast : ∀ k', lastAdded k' (es ++ [.addSignature k s]) = if k = k' then some s
        else lastAdded k' es := by
      intro k'
      rw [lastAdded_concat, adds]
      split <;> rfl
    rw [heq]
    refine { parties := h.parties, partiesId := h.partiesId, clauses := h.clauses,
             signatures := fun k' hk' => ?_
             isNone := Option.map_eq_none_iff.trans h.isNone, texts := fun m₀ m' hm hm' => ?_ }
    · rw [hlast, HashMap.get_put]
      by_cases hsame : k = k'
      · simp [hsame]
      · rw [if_neg hsame, if_neg (by simpa using Ne.symm hsame)]
        exact h.signatures k' hk'
    · obtain ⟨m₁, hm₁, rfl⟩ := Option.map_eq_some_iff.mp hm'
      obtain ⟨hparty, hother⟩ := h.texts m₀ m₁ hm hm₁
      simp only [enter, HashMap.get_put, hid]
      refine ⟨fun k' hk' => ?_, fun id hnone => ?_⟩
      · rw [hlast]
        by_cases hsame : k = k'
        · simp [hsame]
        · have hne : a₀.idOf k' ≠ a₀.idOf k :=
            fun heq => hsame (hfounded.injective k' hk' k hk heq).symm
          rw [if_neg hsame, if_neg (by simpa using hne)]
          exact hparty k' hk'
      · rw [if_neg (by simpa using (hnone k hk).symm)]
        exact hother id hnone
  · have hlast : ∀ k ∈ a₀.parties, lastAdded k (es ++ [e]) = lastAdded k es := by
      intro k hk
      rw [lastAdded_concat, hnone k (h.parties ▸ hk), Option.none_or]
    rw [heq]
    refine { h with signatures := fun k hk => ?_, texts := fun m₀ m' hm hm' => ?_ }
    · rw [hlast k hk]
      exact h.signatures k hk
    · obtain ⟨hparty, hother⟩ := h.texts m₀ m' hm hm'
      refine ⟨fun k hk => ?_, hother⟩
      rw [hlast k hk]
      exact hparty k hk

variable (hash) in
theorem mirrors_exec {a₀ : SigmaContractAdapter} (hfounded : Founded a₀)
    (hempty : a₀.signatures = {}) (es : List SigmaContractEvent) :
    Mirrors a₀ a₀.entity.signatures es ((machine hash a₀).exec a₀ es) := by
  induction es using List.reverseRecOn with
  | nil =>
      exact {
        parties := rfl
        partiesId := rfl
        clauses := rfl
        signatures := fun k _ => by rw [Machine.exec_nil, hempty]; rfl
        isNone := Iff.rfl
        texts := fun m₀ m' hm hm' => by
          obtain rfl : m₀ = m' := Option.some.inj (hm.symm.trans hm')
          exact ⟨fun _ _ => rfl, fun _ _ => rfl⟩ }
  | append_singleton es e ih =>
      rw [Machine.exec_append]
      exact ih.next hfounded e

/-! ## The contract on its own -/

variable {cl : List (Option String)}

variable (hash) in
theorem isFinalized_refines (hcl : a.clauses = some cl) :
    (a.isFinalized hash).1.toSigmaContract cl = ((a.toSigmaContract cl).isFinalized hash).1 ∧
      (a.isFinalized hash).2 = ((a.toSigmaContract cl).isFinalized hash).2 := by
  obtain ⟨signer, -, hframe⟩ := SigmaContract.isFinalized_frame hash (a.toSigmaContract cl)
  have hunfold : a.isFinalized hash =
      ({ a with signer := ((a.toSigmaContract cl).isFinalized hash).1.signer },
      ((a.toSigmaContract cl).isFinalized hash).2) := by
    rw [isFinalized, hcl]
  rw [hunfold, hframe]
  exact ⟨rfl, rfl⟩

theorem addSignature_refines (hcl : a.clauses = some cl) (hmap : a.entity.signatures ≠ none)
    (k : ElGamalKey) (s : SignatureObject) :
    (a.addSignature hash k s).1.toSigmaContract cl =
      ((a.toSigmaContract cl).addSignature hash k s.signature).1 ∧
      (a.addSignature hash k s).2 = ((a.toSigmaContract cl).addSignature hash k s.signature).2 := by
  obtain ⟨m, hm⟩ := Option.ne_none_iff_exists'.mp hmap
  by_cases hk : k ∈ a.parties
  · let stored : SigmaContractAdapter :=
      { a with
        signatures := a.signatures.put k s.signature
        entity := { a.entity with signatures := some (enter (a.idOf k) s m) } }
    obtain ⟨hstate, hresult⟩ := isFinalized_refines hash (show stored.clauses = some cl from hcl)
    have hstored : stored.toSigmaContract cl =
        (a.toSigmaContract cl).storeSignature k s.signature := rfl
    have hleft : a.addSignature hash k s = stored.finalize hash := by
      simp only [addSignature, if_pos hk, hm]
      rfl
    rw [hleft, SigmaContract.addSignature, if_pos (show k ∈ (a.toSigmaContract cl).parties from hk),
      ← hstored, finalize]
    generalize stored.isFinalized hash = r at hstate hresult
    generalize (stored.toSigmaContract cl).isFinalized hash = r' at hstate hresult
    obtain ⟨b, result⟩ := r
    obtain ⟨c', result'⟩ := r'
    obtain rfl : result = result' := hresult
    obtain rfl : b.toSigmaContract cl = c' := hstate
    rcases result with e | (_ | _) <;> exact ⟨rfl, rfl⟩
  · rw [addSignature_of_not_mem hk, SigmaContract.addSignature_of_not_mem hash
      (show k ∉ (a.toSigmaContract cl).parties from hk)]
    exact ⟨rfl, rfl⟩

/-- The contract with the clauses `cl` is the one that the adapter holds, which has a map of
signatures. -/
structure Refines (cl : List (Option String)) (a : SigmaContractAdapter)
    (c : SigmaContract) : Prop where
  clauses : a.clauses = some cl
  map : a.entity.signatures ≠ none
  contract : a.toSigmaContract cl = c

theorem Refines.next {c c₀ : SigmaContract} {a₀ : SigmaContractAdapter} (h : Refines cl a c)
    (e : SigmaContractEvent) :
    Refines cl ((machine hash a₀).next a e) ((SigmaContract.machine hash c₀).next c e) := by
  obtain rfl := h.contract
  have hframe : ((machine hash a₀).next a e).clauses = some cl ∧
      ((machine hash a₀).next a e).entity.signatures ≠ none := by
    rcases next_cases hash a₀ a e with ⟨_, _, _, _, _, _, heq⟩ | ⟨_, _, _, _, heq⟩ <;> rw [heq]
    · exact ⟨h.clauses, fun hnull => h.map (Option.map_eq_none_iff.mp hnull)⟩
    · exact ⟨h.clauses, h.map⟩
  refine { clauses := hframe.1, map := hframe.2, contract := ?_ }
  cases e with
  | addSignature k s => exact (addSignature_refines h.clauses h.map k s).1
  | isFinalized => exact (isFinalized_refines hash h.clauses).1
  | setTrentKey k => rfl
  | setStatus s => rfl
  | setWish w => rfl

variable (hash) in
/-- A contract made from an entity that has clauses and a map of signatures behaves as a contract on
its own does. All the while the map holds, under the id of each party, the text of the signature
object that was added for the party last, and is as it was under any other id. -/
theorem made_contract_mirrors (hmade : ofEntity db users c = .ok a) (hclauses : c.clauses = some cl)
    {m : StringMap} (hmap : c.signatures = some m) (es : List SigmaContractEvent) :
    ((machine hash a).exec a es).toSigmaContract cl =
        (SigmaContract.machine hash (a.toSigmaContract cl)).exec (a.toSigmaContract cl) es ∧
      ∃ m', ((machine hash a).exec a es).entity.signatures = some m' ∧
        (∀ k ∈ a.parties, m'.map.get (a.idOf k) =
          match lastAdded k es with
          | some s => some (some s.toString)
          | none => m.map.get (a.idOf k)) ∧
        ∀ id, (∀ k ∈ a.parties, a.idOf k ≠ id) → m'.map.get id = m.map.get id := by
  obtain ⟨ids, keys, -, -, heq⟩ := ofEntity_eq_ok hmade
  have hentity : a.entity.signatures = some m := by rw [heq, hmap]
  have hcl : a.clauses = some cl := by rw [heq, hclauses]
  have hmirrors := mirrors_exec hash (founded_ofEntity hmade) (by rw [heq]) es
  refine ⟨?_, ?_⟩
  · have hrefines : Refines cl a (a.toSigmaContract cl) :=
      { clauses := hcl, map := hentity ▸ Option.some_ne_none m, contract := rfl }
    exact (Machine.exec_simulates (fun _ _ e h => h.next e) hrefines es).contract
  · have hsome : ((machine hash a).exec a es).entity.signatures ≠ none :=
      fun hnull => Option.some_ne_none m (hentity.symm.trans (hmirrors.isNone.mp hnull))
    obtain ⟨m', hm'⟩ := Option.ne_none_iff_exists'.mp hsome
    exact ⟨m', hm', hmirrors.texts m m' hentity hm'⟩

theorem addSignature_without_map (hmap : a.entity.signatures = none) {k : ElGamalKey}
    (hk : k ∈ a.parties) (s : SignatureObject) :
    a.addSignature hash k s = ({ a with signatures := a.signatures.put k s.signature },
      .error .nullPointer) := by
  simp only [addSignature, if_pos hk, hmap]

theorem next_status_without_map {a₀ : SigmaContractAdapter} (hmap : a.entity.signatures = none)
    {e : SigmaContractEvent} (h : ((machine hash a₀).next a e).entity.status = some .finalized) :
    a.entity.status = some .finalized ∨ e = .setStatus .finalized := by
  cases e with
  | addSignature k s =>
      refine Or.inl ?_
      change (a.addSignature hash k s).1.entity.status = some .finalized at h
      by_cases hk : k ∈ a.parties
      · rwa [addSignature_without_map hmap hk] at h
      · rwa [addSignature_of_not_mem hk] at h
  | isFinalized =>
      obtain ⟨signer, hsigner⟩ := isFinalized_frame hash a
      change (a.isFinalized hash).1.entity.status = some .finalized at h
      rw [hsigner] at h
      exact Or.inl h
  | setTrentKey k => exact Or.inl h
  | setStatus s =>
      obtain rfl : s = .finalized := Option.some.inj h
      exact Or.inr rfl
  | setWish w => exact Or.inl h

variable (hash) in
/-- Without a map of signatures, which is how contracts are stored, every signature of a party
throws after it was stored, and none makes the contract final. -/
theorem made_contract_without_map (hmade : ofEntity db users c = .ok a) (hmap : c.signatures = none)
    (es : List SigmaContractEvent) :
    (∀ k ∈ a.parties, ∀ s, (((machine hash a).exec a es).addSignature hash k s).2 =
      .error .nullPointer ∧
      (((machine hash a).exec a es).addSignature hash k s).1.signatures.get k = some s.signature) ∧
    (((machine hash a).exec a es).entity.status = some .finalized →
      c.status = some .finalized ∨ .setStatus .finalized ∈ es) := by
  obtain ⟨ids, keys, -, -, heq⟩ := ofEntity_eq_ok hmade
  have hentity : a.entity.signatures = none := by rw [heq, hmap]
  have hmirrors := mirrors_exec hash (founded_ofEntity hmade) (by rw [heq]) es
  refine ⟨fun k hk s => ?_, ?_⟩
  · rw [addSignature_without_map (hmirrors.isNone.mpr hentity) (hmirrors.parties ▸ hk)]
    exact ⟨rfl, by simp [HashMap.get_put]⟩
  · have hstatus : a.entity.status = c.status := by rw [heq]
    clear hmirrors
    induction es using List.reverseRecOn with
    | nil => exact fun hfinal => Or.inl (hstatus ▸ hfinal)
    | append_singleton es e ih =>
        intro hfinal
        rw [Machine.exec_append] at hfinal
        have hnull := (mirrors_exec hash (founded_ofEntity hmade) (by
          rw [heq]) es).isNone.mpr hentity
        rcases next_status_without_map hnull hfinal with hbefore | rfl
        · exact (ih hbefore).imp_right fun hmem => List.mem_append_left _ hmem
        · exact Or.inr (List.mem_append_right es (List.mem_singleton_self _))

end SigmaContractAdapter

namespace Sample

open SigmaContractAdapter

def keyOwner : User where
  id := some "A"
  nick := some "Alice"
  salt := some [7]
  passwordHash := some [1]
  createdAt := some 0
  keys := some { publicKey := some 8, p := some 23, g := some 5 }
  signature := none

/-- A contract with one party, as an entity with the map of signatures `m`. -/
def ownedContract (m : Option StringMap) : ContractEntity where
  id := some "1"
  userid := some "A"
  createdAt := some 0
  title := some "Lease"
  clauses := some [some "One year"]
  parties := some [some "A"]
  partiesNames := none
  wish := some .accept
  status := some .nowhere
  signatures := m
  establisherType := none
  establishementData := none

def ownedAdapter (m : Option StringMap) : SigmaContractAdapter where
  entity := { ownedContract m with establisherType := some .sigma }
  parties := [{ p := 23, g := 5, publicKey := 8 }]
  partiesId := { entries := [({ p := 23, g := 5, publicKey := 8 }, some "A")] }
  clauses := some [some "One year"]

theorem ofEntity_ownedContract (m : Option StringMap) :
    ofEntity derby [keyOwner] (ownedContract m) = .ok (ownedAdapter m) := rfl

/-- A signature that proves nothing. -/
def emptySignature : SignatureObject where
  signature :=
    { pcs := { ands := [], a := 0 }
      rpcs := { kind := .cce, masks := { a := 1, aBis := none }, challenge := 0, response := 0 }
      trentK := { p := 23, g := 5, publicKey := 2 } }
  hashCode := 255

theorem made_contract_mirrors_owned : ∃ m' : StringMap,
    ((machine (fun _ => 0) (ownedAdapter (some {}))).exec (ownedAdapter (some {}))
        [.addSignature { p := 23, g := 5, publicKey := 8 } emptySignature]).entity.signatures =
          some m' ∧
      m'.map.get (some "A") = some (some "model.entity.sigma.SigmaSignature@ff") := by
  obtain ⟨-, m', hm', hparty, -⟩ :=
    made_contract_mirrors (fun _ => 0) (ofEntity_ownedContract (some {})) rfl rfl
    [.addSignature { p := 23, g := 5, publicKey := 8 } emptySignature]
  exact ⟨m', hm', (hparty { p := 23, g := 5, publicKey := 8 } (List.mem_singleton_self _)).trans (by
    decide +kernel)⟩

theorem made_contract_without_map_owned :
    ((ownedAdapter none).addSignature (fun _ => 0)
      { p := 23, g := 5, publicKey := 8 } emptySignature).2 = .error .nullPointer :=
  ((made_contract_without_map (fun _ => 0) (ofEntity_ownedContract none) rfl []).1 _
    (List.mem_singleton_self _) emptySignature).1

end Sample

end Sxp
