-- SUMMARY: What an edit does to the copies of contracts: when it changes one contract only, and when the copies of a contract go on agreeing.
import Sxp.Controller.Contracts

/-!
# Copies of a contract

The copies of a contract are linked by nothing but their title. An edit finds copies by the title
it brings, and writes those that have the editor among their parties and are neutral.
-/

namespace Sxp

namespace Contracts

variable {db : Comparison} {s : ContractStore} {users : List User} {c : ContractEntity}
  {names : StringMap} {x : StoredContract}

/-! ## What an edit writes -/

/-- All parties that the edit brings are users. -/
def PartiesKnown (db : Comparison) (users : List User) (c : ContractEntity) : Prop :=
  ∀ parties, c.parties = some parties → ∀ id ∈ parties, getUser db users id ≠ none

theorem nicks_eq_ok_iff {parties : List (Option String)} :
    (∃ entries, nicks db users parties = .ok entries) ↔
    ∀ id ∈ parties, getUser db users id ≠ none := by
  induction parties with
  | nil => simp [nicks]
  | cons id parties ih =>
      rw [List.forall_mem_cons, ← ih, nicks]
      cases getUser db users id with
      | none => simp [notNull, bind, Except.bind]
      | some u =>
          cases nicks db users parties with
          | error e => simp [notNull, bind, Except.bind]
          | ok entries => simp [notNull, pure, Except.pure]

theorem namesFor_eq_ok_iff : (∃ names, namesFor db users c = .ok names) ↔
    PartiesKnown db users c := by
  rw [namesFor, PartiesKnown]
  cases c.parties with
  | none => simp
  | some parties =>
      simp only [partiesNames, Except.bind_eq_ok, Option.some.injEq, forall_eq', ← nicks_eq_ok_iff]
      constructor
      · rintro ⟨names, entries, hentries, -⟩
        exact ⟨entries, hentries⟩
      · rintro ⟨entries, hentries⟩
        exact ⟨_, entries, hentries, rfl⟩

/-- The edit writes the copy. -/
def Reached (db : Comparison) (c : ContractEntity) (x : StoredContract) : Prop :=
  Found db c x ∧ (∃ parties, x.parties = some parties ∧ c.userid ∈ parties) ∧ x.wish = .neutral

/-- The copies that are found have parties to look the editor up in. -/
def Searchable (db : Comparison) (c : ContractEntity) (copies : List StoredContract) : Prop :=
  ∀ x ∈ copies, Found db c x → x.parties ≠ none

open Classical in
/-- What an edit makes of a copy. -/
noncomputable def afterEdit (db : Comparison) (c : ContractEntity) (names : StringMap)
    (x : StoredContract) : StoredContract :=
  if Reached db c x then edited c names x else x

theorem editLoop_eq {copies : List StoredContract} (h : Searchable db c copies) :
    editLoop db c names copies = .ok (copies.map (afterEdit db c names)) := by
  induction copies with
  | nil => rfl
  | cons x rest ih =>
      rw [Searchable, List.forall_mem_cons] at h
      rw [editLoop, ih h.2, List.map_cons]
      by_cases hfound : Found db c x
      · obtain ⟨parties, hparties⟩ := Option.ne_none_iff_exists'.mp (h.1 hfound)
        have hreached : Reached db c x ↔ parties.contains c.userid ∧ x.wish = .neutral := by
          simp [Reached, hfound, hparties]
        rw [if_pos hfound, hparties, afterEdit]
        simp only [notNull, Except.ok_bind, hreached]
        congr
      · rw [if_neg hfound, afterEdit, if_neg fun hreached => hfound hreached.1]
        rfl

theorem searchable_of_editLoop {copies copies' : List StoredContract}
    (h : editLoop db c names copies = .ok copies') : Searchable db c copies := by
  induction copies generalizing copies' with
  | nil => simp [Searchable]
  | cons x rest ih =>
      rw [Searchable, List.forall_mem_cons]
      rw [editLoop] at h
      split at h
      · simp only [Except.bind_eq_ok, notNull_eq_ok] at h
        obtain ⟨parties, hparties, rest', hrest, -⟩ := h
        exact ⟨fun _ => by simp [hparties], ih hrest⟩
      · rename_i hfound
        obtain ⟨rest', hrest, -⟩ := Except.bind_eq_ok.mp h
        exact ⟨fun h => absurd h hfound, ih hrest⟩

/-- The edit does not throw. -/
def Ends (db : Comparison) (s : ContractStore) (users : List User) (c : ContractEntity) : Prop :=
  PartiesKnown db users c ∧ Searchable db c s.copies

/-- An edit that ends writes the copies it reaches. -/
theorem next_edit (h : Ends db s users c) (init : ContractStore) :
    ∃ names, namesFor db users c = .ok names ∧
      (requests db init).next s (.edit users c) =
      { s with copies := s.copies.map (afterEdit db c names) } := by
  obtain ⟨names, hnames⟩ := namesFor_eq_ok_iff.mpr h.1
  refine ⟨names, hnames, ?_⟩
  simp only [Machine.next, requests, handle, edit, hnames, editLoop_eq h.2, Except.ok_bind]
  rfl

/-- An edit that throws writes nothing. -/
theorem next_edit_of_not_ends (h : ¬ Ends db s users c) (init : ContractStore) :
    (requests db init).next s (.edit users c) = s := by
  have herror : ∃ e, edit db s users c = .error e := by
    rcases hedit : edit db s users c with e | ⟨s', answer⟩
    · exact ⟨e, rfl⟩
    · rw [edit] at hedit
      obtain ⟨names, hnames, hedit⟩ := Except.bind_eq_ok.mp hedit
      obtain ⟨copies, hcopies, -⟩ := Except.bind_eq_ok.mp hedit
      exact absurd ⟨namesFor_eq_ok_iff.mp ⟨names, hnames⟩, searchable_of_editLoop hcopies⟩ h
  obtain ⟨e, he⟩ := herror
  simp only [Machine.next, requests, handle, he]

/-! ## The frame of an edit -/

/-- The copy has what the edit brings. -/
def Carries (c : ContractEntity) (x : StoredContract) : Prop :=
  x.terms = (c.title, c.clauses, c.parties)

/-- The copies of the contract `g` have what the edit brings, and the others are as they were. -/
def EditsOnly (c : ContractEntity) (g : Nat) (before after : List StoredContract) : Prop :=
  List.Forall₂ (fun x x' => x'.id = x.id ∧ x'.origin = x.origin ∧
    (x.origin = g → Carries c x') ∧ (x.origin ≠ g → x' = x)) before after

/-- The edit fits the store: it reaches each copy of the contract, unless the copy has what the
edit brings already, and a copy of another contract only if that has it. -/
def EditFits (db : Comparison) (s : ContractStore) (users : List User) (c : ContractEntity)
    (g : Nat) : Prop :=
  (∀ x ∈ s.copies, x.origin = g → Ends db s users c ∧ Reached db c x ∨ Carries c x) ∧
    (Ends db s users c → ∀ x ∈ s.copies, x.origin ≠ g → Reached db c x →
      Carries c x ∧ ∀ names, namesFor db users c = .ok names → x.partiesNames = some names)

/-- Writing a copy changes nothing if it has all values already. -/
theorem edited_eq_self_iff : edited c names x = x ↔ Carries c x ∧ x.partiesNames = some names := by
  constructor
  · intro h
    rw [← h]
    exact ⟨rfl, rfl⟩
  · rintro ⟨hterms, hnames⟩
    rw [Carries, StoredContract.terms, Prod.mk.injEq, Prod.mk.injEq] at hterms
    obtain ⟨htitle, hclauses, hparties⟩ := hterms
    rw [edited, ← htitle, ← hclauses, ← hparties, ← hnames]

theorem id_afterEdit : (afterEdit db c names x).id = x.id := by
  unfold afterEdit
  split <;> rfl

theorem origin_afterEdit : (afterEdit db c names x).origin = x.origin := by
  unfold afterEdit
  split <;> rfl

theorem carries_afterEdit_iff : Carries c (afterEdit db c names x) ↔
    Reached db c x ∨ Carries c x := by
  unfold afterEdit
  split
  · rename_i h
    exact iff_of_true rfl (Or.inl h)
  · rename_i h
    rw [or_iff_right h]

theorem afterEdit_eq_self_iff : afterEdit db c names x = x ↔
    (Reached db c x → Carries c x ∧ x.partiesNames = some names) := by
  unfold afterEdit
  split
  · rename_i h
    rw [edited_eq_self_iff]
    exact (imp_iff_right h).symm
  · rename_i h
    exact iff_of_true rfl fun h' => absurd h' h

/-- An edit changes the copies of one contract only, and all of them, if it fits, and only then. -/
theorem edit_only_iff (db : Comparison) (init s : ContractStore) (users : List User)
    (c : ContractEntity) (g : Nat) :
    EditsOnly c g s.copies ((requests db init).next s (.edit users c)).copies ↔
    EditFits db s users c g := by
  by_cases hends : Ends db s users c
  · obtain ⟨names, hnames, hnext⟩ := next_edit hends init
    rw [hnext, EditsOnly, List.forall₂_map_right_iff, List.forall₂_same, EditFits]
    simp only [id_afterEdit, origin_afterEdit, carries_afterEdit_iff, afterEdit_eq_self_iff,
      hends, hnames, true_and, true_implies, Except.ok.injEq, forall_eq']
    exact forall₂_and
  · rw [next_edit_of_not_ends hends, EditsOnly, List.forall₂_same, EditFits]
    simp [hends]

theorem EditsOnly.mem_before {before after : List StoredContract} {g : Nat}
    (h : EditsOnly c g before after) : ∀ x ∈ after, x.origin ≠ g → x ∈ before := by
  induction h with
  | nil => simp
  | cons hx _ ih =>
      obtain ⟨-, horigin, -, hother⟩ := hx
      rw [List.forall_mem_cons]
      refine ⟨fun hne => ?_, fun y hy hne => List.mem_cons_of_mem _ (ih y hy hne)⟩
      rw [horigin] at hne
      rw [hother hne]
      exact List.mem_cons_self

end Contracts

namespace Sample

def tenant (id nick : String) : User where
  id := some id
  nick := some nick
  salt := none
  passwordHash := none
  createdAt := none
  keys := none
  signature := none

def users : List User := [tenant "A" "Alice", tenant "B" "Bob", tenant "C" "Carol"]

/-- A contract as a request brings it. -/
def lease (id userid : Option String) (clauses : List (Option String))
    (parties : List (Option String)) : ContractEntity where
  id := id
  userid := userid
  createdAt := none
  title := some "Lease"
  clauses := some clauses
  parties := some parties
  partiesNames := none
  wish := none
  status := none
  signatures := none
  establisherType := none
  establishementData := none

/-- The request that adds a lease of Alice and another party. -/
def addLease (other : String) (ids : List String) : ContractsRequest :=
  .add users (some (tenant "A" "Alice")) (lease none none [some "One year"] [some "A",
    some other]) false 0 ids

/-- Two leases of Alice with one title. -/
def leases : ContractStore :=
  (Contracts.requests derby .empty).exec .empty [addLease "B" ["1", "2"], addLease "C" ["3", "4"]]

/-- Alice edits the first one. -/
def longerLease : ContractEntity :=
  lease (some "1") (some "A") [some "Two years"] [some "A", some "B"]

end Sample

namespace Contracts

/-- The edit of one lease writes the other one, too. -/
theorem edit_changes_other_lease :
    (∃ x ∈ Sample.leases.copies, some x.id = Sample.longerLease.id ∧
      some x.userid = Sample.longerLease.userid ∧
      x.origin = 0) ∧ (∀ x ∈ Sample.leases.copies, x.wish = .neutral) ∧
    ¬ EditsOnly Sample.longerLease 0 Sample.leases.copies
      ((requests Sample.derby .empty).next Sample.leases
        (.edit Sample.users Sample.longerLease)).copies := by
  refine ⟨by decide +kernel, by decide +kernel, fun h => ?_⟩
  have hwritten : ∃ x ∈ ((requests Sample.derby .empty).next Sample.leases
      (.edit Sample.users Sample.longerLease)).copies,
      x.origin = 1 ∧ x.clauses = some [some "Two years"] := by
    decide +kernel
  have hbefore : ∀ x ∈ Sample.leases.copies, x.clauses ≠ some [some "Two years"] := by
    decide +kernel
  obtain ⟨x, hx, horigin, hclauses⟩ := hwritten
  exact hbefore x (h.mem_before x hx (by rw [horigin]; decide)) hclauses

/-! ## Copies that agree -/

/-- The copies that one request made agree on the title, the clauses and the parties. -/
def Agree (s : ContractStore) : Prop := ∀ x ∈ s.copies, ∀ y ∈ s.copies, x.origin = y.origin →
    x.terms = y.terms

/-- The edit reaches all copies of a contract or none, unless the ones it leaves out have what it
brings already. -/
def EditReachesAll (db : Comparison) (s : ContractStore) (users : List User)
    (c : ContractEntity) : Prop :=
  Ends db s users c → ∀ x ∈ s.copies, Reached db c x → ∀ y ∈ s.copies, y.origin = x.origin →
    Reached db c y ∨ Carries c y

theorem agree_edit_iff (h : Agree s) (init : ContractStore) :
    Agree ((requests db init).next s (.edit users c)) ↔ EditReachesAll db s users c := by
  by_cases hends : Ends db s users c
  · obtain ⟨names, -, hnext⟩ := next_edit hends init
    rw [hnext]
    constructor
    · intro hagree _ x hx hreached y hy horigin
      have hxy := hagree _ (List.mem_map_of_mem hx) _ (List.mem_map_of_mem hy)
        (by rw [origin_afterEdit, origin_afterEdit, horigin])
      have hcarries : Carries c (afterEdit db c names x) :=
        carries_afterEdit_iff.mpr (Or.inl hreached)
      rw [Carries, hxy] at hcarries
      exact carries_afterEdit_iff.mp hcarries
    · intro hall x' hx' y' hy' horigin
      obtain ⟨x, hx, rfl⟩ := List.mem_map.mp hx'
      obtain ⟨y, hy, rfl⟩ := List.mem_map.mp hy'
      rw [origin_afterEdit, origin_afterEdit] at horigin
      by_cases hreachedx : Reached db c x
      · have hcx : Carries c (afterEdit db c names x) :=
          carries_afterEdit_iff.mpr (Or.inl hreachedx)
        have hcy : Carries c (afterEdit db c names y) :=
          carries_afterEdit_iff.mpr (hall hends x hx hreachedx y hy horigin.symm)
        exact hcx.trans hcy.symm
      · by_cases hreachedy : Reached db c y
        · have hcy : Carries c (afterEdit db c names y) :=
            carries_afterEdit_iff.mpr (Or.inl hreachedy)
          have hcx : Carries c (afterEdit db c names x) :=
            carries_afterEdit_iff.mpr (hall hends y hy hreachedy x hx horigin)
          exact hcx.trans hcy.symm
        · rw [afterEdit, if_neg hreachedx, afterEdit, if_neg hreachedy]
          exact h x hx y hy horigin
  · rw [next_edit_of_not_ends hends]
    exact iff_of_true h fun h' => absurd h' hends

/-! ## Runs -/

/-- The requests were numbered one after the other. -/
def Numbered (s : ContractStore) : Prop := ∀ x ∈ s.copies, x.origin < s.added

/-- The step keeps what the copies agree on, each by itself. -/
def Rewrites (s s' : ContractStore) : Prop :=
  s'.added = s.added ∧ ∃ f : StoredContract → StoredContract,
    (∀ x, (f x).terms = x.terms ∧ (f x).origin = x.origin) ∧ s'.copies = s.copies.map f

/-- The step adds copies with one number and with the same terms. -/
def Adds (s s' : ContractStore) : Prop :=
  s'.added = s.added + 1 ∧ ∃ copies terms, (∀ x ∈ copies, x.terms = terms ∧ x.origin = s.added) ∧
    s'.copies = s.copies ++ copies

theorem Rewrites.refl (s : ContractStore) : Rewrites s s :=
  ⟨rfl, id, fun _ => ⟨rfl, rfl⟩, (List.map_id _).symm⟩

theorem rewrites_write {f : StoredContract → StoredContract}
    (hf : ∀ x, (f x).terms = x.terms ∧ (f x).origin = x.origin)
    (s : ContractStore) (id : String) : Rewrites s (write s id f) := by
  refine ⟨rfl, _, fun x => ?_, rfl⟩
  split
  · exact hf x
  · exact ⟨rfl, rfl⟩

theorem rewrites_sign {id : String} {outcome : Except JavaException SignOutcome}
    {s' : ContractStore}
    {answer : ContractsAnswer} (h : sign db s id outcome = .ok (s', answer)) : Rewrites s s' := by
  rw [sign] at h
  obtain ⟨c, -, h⟩ := Except.bind_eq_ok.mp h
  split at h
  · obtain ⟨o, -, h⟩ := Except.bind_eq_ok.mp h
    obtain ⟨rfl, -⟩ := Prod.mk.inj (Except.ok.inj h)
    refine rewrites_write ?_ s c.id
    exact fun x => ⟨rfl, rfl⟩
  · obtain ⟨rfl, -⟩ := Prod.mk.inj (Except.ok.inj h)
    exact Rewrites.refl s

theorem rewrites_cancel {id : String} {s' : ContractStore} {answer : ContractsAnswer}
    (h : cancel db s id = .ok (s', answer)) : Rewrites s s' := by
  rw [cancel] at h
  obtain ⟨c, -, h⟩ := Except.bind_eq_ok.mp h
  split at h
  · obtain ⟨rfl, -⟩ := Prod.mk.inj (Except.ok.inj h)
    refine rewrites_write ?_ s c.id
    exact fun x => ⟨rfl, rfl⟩
  · obtain ⟨rfl, -⟩ := Prod.mk.inj (Except.ok.inj h)
    refine rewrites_write ?_ s c.id
    exact fun x => ⟨rfl, rfl⟩
  · obtain ⟨rfl, -⟩ := Prod.mk.inj (Except.ok.inj h)
    exact Rewrites.refl s

theorem exists_of_mem_newCopies {make : String → String → StoredContract}
    {parties : List (Option String)} {ids : List String} {copies : List StoredContract}
    (h : newCopies make parties ids = .ok copies) :
    ∀ x ∈ copies, ∃ id userid, x = make id userid := by
  induction parties generalizing ids copies with
  | nil =>
      obtain rfl := Except.ok.inj h
      simp
  | cons party parties ih =>
      rw [newCopies] at h
      obtain ⟨userid, -, h⟩ := Except.bind_eq_ok.mp h
      obtain ⟨rest, hrest, h⟩ := Except.bind_eq_ok.mp h
      obtain rfl := Except.ok.inj h
      rw [List.forall_mem_cons]
      exact ⟨⟨_, _, rfl⟩, ih hrest⟩

theorem adds_add {currentUser : Option User} {contract : ContractEntity}
    {literal : Bool} {now : Int} {ids : List String} {s' : ContractStore} {answer : ContractsAnswer}
    (h : add db s users currentUser contract literal now ids = .ok (s', answer)) : Adds s s' := by
  rw [add] at h
  obtain ⟨parties, -, h⟩ := Except.bind_eq_ok.mp h
  obtain ⟨names, -, h⟩ := Except.bind_eq_ok.mp h
  obtain ⟨copies, hcopies, h⟩ := Except.bind_eq_ok.mp h
  obtain ⟨answer', -, h⟩ := Except.bind_eq_ok.mp h
  obtain ⟨rfl, -⟩ := Prod.mk.inj (Except.ok.inj h)
  refine ⟨rfl, copies, (addTitle contract.title literal, contract.clauses, some parties),
    fun x hx => ?_, rfl⟩
  obtain ⟨id, userid, rfl⟩ := exists_of_mem_newCopies hcopies x hx
  exact ⟨rfl, rfl⟩

theorem Rewrites.agree {s s' : ContractStore} (h : Rewrites s s') (hagree : Agree s) :
    Agree s' := by
  obtain ⟨-, f, hf, hcopies⟩ := h
  rw [Agree, hcopies]
  intro x' hx' y' hy' horigin
  obtain ⟨x, hx, rfl⟩ := List.mem_map.mp hx'
  obtain ⟨y, hy, rfl⟩ := List.mem_map.mp hy'
  rw [(hf x).2, (hf y).2] at horigin
  rw [(hf x).1, (hf y).1]
  exact hagree x hx y hy horigin

theorem Rewrites.numbered {s s' : ContractStore} (h : Rewrites s s') (hnumbered : Numbered s) :
    Numbered s' := by
  obtain ⟨hadded, f, hf, hcopies⟩ := h
  rw [Numbered, hcopies, hadded]
  intro x' hx'
  obtain ⟨x, hx, rfl⟩ := List.mem_map.mp hx'
  rw [(hf x).2]
  exact hnumbered x hx

theorem Adds.numbered {s s' : ContractStore} (h : Adds s s') (hnumbered : Numbered s) :
    Numbered s' := by
  obtain ⟨hadded, copies, terms, hnew, hcopies⟩ := h
  rw [Numbered, hcopies, hadded, List.forall_mem_append]
  exact ⟨fun x hx => Nat.lt_succ_of_lt (hnumbered x hx),
    fun x hx => by rw [(hnew x hx).2]; exact Nat.lt_succ_self _⟩

theorem Adds.agree {s s' : ContractStore} (h : Adds s s') (hnumbered : Numbered s)
    (hagree : Agree s) : Agree s' := by
  obtain ⟨-, copies, terms, hnew, hcopies⟩ := h
  rw [Agree, hcopies]
  intro x hx y hy horigin
  rcases List.mem_append.mp hx with hx | hx
  · rcases List.mem_append.mp hy with hy | hy
    · exact hagree x hx y hy horigin
    · exact absurd (hnumbered x hx) (by rw [horigin, (hnew y hy).2]; exact Nat.lt_irrefl _)
  · rcases List.mem_append.mp hy with hy | hy
    · exact absurd (hnumbered y hy) (by rw [← horigin, (hnew x hx).2]; exact Nat.lt_irrefl _)
    · rw [(hnew x hx).1, (hnew y hy).1]

/-- A request that is no edit, or an edit that reaches all copies of a contract or none. -/
def KeepsAgreement (db : Comparison) (s : ContractStore) : ContractsRequest → Prop
  | .edit users c => EditReachesAll db s users c
  | _ => True

/-- Everything a request but an edit does. -/
theorem next_cases (init s : ContractStore) {request : ContractsRequest}
    (h : ∀ users c, request ≠ .edit users c) :
    Rewrites s ((requests db init).next s request) ∨
    Adds s ((requests db init).next s request) := by
  rcases hhandle : handle db s request with e | ⟨s', answer⟩
  · left
    simp only [Machine.next, requests, hhandle]
    exact Rewrites.refl s
  · have hnext : (requests db init).next s request = s' := by
      simp only [Machine.next, requests, hhandle]
    rw [hnext]
    cases request with
    | add users currentUser contract literal now ids => exact Or.inr (adds_add hhandle)
    | edit users c => exact absurd rfl (h users c)
    | sign id outcome => exact Or.inl (rewrites_sign hhandle)
    | cancel id => exact Or.inl (rewrites_cancel hhandle)

theorem numbered_edit (hnumbered : Numbered s) (init : ContractStore) (users : List User)
    (c : ContractEntity) : Numbered ((requests db init).next s (.edit users c)) := by
  by_cases hends : Ends db s users c
  · obtain ⟨names, -, hnext⟩ := next_edit hends init
    rw [hnext]
    intro x' hx'
    obtain ⟨x, hx, rfl⟩ := List.mem_map.mp hx'
    rw [origin_afterEdit]
    exact hnumbered x hx
  · rw [next_edit_of_not_ends hends]
    exact hnumbered

/-- A step that keeps the condition keeps the agreement, and every step the numbers. -/
theorem agree_next_iff (hagree : Agree s) (hnumbered : Numbered s) (init : ContractStore)
    (request : ContractsRequest) :
    (Agree ((requests db init).next s request) ↔ KeepsAgreement db s request) ∧
      Numbered ((requests db init).next s request) := by
  by_cases hedit : ∃ users c, request = .edit users c
  · obtain ⟨users, c, rfl⟩ := hedit
    exact ⟨agree_edit_iff hagree init, numbered_edit hnumbered init users c⟩
  · have hne : ∀ users c, request ≠ .edit users c := fun users c heq => hedit ⟨users, c, heq⟩
    have hkeeps : KeepsAgreement db s request := by
      cases request with
      | edit users c => exact absurd rfl (hne users c)
      | _ => trivial
    rcases next_cases init s hne with hrewrites | hadds
    · exact ⟨iff_of_true (hrewrites.agree hagree) hkeeps, hrewrites.numbered hnumbered⟩
    · exact ⟨iff_of_true (hadds.agree hnumbered hagree) hkeeps, hadds.numbered hnumbered⟩

/-- In a run the copies of each contract agree after every request if each edit reaches all copies
of a contract or none, and only then. -/
theorem agree_run_iff (db : Comparison) (rs : List ContractsRequest) :
    (∀ t ∈ (requests db .empty).trace .empty rs, Agree ((requests db .empty).next t.1 t.2)) ↔
      ∀ t ∈ (requests db .empty).trace .empty rs, KeepsAgreement db t.1 t.2 := by
  have hiff : ∀ (s : ContractStore) request, Agree s ∧ Numbered s →
      (Agree ((requests db .empty).next s request) ↔ KeepsAgreement db s request) :=
    fun s request h => (agree_next_iff h.1 h.2 _ request).1
  refine (requests db .empty).trace_forall_iff hiff
    (fun s request h hagree => ⟨hagree, (agree_next_iff h.1 h.2 _ request).2⟩) ⟨?_, ?_⟩ rs
  · exact fun x hx => absurd hx List.not_mem_nil
  · exact fun x hx => absurd hx List.not_mem_nil

/-- Alice accepts the lease, and then Bob edits it. -/
theorem edit_after_sign :
    let rs := [Sample.addLease "B" ["1", "2"],
      .sign "1" (.ok { status := .signing, signatures := {}, data := "" }),
      .edit Sample.users (Sample.lease (some "2") (some "B") [some "Two years"]
        [some "A", some "B"])]
    ¬ ∀ t ∈ (requests Sample.derby .empty).trace .empty rs,
      Agree ((requests Sample.derby .empty).next t.1 t.2) := by
  intro rs h
  have hlast := h _ ((requests Sample.derby .empty).mem_trace_last .empty (rs.take 2) _)
  have hdiffer : ∃ x ∈ ((requests Sample.derby .empty).exec .empty rs).copies,
      ∃ y ∈ ((requests Sample.derby .empty).exec .empty rs).copies,
      x.origin = y.origin ∧ x.terms ≠ y.terms := by
    decide +kernel
  obtain ⟨x, hx, y, hy, horigin, hne⟩ := hdiffer
  exact hne (hlast x hx y hy horigin)

end Contracts

end Sxp
