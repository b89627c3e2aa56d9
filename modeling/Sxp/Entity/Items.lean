-- SUMMARY: Requests of logged-in users to add, edit and delete items: every stored item stays signed exactly as long as no edit changes an item without signing it.
import Sxp.Base.HashMap
import Sxp.Base.Machine
import Sxp.Entity.Authenticity

/-!
# Items

Every request loads what it needs, and commits or fails as a whole. The manager signs a
changed item on commit if the item's `userid` and the user's id are one `String` object.
Whether two equal strings that were loaded are one object is up to the persistence layer, and
so is whether a commit succeeds: both are part of a request here.
-/

namespace Sxp

/-- What a user is known by, next to the id. -/
structure Account where
  nick : String
  key : OwnerKey

/-- `s.length()`, which counts the characters beyond the basic plane twice. -/
def utf16Length (s : String) : Nat := (s.toList.map fun c => if c.toNat < 65536 then 1 else 2).sum

/-- The constraints `@NotNull` and `@Size` on a text. -/
def sized (lo hi : Nat) : Option String → Bool
  | none => false
  | some s => decide (lo ≤ utf16Length s ∧ utf16Length s ≤ hi)

/-- `ItemValidator.validate`: the constraints of the fields. -/
def Item.validate (i : Item) : Bool :=
  sized 3 255 i.title && sized 3 2000 i.description && i.createdAt.isSome && i.pbkey.isSome &&
    sized 2 255 i.username && i.userid.isSome

namespace Items

variable (accounts : String → Account) (platform : Platform)

/-- A request of a logged-in user, whose id is the object `user`. -/
inductive Request where
  /-- `generated` is the id made for a draft without one. -/
  | add (user : JString) (draft : Item) (generated : String) (now : Int) (k : Int) (commits : Bool)
  /-- `ref` tells the object in the loaded item's `userid`. -/
  | edit (user : JString) (draft : Item) (ref : Nat) (k : Int) (commits : Bool)
  | delete (user : JString) (id : String) (ref : Nat) (commits : Bool)

/-- The object in the field `userid` of a loaded item. -/
def useridObject (i : Item) (ref : Nat) : Option JString := i.userid.map fun s => ⟨s, ref⟩

/-- The loop of `CryptoItemManagerDecorator.end` for one changed item. -/
def signChanged (user : JString) (userid : Option JString) (k : Int) (i : Item) :
    Except JavaException Item :=
  if userid = some user then
    CryptoParser.signeFields platform (some (accounts user.chars).key.entity) (fun _ => k) i
  else .ok i

/-- The item that `add` persists. -/
def drafted (user : JString) (draft : Item) (generated : String) (now : Int) : Item :=
  { draft with
    id := some (draft.id.getD generated)
    username := some (accounts user.chars).nick
    pbkey := some (accounts user.chars).key.publicKey
    userid := some user.chars
    signature := some {}
    createdAt := some now }

def add (store : HashMap String Item) (user : JString) (draft : Item) (generated : String)
    (now k : Int) (commits : Bool) : Except JavaException (HashMap String Item) := do
  let id := draft.id.getD generated
  let i ← signChanged accounts platform user (some user) k
    (drafted accounts user draft generated now)
  -- an id can be inserted once
  return if i.validate && commits && !store.containsKey id then store.put id i else store

/-- The loaded item with the new texts. -/
def edited (it draft : Item) : Item :=
  { it with title := draft.title, description := draft.description }

def edit (store : HashMap String Item) (user : JString) (draft : Item) (ref : Nat) (k : Int)
    (commits : Bool) : Except JavaException (HashMap String Item) := do
  let id ← notNull draft.id
  let it ← notNull (store.get id)
  -- an item without changes is neither signed nor written
  if edited it draft = it then return store
  let i ← signChanged accounts platform user (useridObject it ref) k (edited it draft)
  return if i.validate && commits then store.put id i else store

def delete (store : HashMap String Item) (user : JString) (id : String) (ref : Nat)
    (commits : Bool) : Except JavaException (HashMap String Item) := do
  let it ← notNull (store.get id)
  if useridObject it ref = some user then
    return if it.validate && commits then store.remove id else store
  else return store

def handle (store : HashMap String Item) : Request → Except JavaException (HashMap String Item)
  | .add user draft generated now k commits =>
      add accounts platform store user draft generated now k commits
  | .edit user draft ref k commits => edit accounts platform store user draft ref k commits
  | .delete user id ref commits => delete store user id ref commits

/-- The local store, which a request that fails leaves as it was. -/
def serving : Machine (HashMap String Item) Request (Option JavaException) where
  init := {}
  step store req :=
    match handle accounts platform store req with
    | .ok store' => (store', none)
    | .error e => (store, some e)

/-! ## What a request does -/

/-- The item passes the check over its present fields, with a signature of its owner. -/
def SignedByOwner (i : Item) : Prop :=
  (CryptoParser.checkSignature platform i).isSome = true ∧
    ∃ uid, i.userid = some uid ∧ ∃ t, CryptoParser.MadeFor platform.hash (accounts uid).key t i

/-- Every stored item is signed by its owner. -/
def AllSigned (store : HashMap String Item) : Prop :=
  ∀ id i, store.get id = some i → SignedByOwner accounts platform i

/-- The request commits an edit by someone whose id is not the object in the item, and the new
texts are not what the item is signed for. -/
def Spoils (store : HashMap String Item) : Request → Prop
  | .edit user draft ref _ commits =>
      commits = true ∧ ∃ id it, draft.id = some id ∧ store.get id = some it ∧
      useridObject it ref ≠ some user ∧ (edited it draft).validate = true ∧
      ¬ ElGamalSigner.SamePower platform.hash
        (CryptoParser.signedText platform (edited it draft) Item.signatureAnnotation)
        (CryptoParser.signedText platform it Item.signatureAnnotation)
  | _ => False

variable {accounts platform} {store : HashMap String Item}

theorem AllSigned.put (h : AllSigned accounts platform store) {id : String} {i : Item}
    (hi : SignedByOwner accounts platform i) : AllSigned accounts platform (store.put id i) := by
  intro id' i' hget
  rw [HashMap.get_put] at hget
  split at hget
  · obtain rfl := Option.some.inj hget
    exact hi
  · exact h id' i' hget

theorem AllSigned.remove (h : AllSigned accounts platform store) (id : String) :
    AllSigned accounts platform (store.remove id) := by
  intro id' i' hget
  rw [HashMap.get_remove] at hget
  split at hget
  · cases hget
  · exact h id' i' hget

/-- An item that is signed on commit is signed by its owner. -/
theorem signedByOwner_of_signed {user : JString} {k : Item.Field → Int} {i signed : Item}
    (huser : i.userid = some user.chars) (hkey : i.pbkey = some (accounts user.chars).key.publicKey)
    (hsigned : CryptoParser.signeFields platform (some (accounts user.chars).key.entity) k i =
      .ok signed) :
    SignedByOwner accounts platform signed := by
  obtain ⟨s, rfl, hmade⟩ := CryptoParser.signeFields_made hkey hsigned
  refine ⟨hmade.accepted_iff.mpr (ElGamalSigner.SamePower.of_eq rfl), user.chars, huser, _, hmade⟩

theorem add_cases {user : JString} {draft : Item} {generated : String} {now k : Int}
    {commits : Bool} {store' : HashMap String Item}
    (hadd : add accounts platform store user draft generated now k commits = .ok store') :
    store' = store ∨ ∃ id i, store' = store.put id i ∧ SignedByOwner accounts platform i := by
  obtain ⟨i, hi, hstore⟩ := Except.bind_eq_ok.mp hadd
  rw [signChanged, if_pos rfl] at hi
  have hsigned : SignedByOwner accounts platform i := signedByOwner_of_signed rfl rfl hi
  rw [Except.pure_eq_ok] at hstore
  split at hstore
  · exact Or.inr ⟨_, i, hstore.symm, hsigned⟩
  · exact Or.inl hstore.symm

theorem edit_cases {user : JString} {draft : Item} {ref : Nat} {k : Int} {commits : Bool}
    {store' : HashMap String Item} (h : AllSigned accounts platform store)
    (hedit : edit accounts platform store user draft ref k commits = .ok store') :
    store' = store ∨ (∃ id i, store' = store.put id i ∧ SignedByOwner accounts platform i) ∨
      commits = true ∧ ∃ id it, draft.id = some id ∧ store.get id = some it ∧
        useridObject it ref ≠ some user ∧ (edited it draft).validate = true ∧
        store' = store.put id (edited it draft) := by
  obtain ⟨id, hid, hedit⟩ := Except.bind_eq_ok.mp hedit
  obtain ⟨it, hit, hedit⟩ := Except.bind_eq_ok.mp hedit
  rw [notNull_eq_ok] at hid hit
  split at hedit
  · exact Or.inl (Except.pure_eq_ok.mp hedit).symm
  obtain ⟨i, hi, hstore⟩ := Except.bind_eq_ok.mp hedit
  rw [Except.pure_eq_ok] at hstore
  rw [signChanged] at hi
  split at hstore
  · rename_i hcommits
    rw [Bool.and_eq_true] at hcommits
    split at hi
    · -- the owner's key signs it, which is the key in the item
      rename_i hsame
      obtain ⟨hpasses, uid, huid, t, hkey, hmade⟩ := h id it hit
      have hchars : uid = user.chars := by
        rw [useridObject, huid, Option.map_some, Option.some.injEq] at hsame
        exact congrArg JString.chars hsame
      subst hchars
      have hsigned := signedByOwner_of_signed (i := edited it draft) huid hkey hi
      exact Or.inr (Or.inl ⟨id, i, hstore.symm, hsigned⟩)
    · rename_i hother
      obtain rfl := Except.ok.inj hi
      exact Or.inr (Or.inr ⟨hcommits.2, id, it, hid, hit, hother, hcommits.1, hstore.symm⟩)
  · exact Or.inl hstore.symm

theorem delete_cases {user : JString} {id : String} {ref : Nat} {commits : Bool}
    {store' : HashMap String Item} (hdelete : delete store user id ref commits = .ok store') :
    store' = store ∨ store' = store.remove id := by
  obtain ⟨it, -, hdelete⟩ := Except.bind_eq_ok.mp hdelete
  split at hdelete
  · rw [Except.pure_eq_ok] at hdelete
    split at hdelete
    · exact Or.inr hdelete.symm
    · exact Or.inl hdelete.symm
  · exact Or.inl (Except.pure_eq_ok.mp hdelete).symm

/-- An item that was edited and not signed passes exactly if its new texts are the same power. -/
theorem edited_signed_iff {it draft : Item} (h : SignedByOwner accounts platform it) :
    SignedByOwner accounts platform (edited it draft) ↔ ElGamalSigner.SamePower platform.hash
      (CryptoParser.signedText platform (edited it draft) Item.signatureAnnotation)
      (CryptoParser.signedText platform it Item.signatureAnnotation) := by
  obtain ⟨hpasses, uid, huid, t, hmade⟩ := h
  have hkept : CryptoParser.MadeFor platform.hash (accounts uid).key t (edited it draft) := hmade
  rw [hmade.accepted_iff] at hpasses
  constructor
  · rintro ⟨hpasses', -⟩
    exact (hkept.accepted_iff.mp hpasses').trans hpasses.symm
  · intro hsame
    exact ⟨hkept.accepted_iff.mpr (hsame.trans hpasses), uid, huid, t, hkept⟩

/-- A request that spoils an item stores it with the new texts. -/
theorem Spoils.handle {req : Request} (h : Spoils platform store req) :
    ∃ id it draft, store.get id = some it ∧
      handle accounts platform store req = .ok (store.put id (edited it draft)) ∧
      ¬ ElGamalSigner.SamePower platform.hash
        (CryptoParser.signedText platform (edited it draft) Item.signatureAnnotation)
        (CryptoParser.signedText platform it Item.signatureAnnotation) := by
  cases req with
  | edit user draft ref k commits =>
      obtain ⟨rfl, id, it, hid, hit, hother, hvalid, hdiffer⟩ := h
      have hchanged : edited it draft ≠ it := by
        intro hsame
        exact hdiffer (ElGamalSigner.SamePower.of_eq (by rw [hsame]))
      refine ⟨id, it, draft, hit, ?_, hdiffer⟩
      simp [Items.handle, edit, hid, hit, notNull, hchanged, signChanged, hother, hvalid]
  | add user draft generated now k commits => exact h.elim
  | delete user id ref commits => exact h.elim

/-- A request leaves all items signed exactly if it does not spoil one. -/
theorem next_signed_iff (h : AllSigned accounts platform store) (req : Request) :
    AllSigned accounts platform ((serving accounts platform).next store req) ↔
      ¬ Spoils platform store req := by
  have hnext : ∀ store', handle accounts platform store req = .ok store' →
      (serving accounts platform).next store req = store' := by
    intro store' hhandle
    simp only [Machine.next, serving, hhandle]
  constructor
  · intro hall hspoils
    obtain ⟨id, it, draft, hit, hhandle, hdiffer⟩ := Spoils.handle hspoils
    rw [hnext _ hhandle] at hall
    have hedited := hall id (edited it draft) (by simp [HashMap.get_put])
    exact hdiffer ((edited_signed_iff (h id it hit)).mp hedited)
  · intro hkept
    cases hhandle : handle accounts platform store req with
    | error e => simpa only [Machine.next, serving, hhandle] using h
    | ok store' =>
        rw [hnext _ hhandle]
        cases req with
        | add user draft generated now k commits =>
            rcases add_cases hhandle with rfl | ⟨id, i, rfl, hi⟩
            · exact h
            · exact h.put hi
        | edit user draft ref k commits =>
            rcases edit_cases h hhandle with rfl | ⟨id, i, rfl, hi⟩ |
              ⟨hcommits, id, it, hid, hit, hother, hvalid, rfl⟩
            · exact h
            · exact h.put hi
            · refine h.put ((edited_signed_iff (h id it hit)).mpr ?_)
              by_contra hdiffer
              exact hkept ⟨hcommits, id, it, hid, hit, hother, hvalid, hdiffer⟩
        | delete user id ref commits =>
            rcases delete_cases hhandle with rfl | rfl
            · exact h
            · exact h.remove id

/-- All items stay signed by their owners in a run exactly if none of its requests commits an
edit that is neither signed nor covered by the old signature. -/
theorem all_signed_iff (accounts : String → Account) (platform : Platform)
    (requests : List Request) :
    let m := serving accounts platform
    (∀ s ∈ m.trace m.init requests, AllSigned accounts platform (m.next s.1 s.2)) ↔
      ∀ s ∈ m.trace m.init requests, ¬ Spoils platform s.1 s.2 := by
  have hinit : AllSigned accounts platform (serving accounts platform).init := by
    intro id i hget
    cases hget
  exact (serving accounts platform).trace_forall_iff (P := AllSigned accounts platform)
    (Q := fun store req => AllSigned accounts platform ((serving accounts platform).next store req))
    (fun _ req h => next_signed_iff h req) (fun _ _ _ hnext => hnext) hinit requests

end Items

namespace Sample

/-- Every user has the owner's key, which makes no difference for an edit that is not signed. -/
def accounts (_ : String) : Account := { nick := "owner", key := ownerKey }

def draft (title : String) : Item :=
  { item title "a red one" 0 with id := some "i1" }

def addRequest : Items.Request := .add ⟨"0001", 0⟩ (draft "bicycle") "" 0 1 true

/-- Another user changes the title. -/
def editRequest : Items.Request := .edit ⟨"0002", 1⟩ (draft "bicycle 1") 0 1 true

end Sample

/-- An item that another user edited does not pass the check any more. -/
theorem Items.edited_by_stranger :
    ¬ ∀ s ∈ (serving Sample.accounts Sample.countingPlatform).trace {} [Sample.addRequest,
      Sample.editRequest], AllSigned Sample.accounts Sample.countingPlatform
        ((serving Sample.accounts Sample.countingPlatform).next s.1 s.2) := by
  intro hall
  obtain ⟨s, hs, -⟩ := CryptoParser.signeFields_eq
    (k := fun _ => 1) Sample.countingPlatform Sample.ownerKey
    (by decide) (drafted Sample.accounts ⟨"0001", 0⟩ (Sample.draft "bicycle") "" 0)
  have hadded : (serving Sample.accounts Sample.countingPlatform).next {} Sample.addRequest =
      HashMap.singleton "i1" { Sample.draft "bicycle" with signature := some s } := by
    have hhandle : handle Sample.accounts Sample.countingPlatform {} Sample.addRequest =
        .ok (HashMap.singleton "i1" { Sample.draft "bicycle" with signature := some s }) := by
      exact (congrArg (· >>= _) hs).trans rfl
    simp only [Machine.next, serving, hhandle]
  rw [Machine.trace_cons, hadded, Machine.trace_cons, List.forall_mem_cons,
    List.forall_mem_cons] at hall
  obtain ⟨hfirst, hsecond, -⟩ := hall
  rw [hadded] at hfirst
  refine (next_signed_iff hfirst Sample.editRequest).mp hsecond ?_
  have hother : useridObject (Sample.draft "bicycle") 0 ≠ some ⟨"0002", 1⟩ := by decide
  have hvalid : (edited (Sample.draft "bicycle") (Sample.draft "bicycle 1")).validate =
      true := by decide
  refine ⟨rfl, "i1", { Sample.draft "bicycle" with signature := some s }, rfl, by simp,
    hother, hvalid, ?_⟩
  -- neither the id nor the signature is part of the signed text
  have hnew : ∀ (title : String) (s : Option ElGamalSignEntity),
      CryptoParser.signedText Sample.countingPlatform
      (edited { Sample.draft "bicycle" with signature := s } (Sample.draft title))
      Item.signatureAnnotation =
      CryptoParser.signedText Sample.countingPlatform (Sample.item title "a red one" 0)
        Item.signatureAnnotation := fun _ _ => rfl
  have hold : ∀ (title : String) (s : Option ElGamalSignEntity),
      CryptoParser.signedText Sample.countingPlatform
      { Sample.draft title with signature := s } Item.signatureAnnotation =
      CryptoParser.signedText Sample.countingPlatform (Sample.item title "a red one" 0)
        Item.signatureAnnotation := fun _ _ => rfl
  rw [hnew, hold, ElGamalSigner.SamePower, Sample.hash_item, Sample.hash_item]
  decide +kernel

end Sxp
