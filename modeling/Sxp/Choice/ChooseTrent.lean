-- SUMMARY: The step in which the parties choose Trent: lists of candidates, random numbers, choices, and what a handler leaves to do.
import Mathlib.Data.List.Sort
import Sxp.Base.Except
import Sxp.Sigma.Responses

/-!
# Choosing Trent

`ProtocolChooseTrent` with the part of its establisher it uses, the key of Trent. Of a
user only the key is read. A message is modelled by its content; a cell of `hasSent` is
`true` where the code has stored a string, and `false` where it is null.

A broadcast calls local listeners before it returns, and may end in an exception. So a
handler stops where it broadcasts, and what it does afterwards is put on a stack of calls.
-/

namespace Sxp

/-! ## List iterators -/

/-- A `ListIterator`: the elements before and after the cursor, and whether the element last
returned can be removed. -/
structure ListIterator (α : Type) where
  passed : List α
  remaining : List α
  canRemove : Bool
deriving Repr, DecidableEq

namespace ListIterator

variable {α : Type}

def of (list : List α) : ListIterator α := { passed := [], remaining := list, canRemove := false }

/-- The list that is iterated over. -/
def list (it : ListIterator α) : List α := it.passed ++ it.remaining

def hasNext (it : ListIterator α) : Bool := !it.remaining.isEmpty

def next (it : ListIterator α) : Except JavaException (α × ListIterator α) :=
  match it.remaining with
  | [] => .error .noSuchElement
  | x :: rest => .ok (x, { passed := it.passed ++ [x], remaining := rest, canRemove := true })

def remove (it : ListIterator α) : Except JavaException (ListIterator α) :=
  if it.canRemove then .ok { it with passed := it.passed.dropLast, canRemove := false }
  else .error .illegalState

@[simp] theorem list_of (list : List α) : (of list).list = list := rfl

theorem next_ok {it it' : ListIterator α} {x : α} (h : it.next = .ok (x, it')) :
    it'.list = it.list ∧ it.remaining.length = it'.remaining.length + 1 := by
  unfold next at h
  split at h
  · cases h
  · rename_i y rest heq
    rw [Except.ok.injEq, Prod.mk.injEq] at h
    obtain ⟨-, rfl⟩ := h
    simp [list, heq]

theorem remove_ok {it it' : ListIterator α} (h : it.remove = .ok it') :
    it'.list.Sublist it.list ∧ it'.remaining = it.remaining ∧
      it.canRemove = true ∧ it'.canRemove = false := by
  unfold remove at h
  split at h
  · rename_i hcan
    rw [Except.ok.injEq] at h
    subst h
    exact ⟨(List.dropLast_sublist _).append (List.Sublist.refl _), rfl, hcan, rfl⟩
  · cases h

end ListIterator

/-! ## The users in both lists -/

namespace ProtocolChooseTrent

/-- The inner loop: it advances the iterator once for each user of the other list. -/
def isInBoth : List ElGamalKey → ListIterator ElGamalKey → Bool →
    ListIterator ElGamalKey × Except JavaException Bool
  | [], it, found => (it, .ok found)
  | u :: list2, it, found =>
      match it.next with
      | .error e => (it, .error e)
      | .ok (v, it') => isInBoth list2 it' (found || u.publicKey == v.publicKey)

theorem isInBoth_list {list2 : List ElGamalKey} {it it' : ListIterator ElGamalKey} {found : Bool}
    {r : Except JavaException Bool} (h : isInBoth list2 it found = (it', r)) :
    it'.list = it.list := by
  induction list2 generalizing it found with
  | nil =>
      cases h
      rfl
  | cons u list2 ih =>
      simp only [isInBoth] at h
      split at h
      · cases h
        rfl
      · rename_i v it₁ hnext
        exact (ih h).trans (ListIterator.next_ok hnext).1

/-- A turn of the outer loop either advances the iterator or only can remove. -/
theorem isInBoth_ok {list2 : List ElGamalKey} {it it' : ListIterator ElGamalKey}
    {found found' : Bool} (h : isInBoth list2 it found = (it', .ok found')) :
    it'.remaining.length < it.remaining.length ∨ it' = it ∧ found' = found := by
  have hlength : ∀ {list2 : List ElGamalKey} {it : ListIterator ElGamalKey} {found : Bool},
      isInBoth list2 it found = (it', .ok found') →
        it'.remaining.length + list2.length = it.remaining.length := by
    intro list2
    induction list2 with
    | nil =>
        intro it found h
        cases h
        rfl
    | cons u list2 ih =>
        intro it found h
        simp only [isInBoth] at h
        split at h
        · cases h
        · rename_i v it₁ hnext
          have hone := (ListIterator.next_ok hnext).2
          have hrest := ih h
          rw [List.length_cons]
          omega
  cases list2 with
  | nil =>
      cases h
      exact Or.inr ⟨rfl, rfl⟩
  | cons u list2 =>
      have hall := hlength h
      rw [List.length_cons] at hall
      exact Or.inl (by omega)

/-- The outer loop, which removes the last user of each turn that was in none of its pairs. -/
def retainLoop (list2 : List ElGamalKey) (it : ListIterator ElGamalKey) :
    ListIterator ElGamalKey × Except JavaException Unit :=
  if it.hasNext then
    match _h : isInBoth list2 it false with
    | (it', .error e) => (it', .error e)
    | (it', .ok true) => retainLoop list2 it'
    | (it', .ok false) =>
        match _h' : it'.remove with
        | .error e => (it', .error e)
        | .ok it'' => retainLoop list2 it''
  else (it, .ok ())
termination_by 2 * it.remaining.length + it.canRemove.toNat
decreasing_by
  · have hle := it'.canRemove.toNat_le
    rcases isInBoth_ok _h with hlt | ⟨-, hfound⟩
    · omega
    · cases hfound
  · obtain ⟨-, hremaining, hcan, hcan'⟩ := ListIterator.remove_ok _h'
    rw [hremaining, hcan', Bool.toNat_false]
    rcases isInBoth_ok _h with hlt | ⟨rfl, -⟩
    · omega
    · rw [hcan, Bool.toNat_true]
      omega

theorem retainLoop_sublist (list2 : List ElGamalKey) (it : ListIterator ElGamalKey) :
    (retainLoop list2 it).1.list.Sublist it.list := by
  fun_induction retainLoop list2 it with
  | case1 it hnext it' e h => exact (isInBoth_list h) ▸ List.Sublist.refl _
  | case2 it hnext it' h ih => exact isInBoth_list h ▸ ih
  | case3 it hnext it' h e h' => exact isInBoth_list h ▸ List.Sublist.refl _
  | case4 it hnext it' h it'' h' ih =>
      have hremoved := (ListIterator.remove_ok h').1
      rw [isInBoth_list h] at hremoved
      exact ih.trans hremoved
  | case5 it hnext => exact List.Sublist.refl _

/-- Users that both lists have, but in another order, are removed too. -/
example : (retainLoop [⟨7, 3, 2⟩, ⟨7, 3, 4⟩] (ListIterator.of [⟨7, 3, 4⟩, ⟨7, 3, 2⟩])).1.list =
    [⟨7, 3, 4⟩] := by
  decide +kernel

end ProtocolChooseTrent

/-! ## The state of a party -/

/-- `indexOf(null)` of a row. -/
def indexOfNull (row : List Bool) : Option Nat := row.findIdx? (!·)

theorem indexOfNull_eq_none {row : List Bool} :
    indexOfNull row = none ↔ ∀ k, k < row.length → row[k]? = some true := by
  simp only [indexOfNull, List.findIdx?_eq_none_iff]
  constructor
  · intro h k hk
    rw [List.getElem?_eq_getElem hk]
    simpa using h _ (List.getElem_mem hk)
  · intro h x hx
    obtain ⟨k, hk, rfl⟩ := List.getElem_of_mem hx
    simpa [List.getElem?_eq_getElem hk] using h k hk

theorem indexOfNull_eq_some {row : List Bool} {n : Nat} (h : indexOfNull row = some n) :
    n < row.length ∧ ∀ k, k < n → row[k]? = some true := by
  obtain ⟨hlt, -, hbefore⟩ := List.findIdx?_eq_some_iff_getElem.mp h
  refine ⟨hlt, fun k hk => ?_⟩
  have htrue := hbefore k hk
  rw [List.getElem?_eq_getElem (Nat.lt_trans hk hlt)]
  simpa using htrue

/-- A cell that is marked was marked before, or just now. -/
theorem getElem?_set_true {row : List Bool} {j k : Nat} (h : (row.set j true)[k]? = some true) :
    j = k ∨ row[k]? = some true := by
  by_cases hjk : j = k
  · exact Or.inl hjk
  · rw [List.getElem?_set_ne hjk] at h
    exact Or.inr h

theorem indexOfNull_set {row : List Bool} (h : indexOfNull row = none) (j : Nat) :
    indexOfNull (row.set j true) = none := by
  rw [indexOfNull_eq_none] at h ⊢
  intro k hk
  rw [List.length_set] at hk
  by_cases hjk : j = k
  · rw [← hjk, List.getElem?_set_self (hjk ▸ hk)]
  · rw [List.getElem?_set_ne hjk]
    exact h k hk

/-- Marking the last cell that was null fills the row. -/
theorem indexOfNull_set_last {row : List Bool} {n : Nat} (h : indexOfNull row = some n)
    (hn : row.length = n + 1) : indexOfNull (row.set n true) = none := by
  rw [indexOfNull_eq_none]
  intro k hk
  rw [List.length_set] at hk
  by_cases hkn : n = k
  · simp [← hkn, hn]
  · rw [List.getElem?_set_ne hkn]
    exact (indexOfNull_eq_some h).2 k (by omega)

inductive ChooseMessage where
  | list (users : List ElGamalKey)
  | number (n : Int)
  | choice (publicKey : Int)
deriving Repr, DecidableEq

/-- The broadcasts after which something is left to do. -/
inductive ChooseCall where
  | sendMessage
  | chose (trentUser : ElGamalKey)
deriving Repr, DecidableEq

/-- `signing` holds once `nextStep` was called. -/
structure ProtocolChooseTrent where
  parties : List ElGamalKey
  key : ElGamalKey
  list : List ElGamalKey
  randomNumber : Int
  finalNumber : Int
  hasSent : Fin 3 → List Bool
  senderKeyId : Nat
  trentKey : Option ElGamalKey
  sent : List ChooseMessage
  calls : List ChooseCall
  signing : Bool

namespace ElGamalAsymKeyFactory

def P : Int := 124233341635855292420681698148845681014844866056212176632655173602444135581779341928584451946831820357622587249219477577145009300106828967466602146104562163160400103396735672041344557638270362523343149686623705761738910044071399582025053147811261321814632661084042311141045136246602979886564584763268994320823

def G : Int := 57879985263161130068016239981615161174385902716647642452899971198439084259551250230041086427537114453738884538337956090286524329552098304591825815816298805245947460536391128315522193556464285417135160058086869161063941463490748168352401178939129440934609861888674726565294073773971086710395310743717916632171

end ElGamalAsymKeyFactory

namespace ProtocolChooseTrent

/-- There is a first row of marks. -/
scoped instance neZero_rows : NeZero 3 := ⟨by decide⟩

/-- The known users without the signers. -/
def candidates (parties users : List ElGamalKey) : List ElGamalKey :=
  parties.foldl (fun list k => list.filter fun u => k.publicKey != u.publicKey) users

/-- The constructor. -/
def create (parties users : List ElGamalKey) (key : ElGamalKey) (randomNumber : Int) :
    ProtocolChooseTrent where
  parties := parties
  key := key
  list := candidates parties users
  randomNumber := randomNumber
  finalNumber := randomNumber
  hasSent := fun _ => List.replicate (parties.length + 1) false
  senderKeyId := parties.findIdx fun k => k.publicKey == key.publicKey
  trentKey := none
  sent := []
  calls := []
  signing := false

theorem mem_candidates {parties users : List ElGamalKey} {u : ElGamalKey} :
    u ∈ candidates parties users ↔ u ∈ users ∧ ∀ k ∈ parties, k.publicKey ≠ u.publicKey := by
  induction parties generalizing users with
  | nil => simp [candidates]
  | cons k parties ih =>
      rw [show candidates (k :: parties) users =
        candidates parties (users.filter fun u => k.publicKey != u.publicKey) from rfl, ih]
      simp [and_assoc]

/-- The number of parties. -/
def N (c : ProtocolChooseTrent) : Nat := c.parties.length

/-- `hasSent[r][k] = ""`. -/
def mark (c : ProtocolChooseTrent) (r : Fin 3) (k : Nat) : ProtocolChooseTrent :=
  { c with hasSent := Function.update c.hasSent r ((c.hasSent r).set k true) }

def setList (c : ProtocolChooseTrent) (list : List ElGamalKey) : ProtocolChooseTrent :=
  { c with list := list }

def send (c : ProtocolChooseTrent) (message : ChooseMessage) : ProtocolChooseTrent :=
  { c with sent := c.sent ++ [message] }

/-- Leaves the rest of a handler for when its broadcast returns. -/
def wait (c : ProtocolChooseTrent) (call : ChooseCall) : ProtocolChooseTrent :=
  { c with calls := call :: c.calls }

/-- `setTrent` of the establisher. -/
def setTrent (c : ProtocolChooseTrent) (trentK : Option ElGamalKey) : ProtocolChooseTrent :=
  { c with trentKey := trentK }

/-! ## The step -/

def sendMessage (c : ProtocolChooseTrent) : ProtocolChooseTrent :=
  (c.send (.list c.list)).wait .sendMessage

/-- What follows when the choices differ. The new rows have no cell for the end of a round. -/
def restart (c : ProtocolChooseTrent) : ProtocolChooseTrent :=
  sendMessage (setTrent { c with hasSent := fun _ => List.replicate c.N false } none)

/-- `list.get(finalNumber.mod(list.size()))`. -/
def trentUser (c : ProtocolChooseTrent) : Except JavaException ElGamalKey := do
  let index ← BigInteger.mod c.finalNumber c.list.length
  match c.list[index.toNat]? with
  | some u => .ok u
  | none => .error .indexOutOfBounds

theorem trentUser_mem {c : ProtocolChooseTrent} {u : ElGamalKey} (h : c.trentUser = .ok u) :
    u ∈ c.list := by
  unfold trentUser at h
  obtain ⟨index, -, hindex⟩ := Except.bind_eq_ok.mp h
  split at hindex
  · rename_i v hv
    rw [← Except.ok.inj hindex]
    exact List.mem_of_getElem? hv
  · cases hindex

/-- The end of the first round: the list is sorted, and the random number broadcast. -/
def endOfLists (c : ProtocolChooseTrent) : ProtocolChooseTrent :=
  let c := c.mark 0 c.N
  let c := c.setList (c.list.insertionSort fun u1 u2 => u1.publicKey ≤ u2.publicKey)
  (c.mark 1 c.senderKeyId).send (.number c.randomNumber)

def onList (c : ProtocolChooseTrent) (list2 : List ElGamalKey) (j : Nat) :
    ProtocolChooseTrent × Except JavaException Unit :=
  match retainLoop list2 (ListIterator.of c.list) with
  | (it, .error e) => (c.setList it.list, .error e)
  | (it, .ok ()) =>
      let c := (c.setList it.list).mark 0 j
      (if indexOfNull (c.hasSent 0) = some c.N then c.endOfLists else c, .ok ())

/-- Adds a number that was not received before. -/
def addNumber (c : ProtocolChooseTrent) (n : Int) (j : Nat) : ProtocolChooseTrent :=
  if (c.hasSent 1)[j]? = some false then mark { c with finalNumber := c.finalNumber + n } 1 j
  else c

/-- Takes a user for Trent, if there is none, and broadcasts its key. -/
def choose (c : ProtocolChooseTrent) (trentUser : ElGamalKey) : ProtocolChooseTrent :=
  let c := if c.trentKey = none then c.setTrent (some trentUser) else c
  (c.send (.choice trentUser.publicKey)).wait (.chose trentUser)

def onNumber (c : ProtocolChooseTrent) (n : Int) (j : Nat) :
    ProtocolChooseTrent × Except JavaException Unit :=
  let c := c.addNumber n j
  if indexOfNull (c.hasSent 1) = some c.N then
    let c := c.mark 1 c.N
    if c.list.isEmpty then (c, .ok ())
    else
      match c.trentUser with
      | .error e => (c, .error e)
      | .ok u => (c.choose u, .ok ())
  else (c, .ok ())

/-- What follows the broadcast of a choice. -/
def afterChoice (c : ProtocolChooseTrent) (trentUser : ElGamalKey) : ProtocolChooseTrent :=
  let c := c.mark 2 c.senderKeyId
  match c.trentKey with
  | some key => if key.publicKey ≠ trentUser.publicKey then c.restart else c
  | none => c

def nextStep (c : ProtocolChooseTrent) : ProtocolChooseTrent := { c with signing := true }

def onChoice (c : ProtocolChooseTrent) (publicKey : Int) (j : Nat) : ProtocolChooseTrent :=
  match c.trentKey with
  | none =>
      (c.setTrent (some ⟨ElGamalAsymKeyFactory.P, ElGamalAsymKeyFactory.G, publicKey⟩)).mark 2 j
  | some key =>
      if publicKey = key.publicKey then
        let c := c.mark 2 j
        if indexOfNull (c.hasSent 2) = some c.N then (c.mark 2 c.N).nextStep else c
      else c.restart

/-- The handler of the messages of the other parties. -/
def notify (c : ProtocolChooseTrent) (message : ChooseMessage) (senderId : Int) :
    ProtocolChooseTrent × Except JavaException Unit :=
  match c.parties.findIdx? fun k => k.publicKey == senderId with
  | none => (c, .error .indexOutOfBounds)
  | some j =>
      match message with
      | .list list2 => if indexOfNull (c.hasSent 0) ≠ none then c.onList list2 j else (c, .ok ())
      | .number n => if indexOfNull (c.hasSent 1) ≠ none then c.onNumber n j else (c, .ok ())
      | .choice publicKey =>
          if indexOfNull (c.hasSent 2) ≠ none then (c.onChoice publicKey j, .ok ()) else (c, .ok ())

/-- The innermost broadcast returns. -/
def resume (c : ProtocolChooseTrent) : ProtocolChooseTrent :=
  match c.calls with
  | [] => c
  | .sendMessage :: calls => mark { c with calls := calls } 0 c.senderKeyId
  | .chose trentUser :: calls => afterChoice { c with calls := calls } trentUser

/-- The innermost broadcast ends in an exception, and the rest of its handler is not run. -/
def abandon (c : ProtocolChooseTrent) : ProtocolChooseTrent := { c with calls := c.calls.tail }

end ProtocolChooseTrent

end Sxp
