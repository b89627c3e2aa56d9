-- SUMMARY: Sigma contracts: parties, clauses, stored signatures, and the finalization test.
import Sxp.Sigma.Signature

/-!
# SigmaContract

A contract as one establisher holds it, without the copies of this data in the
persisted entity (party ids, signature texts), which are only stored there.
-/

namespace Sxp

inductive Status where
  | nowhere
  | signing
  | finalized
  | cancelled
  | resolving
deriving Repr, DecidableEq

inductive Wish where
  | neutral
  | accept
  | refuse
deriving Repr, DecidableEq

/-- What is agreed on and never changes: the parties, ordered by public key, and the clauses. -/
structure ContractTerms where
  parties : List ElGamalKey
  clauses : List String
deriving Repr, DecidableEq

namespace ContractTerms

/-- `SigmaClauses.getHashableData`. -/
def clausesData (c : ContractTerms) : String := String.join c.clauses

/-- `SigmaContract.getHashableData`: the sum of the public keys, then the clauses. -/
def getHashableData (c : ContractTerms) : String :=
  BigInteger.text (c.parties.map (·.publicKey)).sum ++ c.clausesData

/-- The data a promise of the given round is made on. -/
def roundData (c : ContractTerms) (round : Int) : String :=
  c.getHashableData ++ BigInteger.text round

end ContractTerms

structure SigmaContract extends ContractTerms where
  signatures : HashMap ElGamalKey SigmaSignature := {}
  signer : SigmaSigner := {}
  status : Status := .nowhere
  wish : Wish := .neutral
deriving Repr, DecidableEq

namespace SigmaContract

variable (hash : String → Int)

def getTrentKey (c : SigmaContract) : Option ElGamalKey := c.signer.trentK

def setTrentKey (c : SigmaContract) (k : Option ElGamalKey) : SigmaContract :=
  { c with signer := { c.signer with trentK := k } }

def setStatus (c : SigmaContract) (s : Status) : SigmaContract := { c with status := s }

def setWish (c : SigmaContract) (w : Wish) : SigmaContract := { c with wish := w }

/-- The rounds the inner loop of `isFinalized` tries. -/
def rounds (c : SigmaContract) : List Nat := List.range' 1 (c.parties.length + 1)

/-- The inner loop of `isFinalized`: is `s` a signature on the data of some round? -/
def signedOnRound (c : SigmaContract) (signer : SigmaSigner) (s : SigmaSignature) :
    Except JavaException Bool :=
  c.rounds.anyM fun (round : Nat) => signer.verify hash (c.roundData round) s

/-- The outer loop of `isFinalized`, over the parties still to come. The signer object
keeps the receiver key of the last party looked at. -/
def finalizedLoop (c : SigmaContract) :
    List ElGamalKey → SigmaSigner → Bool → SigmaSigner × Except JavaException Bool
  | [], signer, result => (signer, .ok result)
  | k :: ks, signer, result =>
      let signer := { signer with receiverK := some k }
      match c.signatures.get k with
      | none => (signer, .ok false)
      | some s =>
          match signer.verify hash c.getHashableData s with
          | .error e => (signer, .error e)
          | .ok true => (signer, .ok true)
          | .ok false =>
              match c.signedOnRound hash signer s with
              | .error e => (signer, .error e)
              | .ok true => finalizedLoop c ks signer true
              | .ok false => finalizedLoop c ks signer result

def isFinalized (c : SigmaContract) : SigmaContract × Except JavaException Bool :=
  match c.getTrentKey with
  | none => (c, .ok false)
  | some _ =>
      let r := c.finalizedLoop hash c.parties c.signer false
      ({ c with signer := r.1 }, r.2)

/-- `signatures.put(k, s)`. -/
def storeSignature (c : SigmaContract) (k : ElGamalKey) (s : SigmaSignature) : SigmaContract :=
  { c with signatures := c.signatures.put k s }

def addSignature (c : SigmaContract) (k : ElGamalKey) (s : SigmaSignature) :
    SigmaContract × Except JavaException Unit :=
  if k ∈ c.parties then
    match (c.storeSignature k s).isFinalized hash with
    | (c, .error e) => (c, .error e)
    | (c, .ok true) => (c.setStatus .finalized, .ok ())
    | (c, .ok false) => (c, .ok ())
  else (c, .error (.runtime "invalid key"))

/-! ## What the operations leave alone -/

@[simp] theorem setStatus_status (c : SigmaContract) (s : Status) : (c.setStatus s).status = s :=
  rfl

theorem finalizedLoop_trentK (c : SigmaContract) (ks : List ElGamalKey) (signer : SigmaSigner)
    (result : Bool) : (c.finalizedLoop hash ks signer result).1.trentK = signer.trentK := by
  induction ks generalizing signer result with
  | nil => rfl
  | cons k ks ih =>
      simp only [finalizedLoop]
      split
      · rfl
      · split
        · rfl
        · rfl
        · split
          · rfl
          · rw [ih]
          · rw [ih]

/-- `isFinalized` changes the receiver key of the signer object only. -/
theorem isFinalized_frame (c : SigmaContract) :
    ∃ signer : SigmaSigner, signer.trentK = c.signer.trentK ∧
      (c.isFinalized hash).1 = { c with signer := signer } := by
  unfold isFinalized
  split
  · exact ⟨c.signer, rfl, rfl⟩
  · exact ⟨_, finalizedLoop_trentK hash c _ _ _, rfl⟩

/-- For a party, `addSignature` stores the signature, uses the signer object, and sets the
status exactly if the finalization test says so. -/
theorem addSignature_of_mem {c : SigmaContract} {k : ElGamalKey} (hk : k ∈ c.parties)
    (s : SigmaSignature) : ∃ signer : SigmaSigner, signer.trentK = c.signer.trentK ∧
    (c.addSignature hash k s).1 = { c.storeSignature k s with
      signer := signer
      status := if ((c.storeSignature k s).isFinalized hash).2 = .ok true then .finalized
        else c.status } := by
  obtain ⟨signer, htrent, hsigner⟩ := isFinalized_frame hash (c.storeSignature k s)
  refine ⟨signer, htrent, ?_⟩
  simp only [addSignature, hk, if_true]
  split
  · rename_i c' e heq
    rw [heq] at hsigner ⊢
    simp only at hsigner
    simp [hsigner, storeSignature]
  · rename_i c' heq
    rw [heq] at hsigner ⊢
    simp only at hsigner
    simp [hsigner, setStatus]
  · rename_i c' heq
    rw [heq] at hsigner ⊢
    simp only at hsigner
    simp [hsigner, storeSignature]

theorem addSignature_of_not_mem {c : SigmaContract} {k : ElGamalKey} (hk : k ∉ c.parties)
    (s : SigmaSignature) :
    c.addSignature hash k s = (c, .error (.runtime "invalid key")) := by
  simp [addSignature, hk]

@[simp] theorem addSignature_terms (c : SigmaContract) (k : ElGamalKey) (s : SigmaSignature) :
    (c.addSignature hash k s).1.toContractTerms = c.toContractTerms := by
  rcases Decidable.em (k ∈ c.parties) with hk | hk
  · obtain ⟨signer, -, heq⟩ := addSignature_of_mem hash hk s
    rw [heq]
    rfl
  · rw [addSignature_of_not_mem hash hk]

@[simp] theorem addSignature_getTrentKey (c : SigmaContract) (k : ElGamalKey)
    (s : SigmaSignature) : (c.addSignature hash k s).1.getTrentKey = c.getTrentKey := by
  rcases Decidable.em (k ∈ c.parties) with hk | hk
  · obtain ⟨signer, htrent, heq⟩ := addSignature_of_mem hash hk s
    rw [heq]
    exact htrent
  · rw [addSignature_of_not_mem hash hk]

/-- `addSignature` leaves the status alone or sets it to FINALIZED. -/
theorem addSignature_status (c : SigmaContract) (k : ElGamalKey) (s : SigmaSignature) :
    (c.addSignature hash k s).1.status = c.status ∨
      (c.addSignature hash k s).1.status = .finalized := by
  rcases Decidable.em (k ∈ c.parties) with hk | hk
  · obtain ⟨signer, -, heq⟩ := addSignature_of_mem hash hk s
    rw [heq]
    simp only
    split
    · exact Or.inr rfl
    · exact Or.inl rfl
  · rw [addSignature_of_not_mem hash hk]
    exact Or.inl rfl

end SigmaContract

end Sxp
