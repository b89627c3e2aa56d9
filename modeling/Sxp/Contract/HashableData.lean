-- SUMMARY: What the hashable data of a contract tells about it: equality of contracts, and the data of promises and signatures.
import Sxp.Base.Texts
import Sxp.Contract.SigmaContract

/-!
# Hashable data

The sum of the public keys, the clauses and the round follow each other without separators.
So different contracts can have the same data, and a promise for one contract and round can
be on the same data as one for another contract and round, or as a signature.
-/

namespace Sxp

namespace ContractTerms

variable (c : ContractTerms)

def publicKeys : List Int := c.parties.map (·.publicKey)

/-- The texts the hashable data is put together from. -/
def hashableTexts : List String := [BigInteger.text c.publicKeys.sum, c.clausesData]

theorem join_hashableTexts : String.join c.hashableTexts = c.getHashableData := by
  simp [hashableTexts, getHashableData, publicKeys]

end ContractTerms

/-! ## Equality of contracts -/

namespace SigmaContract

variable (c d : SigmaContract)

/-- `equals(EstablisherContract)`, for contracts whose clauses are set. -/
def equals : Bool := c.getHashableData == d.getHashableData

/-- The same parties, as a set of public keys, and the same clauses. -/
def SameTerms : Prop := (∀ y, y ∈ c.publicKeys ↔ y ∈ d.publicKeys) ∧ c.clauses = d.clauses

/-- The sums of the public keys and the texts of all clauses are the same, or the digits that
one sum has more than the other begin the other's clauses. -/
def Overlaps : Prop :=
  c.hashableTexts = d.hashableTexts ∨ Texts.Shifted c.hashableTexts d.hashableTexts ∨
    Texts.Shifted d.hashableTexts c.hashableTexts

theorem equals_iff : c.equals d = true ↔ c.Overlaps d := by
  rw [equals, beq_iff_eq, ← c.join_hashableTexts, ← d.join_hashableTexts]
  exact Texts.join_eq_iff rfl

/-- Between contracts with the same clauses the sums decide. -/
theorem equals_of_clauses_eq (h : c.clauses = d.clauses) :
    c.equals d = true ↔ c.publicKeys.sum = d.publicKeys.sum := by
  rw [equals, beq_iff_eq, ← c.join_hashableTexts, ← d.join_hashableTexts]
  simp only [ContractTerms.hashableTexts, ContractTerms.clausesData, h, String.join_cons]
  rw [String.append_left_inj]
  exact BigInteger.text_injective.eq_iff

/-- `equals` compares parties and clauses exactly where contracts with the same parties have the
same sum of keys, so that no party is listed twice, and others do not overlap. -/
theorem equals_correct_iff : (c.equals d = true ↔ c.SameTerms d) ↔
    (c.SameTerms d → c.publicKeys.sum = d.publicKeys.sum) ∧
      (¬ c.SameTerms d → ¬ c.Overlaps d) := by
  by_cases hsame : c.SameTerms d
  · have hsum := equals_of_clauses_eq c d hsame.2
    simp only [hsame, iff_true, hsum, forall_const, not_true_eq_false, false_implies, and_true]
  · simp only [hsame, iff_false, c.equals_iff d, false_implies, not_false_eq_true, forall_const,
      true_and]

end SigmaContract

namespace Sample

/-- A contract between two parties with the given public keys. -/
def payment (y z : Int) : SigmaContract where
  parties := [{ p := 23, g := 5, publicKey := y }, { p := 23, g := 5, publicKey := z }]
  clauses := ["pay 1"]

end Sample

/-- Other parties whose keys have the same sum. -/
theorem SigmaContract.equals_other_parties :
    ¬ ((Sample.payment 3 8).equals (Sample.payment 5 6) = true ↔
    (Sample.payment 3 8).SameTerms (Sample.payment 5 6)) := by
  intro h
  have hkeys := (h.mp (by decide +kernel)).1 3
  exact absurd (hkeys.mp (by decide)) (by decide)

/-! ## Promises and signatures -/

/-- What a party makes for a contract: a promise in a round, or the clear signature. -/
inductive Stage where
  | promise (round : Nat)
  | signature
deriving Repr, DecidableEq

namespace Stage

/-- The data that is signed. -/
def data (c : ContractTerms) : Stage → String
  | .promise round => c.roundData round
  | .signature => c.getHashableData

/-- What follows the hashable data. -/
def suffix : Stage → String
  | .promise round => BigInteger.text round
  | .signature => ""

theorem data_eq (c : ContractTerms) (s : Stage) : s.data c = c.getHashableData ++ s.suffix := by
  cases s with
  | promise round => rfl
  | signature => exact String.append_empty.symm

theorem suffix_injective : Function.Injective suffix := by
  have hempty : ∀ round : Nat, BigInteger.text round ≠ "" := by
    intro round h
    rw [← String.toList_inj] at h
    simp [BigInteger.text, BigInteger.digits] at h
  rintro (r | _) (r' | _) h
  · have hround := BigInteger.text_injective h
    rw [Int.natCast_inj.mp hround]
  · exact absurd h (hempty r)
  · exact absurd h.symm (hempty r')
  · rfl

/-- One contract's stages are on different data. -/
theorem data_injective (c : ContractTerms) : Function.Injective (data c) := by
  intro s t h
  rw [data_eq, data_eq, String.append_right_inj] at h
  exact suffix_injective h

/-- What is signed after the parties: the clauses and the round. -/
def texts (clauses : List String) (s : Stage) : List String := [String.join clauses, s.suffix]

/-- The texts of clauses and stage agree, or the clauses of one contract end with a text with
which the stage of the other begins. -/
def Absorbs (s : Stage) (C D : List String) (t : Stage) : Prop :=
  s.texts C = t.texts D ∨ Texts.Shifted (s.texts C) (t.texts D) ∨
    Texts.Shifted (t.texts D) (s.texts C)

variable (parties : List ElGamalKey) (C D : List String) (s t : Stage)

theorem data_eq_iff : s.data { parties, clauses := C } = t.data { parties, clauses := D } ↔
    s.Absorbs C D t := by
  have hdata : ∀ (C : List String) (s : Stage), s.data { parties, clauses := C } =
      BigInteger.text (parties.map (·.publicKey)).sum ++ String.join (s.texts C) := by
    intro C s
    simp [data_eq, texts, ContractTerms.getHashableData, ContractTerms.clausesData,
      String.append_assoc]
  rw [hdata, hdata, String.append_right_inj]
  exact Texts.join_eq_iff rfl

/-- The data that the same parties sign tells clauses and stage exactly where these are the same,
or neither the clauses of one contract absorb the round of the other, nor only their cuts differ. -/
theorem separated_iff :
    (s.data { parties, clauses := C } = t.data { parties, clauses := D } → C = D ∧ s = t) ↔
      C = D ∧ s = t ∨ ¬ s.Absorbs C D t := by
  rw [data_eq_iff, imp_iff_or_not]

/-- The signature under one text is a promise for another one. -/
theorem signature_is_promise :
    ¬ (Stage.signature.data { parties := (Sample.payment 3 8).parties, clauses := ["pay 1"] } =
        (Stage.promise 1).data { parties := (Sample.payment 3 8).parties, clauses := ["pay "] } →
      ["pay 1"] = ["pay "] ∧ Stage.signature = .promise 1) := by
  intro h
  exact absurd (h (by decide +kernel)).1 (by decide)

end Stage

end Sxp
