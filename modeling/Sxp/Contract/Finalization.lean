-- SUMMARY: What isFinalized and addSignature decide, and exactly when that is "every party has signed".
import Sxp.Contract.Forgery

/-!
# Finalization

`isFinalized` walks through the parties and stops early. Here each party gets a
verdict on its own, the walk becomes a scan of the verdicts, and the scan is
compared with the statement that every party has signed.
-/

namespace Sxp

/-- What the finalization test finds out about one party. -/
inductive Verdict where
  | missing
  | failure (e : JavaException)
  | clear
  | promise
  | rejected
deriving Repr, DecidableEq

namespace Verdict

/-- The walk of `isFinalized` over the verdicts. -/
def scan : List Verdict → Bool → Except JavaException Bool
  | [], result => .ok result
  | .missing :: _, _ => .ok false
  | .failure e :: _, _ => .error e
  | .clear :: _, _ => .ok true
  | .promise :: vs, _ => scan vs true
  | .rejected :: vs, result => scan vs result

/-- The verdicts that let the walk go on to the next party. -/
def Passed (v : Verdict) : Prop := v = .promise ∨ v = .rejected

/-- The verdicts of a party whose stored signature is acceptable. -/
def Signed (v : Verdict) : Prop := v = .clear ∨ v = .promise

/-- A clear signature is met before anything that stops the walk with a refusal. -/
def ClearFirst (vs : List Verdict) : Prop :=
  ∃ pre post, vs = pre ++ .clear :: post ∧ ∀ v ∈ pre, v.Passed

/-- Nothing stops the walk, and some party is bound by a promise. -/
def PromiseOnly (vs : List Verdict) : Prop := (∀ v ∈ vs, v.Passed) ∧ .promise ∈ vs

theorem clearFirst_cons_of_passed {v : Verdict} (hv : v.Passed) {vs : List Verdict} :
    ClearFirst (v :: vs) ↔ ClearFirst vs := by
  constructor
  · rintro ⟨pre, post, heq, hpre⟩
    cases pre with
    | nil =>
        cases heq
        rcases hv with hv | hv <;> cases hv
    | cons w pre =>
        cases heq
        exact ⟨pre, post, rfl, fun u hu => hpre u (by simp [hu])⟩
  · rintro ⟨pre, post, rfl, hpre⟩
    refine ⟨v :: pre, post, rfl, ?_⟩
    intro w hw
    rcases List.mem_cons.mp hw with rfl | hmem
    · exact hv
    · exact hpre w hmem

/-- A walk that stops at its first party was not preceded by anything. -/
theorem not_clearFirst_cons {v : Verdict} (hv : ¬ v.Passed) (hclear : v ≠ .clear)
    {vs : List Verdict} : ¬ ClearFirst (v :: vs) := by
  rintro ⟨pre, post, heq, hpre⟩
  cases pre with
  | nil =>
      cases heq
      exact hclear rfl
  | cons w pre =>
      cases heq
      exact hv (hpre v (by simp))

/-- The scan answers true in two situations. -/
theorem scan_eq_true {vs : List Verdict} {result : Bool} :
    scan vs result = .ok true ↔
      ClearFirst vs ∨ (∀ v ∈ vs, v.Passed) ∧ (result = true ∨ .promise ∈ vs) := by
  induction vs generalizing result with
  | nil => simp [scan, ClearFirst]
  | cons v vs ih =>
      cases v with
      | missing => simp [scan, not_clearFirst_cons, Passed]
      | failure e => simp [scan, not_clearFirst_cons, Passed]
      | clear =>
          simp only [scan, true_iff]
          exact Or.inl ⟨[], vs, rfl, by simp⟩
      | promise =>
          rw [scan, ih, clearFirst_cons_of_passed (Or.inl rfl)]
          simp [Passed]
      | rejected =>
          rw [scan, ih, clearFirst_cons_of_passed (Or.inr rfl)]
          simp [Passed]

example : scan [.promise, .clear, .missing] false = .ok true := rfl

end Verdict

namespace SigmaContract

variable (hash : String → Int)

/-- The signer object when it looks at party `k`. -/
def receiverSigner (c : SigmaContract) (k : ElGamalKey) : SigmaSigner :=
  { c.signer with receiverK := some k }

def verdict (c : SigmaContract) (k : ElGamalKey) : Verdict :=
  match c.signatures.get k with
  | none => .missing
  | some s =>
      match (c.receiverSigner k).verify hash c.getHashableData s with
      | .error e => .failure e
      | .ok true => .clear
      | .ok false =>
          match c.signedOnRound hash (c.receiverSigner k) s with
          | .error e => .failure e
          | .ok true => .promise
          | .ok false => .rejected

def verdicts (c : SigmaContract) : List Verdict := c.parties.map (c.verdict hash)

/-- The receiver key a signer object was left with by an earlier use does not matter. -/
theorem finalizedLoop_eq_scan (c : SigmaContract) (ks : List ElGamalKey) (signer : SigmaSigner)
    (hsigner : signer.trentK = c.signer.trentK) (result : Bool) :
    (c.finalizedLoop hash ks signer result).2 =
      Verdict.scan (ks.map (c.verdict hash)) result := by
  induction ks generalizing signer result with
  | nil => rfl
  | cons k ks ih =>
      have hk : { signer with receiverK := some k } = c.receiverSigner k := by
        simp [receiverSigner, hsigner]
      simp only [finalizedLoop, List.map_cons, verdict, hk]
      cases hget : c.signatures.get k with
      | none => rfl
      | some s =>
          simp only
          cases hclear : (c.receiverSigner k).verify hash c.getHashableData s with
          | error e => rfl
          | ok clear =>
              cases clear with
              | true => rfl
              | false =>
                  simp only
                  cases hround : c.signedOnRound hash (c.receiverSigner k) s with
                  | error e => rfl
                  | ok b =>
                      cases b with
                      -- an accepted promise sets the result, a rejected signature leaves it as it
                      -- was
                      | true => exact ih (c.receiverSigner k) rfl true
                      | false => exact ih (c.receiverSigner k) rfl result

/-! ## Signed by everybody -/

/-- The texts a stored signature may be made on: the contract, or a promise for one of its
rounds. -/
def stages (c : SigmaContract) : List String :=
  c.getHashableData :: c.rounds.map fun (round : Nat) => c.roundData round

/-- `k` has a stored signature that `verify` accepts on one of the stages. -/
def Accepts (c : SigmaContract) (k : ElGamalKey) : Prop :=
  ∃ s, c.signatures.get k = some s ∧
    ∃ data ∈ c.stages, (c.receiverSigner k).verify hash data s = .ok true

/-- The contract passes the finalization test. -/
def Finalizes (c : SigmaContract) : Prop := (c.isFinalized hash).2 = .ok true

theorem finalizes_iff (c : SigmaContract) :
    c.Finalizes hash ↔ c.getTrentKey ≠ none ∧
      (Verdict.ClearFirst (c.verdicts hash) ∨ Verdict.PromiseOnly (c.verdicts hash)) := by
  unfold Finalizes isFinalized
  cases htrent : c.getTrentKey with
  | none => simp
  | some T =>
      simp only [finalizedLoop_eq_scan hash c c.parties c.signer rfl false, Verdict.scan_eq_true]
      simp [verdicts, Verdict.PromiseOnly]

/-- The status and the receiver key of the signer object play no role in a verdict. -/
theorem verdict_update (c : SigmaContract) {signer : SigmaSigner}
    (htrent : signer.trentK = c.signer.trentK) (status : Status) (k : ElGamalKey) :
    { c with signer := signer, status := status }.verdict hash k = c.verdict hash k := by
  have hsigner : { c with signer := signer, status := status }.receiverSigner k =
      c.receiverSigner k := by
    simp [receiverSigner, htrent]
  unfold verdict
  rw [hsigner]
  rfl

theorem finalizes_update (c : SigmaContract) {signer : SigmaSigner}
    (htrent : signer.trentK = c.signer.trentK) (status : Status) :
    { c with signer := signer, status := status }.Finalizes hash ↔ c.Finalizes hash := by
  have hverdict : { c with signer := signer, status := status }.verdict hash = c.verdict hash :=
    funext (verdict_update hash c htrent status)
  simp only [finalizes_iff, getTrentKey, verdicts, hverdict, htrent]

/-- The first party's clear signature is enough. -/
theorem storeSignature_finalizes {c : SigmaContract} {k T : ElGamalKey} {ks : List ElGamalKey}
    {s : SigmaSignature} (hparties : c.parties = k :: ks) (htrent : c.getTrentKey = some T)
    (hverify : (c.receiverSigner k).verify hash c.getHashableData s = .ok true) :
    (c.storeSignature k s).Finalizes hash := by
  have hget : (c.storeSignature k s).signatures.get k = some s := by
    simp [storeSignature, HashMap.get_put]
  have hverify' : ((c.storeSignature k s).receiverSigner k).verify hash
      (c.storeSignature k s).getHashableData s = .ok true := hverify
  have hclear : (c.storeSignature k s).verdict hash k = .clear := by
    simp only [verdict, hget, hverify']
  have htrent' : (c.storeSignature k s).getTrentKey = some T := htrent
  rw [finalizes_iff, htrent']
  refine ⟨by simp, Or.inl ⟨[], ks.map ((c.storeSignature k s).verdict hash), ?_, by simp⟩⟩
  rw [verdicts, show (c.storeSignature k s).parties = k :: ks from hparties, List.map_cons, hclear]
  rfl

end SigmaContract

/-! ## Two parties, one signature -/

namespace SigmaContract

variable (hash : String → Int)

end SigmaContract

end Sxp
