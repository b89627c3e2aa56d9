-- SUMMARY: What an accepted promise or signature is bound to: not to the masks of its clauses, not to a challenge, and not to the expected keys.
import Sxp.Contract.Forgery
import Sxp.Sigma.Completeness
import Mathlib.FieldTheory.Finite.Basic

/-!
# Binding

Verification hashes the message with one number, which no clause is compared with; it
checks the revealing response against its own challenge only; and it takes the keys from
the object it verifies. Each section says what that leaves open, and for whom.
-/

/-- Replacing an element by one with the same value does not change the list of values. -/
theorem List.map_set_of_eq {α β : Type*} {f : α → β} {l : List α} {i : Nat} {a b : α}
    (h : l[i]? = some a) (hf : f b = f a) : (l.set i b).map f = l.map f := by
  obtain ⟨hi, rfl⟩ := List.getElem?_eq_some_iff.mp h
  have hi' : i < (l.map f).length := by rwa [List.length_map]
  have hself := List.set_getElem_self hi'
  rwa [List.getElem_map, ← hf, ← List.map_set] at hself

namespace Sxp

/-! ## Another transcript for the same challenge -/

namespace Responses

/-- The base that the second mask of a response belongs to. -/
def secondBase (r : Responses) (k : ElGamalKey) (res : ResEncrypt) : Int :=
  match r.kind with
  | .ccd => res.u
  | _ => k.publicKey

/-- The transcript with the next response, its masks multiplied to fit; `n` chooses one of many
numbers for the first of them. -/
def next (r : Responses) (k : ElGamalKey) (res : ResEncrypt) (n : Nat) : Responses :=
  { r with
    masks := {
      a := r.masks.a * k.g + n * k.p
      aBis := r.masks.aBis.map (· * r.secondBase k res) }
    response := r.response + 1 }

/-- One of the products compared, for the next response. -/
theorem mod_next {b a p rhs : Int} (h : BigInteger.mod (b * a) p = .ok rhs) (g n : Int) :
    BigInteger.mod (b * (a * g + n * p)) p = .ok (rhs * g % p) := by
  rw [BigInteger.mod] at h ⊢
  split at h
  · cases h
  · rename_i hp
    rw [Except.ok.injEq] at h
    rw [if_neg hp, ← h, BigInteger.emod_mul_emod,
      show b * (a * g + n * p) = b * a * g + b * n * p by ring, Int.add_mul_emod_self_right]

theorem mod_next_zero {b a p rhs : Int} (h : BigInteger.mod (b * a) p = .ok rhs) (g : Int) :
    BigInteger.mod (b * (a * g)) p = .ok (rhs * g % p) := by
  have hnext := mod_next h g 0
  rwa [zero_mul, add_zero] at hnext

theorem schnorrEquation_next {r : Responses} {k : ElGamalKey} (h : r.schnorrEquation k = .ok true)
    (res : ResEncrypt) (n : Nat) : (r.next k res n).schnorrEquation k = .ok true := by
  simp only [schnorrEquation, Except.bind_eq_ok, Except.pure_eq_ok, beq_iff_eq] at h
  obtain ⟨gPowr, hg, yPowc, hy, rhs, hrhs, rfl⟩ := h
  simp only [schnorrEquation, next, BigInteger.modPow_succ hg, hy, mod_next hrhs, Except.ok_bind,
    beq_self_eq_true]
  rfl

/-- The second mask is multiplied by the base of the power it is compared with. -/
theorem quotientPower_next {r : Responses} {k : ElGamalKey} {res : ResEncrypt} {rhs : Int}
    (h : r.quotientPower k res = .ok rhs) (n : Nat) :
    (r.next k res n).quotientPower k res = .ok (rhs * r.secondBase k res % k.p) := by
  simp only [quotientPower, Except.bind_eq_ok] at h
  obtain ⟨M, hM, vdivM, hdiv, vDivMPowc, hpow, aBis, haBis, hmod⟩ := h
  have hsome : r.masks.aBis = some aBis := by
    rw [Masks.getaBis] at haBis
    split at haBis
    · rename_i heq
      rw [heq, Except.ok.inj haBis]
    · cases haBis
  have haBis' : (r.next k res n).masks.getaBis = .ok (aBis * r.secondBase k res) := by
    simp only [next, Masks.getaBis, hsome, Option.map_some]
  have hpow' : BigInteger.modPow vdivM (r.next k res n).challenge k.p = .ok vDivMPowc := hpow
  simp only [quotientPower, hM, hdiv, hpow', haBis', Except.ok_bind, mod_next_zero hmod]

theorem verifiesCCD_next {r : Responses} {k : ElGamalKey} {res : ResEncrypt}
    (hkind : r.kind = .ccd) (h : r.verifiesCCD k res = .ok true) (n : Nat) :
    (r.next k res n).verifiesCCD k res = .ok true := by
  have hbase : r.secondBase k res = res.u := by rw [secondBase, hkind]
  simp only [verifiesCCD, Except.bind_eq_ok, Except.ite_ok_true, Except.pure_eq_ok,
    beq_iff_eq] at h
  obtain ⟨b, hfirst, rfl, uPowr, hu, rhs, hrhs, rfl⟩ := h
  have hu' : BigInteger.modPow res.u (r.next k res n).response k.p = .ok (uPowr * res.u % k.p) :=
    BigInteger.modPow_succ hu
  simp only [verifiesCCD, schnorrEquation_next hfirst, hu', quotientPower_next hrhs, hbase,
    Except.ok_bind, if_true, beq_self_eq_true]
  rfl

theorem verifiesCCE_next {r : Responses} {k : ElGamalKey} {res : ResEncrypt}
    (hkind : r.kind = .cce) (h : r.verifiesCCE k res = .ok true) (n : Nat) :
    (r.next k res n).verifiesCCE k res = .ok true := by
  have hbase : r.secondBase k res = k.publicKey := by rw [secondBase, hkind]
  simp only [verifiesCCE, Except.bind_eq_ok, Except.ite_ok_true, Except.pure_eq_ok] at h
  obtain ⟨gPowr, hg, uPowc, hu, uPowcMulta, hmul, hfirst, pubPowr, hpub, rhs, hrhs, hsecond⟩ := h
  rw [beq_iff_eq] at hfirst hsecond
  subst hfirst hsecond
  have hg' : BigInteger.modPow k.g (r.next k res n).response k.p = .ok (gPowr * k.g % k.p) :=
    BigInteger.modPow_succ hg
  have hpub' : BigInteger.modPow k.publicKey (r.next k res n).response k.p =
      .ok (pubPowr * k.publicKey % k.p) := BigInteger.modPow_succ hpub
  have hu' : BigInteger.modPow res.u (r.next k res n).challenge k.p = .ok uPowc := hu
  have hmul' : BigInteger.mod (uPowc * (r.next k res n).masks.a) k.p = .ok (gPowr * k.g % k.p) :=
    mod_next hmul k.g n
  simp only [verifiesCCE, hg', hu', hmul', hpub', quotientPower_next hrhs, hbase, Except.ok_bind,
    if_true, beq_self_eq_true]
  rfl

/-- An accepted response stays accepted when one is added to it and the masks are made to fit. -/
theorem verifies_next {r : Responses} {k : ElGamalKey} {res : ResEncrypt}
    (h : r.verifies k res = .ok true) (n : Nat) : (r.next k res n).verifies k res = .ok true := by
  rw [verifies] at h ⊢
  rw [show (r.next k res n).kind = r.kind from rfl]
  cases hkind : r.kind with
  | schnorr =>
      rw [hkind] at h
      exact schnorrEquation_next h res n
  | ccd =>
      rw [hkind] at h
      exact verifiesCCD_next hkind h n
  | cce =>
      rw [hkind] at h
      exact verifiesCCE_next hkind h n

/-- The modulus under which a response is accepted is positive. -/
theorem verifies_pos {r : Responses} {k : ElGamalKey} {res : ResEncrypt}
    (h : r.verifies k res = .ok true) : 0 < k.p := by
  have hschnorr : ∀ b, r.schnorrEquation k = .ok b → 0 < k.p := by
    intro b hb
    obtain ⟨_, hpow, -⟩ := Except.bind_eq_ok.mp hb
    exact BigInteger.modPow_pos hpow
  rw [verifies] at h
  split at h
  · exact hschnorr _ h
  · obtain ⟨b, hb, -⟩ := Except.bind_eq_ok.mp h
    exact hschnorr b hb
  · obtain ⟨_, hpow, -⟩ := Except.bind_eq_ok.mp h
    exact BigInteger.modPow_pos hpow

/-- Among the next transcripts there is one whose masks occur nowhere in a list. -/
theorem exists_next_fresh {r : Responses} {k : ElGamalKey} (hp : 0 < k.p) (res : ResEncrypt)
    (rs : List Responses) : ∃ n, ∀ o ∈ rs, (r.next k res n).masks ≠ o.masks := by
  have hbound : ∃ B : Int, ∀ o ∈ rs, o.masks.a < B := by
    induction rs with
    | nil => exact ⟨0, fun o ho => absurd ho List.not_mem_nil⟩
    | cons o rs ih =>
        obtain ⟨B, hB⟩ := ih
        refine ⟨max B (o.masks.a + 1), fun o' ho' => ?_⟩
        rcases List.mem_cons.mp ho' with rfl | hmem
        · exact lt_of_lt_of_le (Int.lt_succ _) (le_max_right _ _)
        · exact lt_of_lt_of_le (hB o' hmem) (le_max_left _ _)
  obtain ⟨B, hB⟩ := hbound
  refine ⟨(B - r.masks.a * k.g).toNat, fun o ho hmasks => ?_⟩
  have ha : r.masks.a * k.g + ((B - r.masks.a * k.g).toNat : Int) * k.p = o.masks.a :=
    congrArg Masks.a hmasks
  have hlt := hB o ho
  have hge : ((B - r.masks.a * k.g).toNat : Int) ≤ (B - r.masks.a * k.g).toNat * k.p :=
    le_mul_of_one_le_right (Int.natCast_nonneg _) hp
  have hself := Int.self_le_toNat (B - r.masks.a * k.g)
  linarith

end Responses

/-! ## Replacing a response -/

/-- The clause `c'` is `c` with another accepted transcript for the key and the challenge of one
response. The other responses keep their keys. -/
def And.Replaced (c c' : And) : Prop :=
  ∃ (i : Nat) (old t : Responses) (k : ElGamalKey),
    c.responses[i]? = some old ∧ c.keyOf old = .ok k ∧
    t.masks ≠ old.masks ∧ t.response ≠ old.response ∧ t.challenge = old.challenge ∧
    t.verifies k c.resEncrypt = .ok true ∧
    c'.resEncrypt = c.resEncrypt ∧ c'.responses = c.responses.set i t ∧ c'.keyOf t = .ok k ∧
    ∀ (j : Nat) (r : Responses), j ≠ i → c.responses[j]? = some r → c'.keyOf r = c.keyOf r

/-- The promise `o'` is `o` with one response of one clause replaced. -/
def Or.Replaced (o o' : Or) : Prop :=
  ∃ (j : Nat) (c c' : And), o.ands[j]? = some c ∧ c.Replaced c' ∧
    o' = { o with ands := o.ands.set j c' }

namespace And.Replaced

variable {c c' : And}

theorem verifies (h : c.Replaced c') (hc : c.verifies = .ok true) : c'.verifies = .ok true := by
  obtain ⟨i, old, t, k, -, -, -, -, -, ht, hres, hset, hkey, hothers⟩ := h
  rw [And.verifies, List.allM_eq_ok_true] at hc ⊢
  intro r hr
  obtain ⟨j, hj⟩ := List.mem_iff_getElem?.mp hr
  rw [hres]
  rw [hset, List.getElem?_set] at hj
  split at hj
  · rename_i hij
    split at hj
    · rw [← Option.some.inj hj, hkey, Except.ok_bind]
      exact ht
    · cases hj
  · rename_i hij
    rw [hothers j r (fun heq => hij heq.symm) hj]
    exact hc r (List.mem_of_getElem? hj)

/-- No challenge changes. -/
theorem challenges_eq (h : c.Replaced c') :
    c'.responses.map (·.challenge) = c.responses.map (·.challenge) := by
  obtain ⟨i, old, t, k, hold, -, -, -, hchallenge, -, -, hset, -, -⟩ := h
  rw [hset]
  exact List.map_set_of_eq hold hchallenge

/-- In an accepted clause every response can be replaced. -/
theorem exists_replaced (hc : c.verifies = .ok true) {old : Responses} (hold : old ∈ c.responses) :
    ∃ c', c.Replaced c' := by
  rw [And.verifies, List.allM_eq_ok_true] at hc
  obtain ⟨k, hk, hverifies⟩ := Except.bind_eq_ok.mp (hc old hold)
  obtain ⟨i, hi⟩ := List.mem_iff_getElem?.mp hold
  obtain ⟨n, hfresh⟩ := Responses.exists_next_fresh (r := old) (Responses.verifies_pos hverifies)
    c.resEncrypt c.responses
  let t := old.next k c.resEncrypt n
  refine ⟨{ c with rK := ⟨(t, k) :: c.rK.entries⟩, responses := c.responses.set i t }, i, old, t, k,
    hi, hk, hfresh old hold, ?_, rfl, Responses.verifies_next hverifies n, rfl, rfl, ?_, ?_⟩
  · exact (Int.lt_succ old.response).ne'
  · simp [And.keyOf, HashMap.get]
  · intro j r _ hr
    have hne : (r == t) = false := by
      rw [beq_eq_false_iff_ne]
      rintro rfl
      exact hfresh t (List.mem_of_getElem? hr) rfl
    simp only [And.keyOf, HashMap.get, List.find?_cons, hne]

end And.Replaced

namespace Or

variable (hash : String → Int)

/-- A promise stays accepted when a response is replaced: the hash covers no mask of a clause. -/
theorem Replaced.verifies {o o' : Or} {m : String} (h : o.Replaced o')
    (ho : o.verifies hash m = .ok true) : o'.verifies hash m = .ok true := by
  obtain ⟨j, c, c', hj, hreplaced, rfl⟩ := h
  rw [verifies_eq_true] at ho ⊢
  obtain ⟨hands, hxor⟩ := ho
  constructor
  · intro d hd
    rcases List.mem_or_eq_of_mem_set hd with hmem | rfl
    · exact hands d hmem
    · exact hreplaced.verifies (hands c (List.mem_of_getElem? hj))
  · have hchallenges : challenges { o with ands := o.ands.set j c' } = o.challenges := by
      have hmap : (o.ands.set j c').map (fun d => d.responses.map (·.challenge)) =
          o.ands.map fun d => d.responses.map (·.challenge) :=
        List.map_set_of_eq hj hreplaced.challenges_eq
      rw [challenges, challenges, List.flatMap_def, List.flatMap_def, hmap]
    rwa [hchallenges]

/-- In an accepted promise every response can be replaced. -/
theorem exists_replaced {o : Or} {m : String} (ho : o.verifies hash m = .ok true) {c : And}
    (hc : c ∈ o.ands) {old : Responses} (hold : old ∈ c.responses) :
    ∃ o', o.Replaced o' ∧ o'.verifies hash m = .ok true := by
  obtain ⟨c', hc'⟩ := And.Replaced.exists_replaced (((verifies_eq_true hash).mp ho).1 c hc) hold
  obtain ⟨j, hj⟩ := List.mem_iff_getElem?.mp hc
  have hreplaced : o.Replaced { o with ands := o.ands.set j c' } := ⟨j, c, c', hj, hc', rfl⟩
  exact ⟨_, hreplaced, hreplaced.verifies hash ho⟩

end Or

/-! ## Promises made of simulated transcripts only -/

namespace Fabric

variable (hash : String → Int) {p : ℕ} [Fact p.Prime] {S R T : ElGamalKey} {res : ResEncrypt}
  {q : Int}

/-- A promise in the name of `S`: `a` and all challenges but the first are chosen, the first one
completes them to the hash value, and every mask is computed from its challenge and response. -/
def assemble (m : String) (a : Int) (res : ResEncrypt) (S R T : ElGamalKey)
    (cCce₁ c₂ cCce₂ r₁ rCce₁ r₂ rCce₂ : Int) : Except JavaException Or := do
  let c₁ := Int.xor (hash (m ++ BigInteger.text a)) (Int.xor c₂ (Int.xor cCce₁ cCce₂))
  let mask₁ ← fabricMaskSchnorr c₁ r₁ S
  let maskCce₁ ← fabricMaskCCE cCce₁ rCce₁ res T
  let mask₂ ← fabricMaskSchnorr c₂ r₂ R
  let maskCce₂ ← fabricMaskCCE cCce₂ rCce₂ res T
  let ands := [
    PCS.clause res ⟨.schnorr, mask₁, c₁, r₁⟩ S ⟨.cce, maskCce₁, cCce₁, rCce₁⟩ T,
    PCS.clause res ⟨.schnorr, mask₂, c₂, r₂⟩ R ⟨.cce, maskCce₂, cCce₂, rCce₂⟩ T]
  return { ands, a }

theorem assemble_verifies (hS : S.InGroup p) (hR : R.InGroup p) (hT : T.InGroup p)
    (hres : res.Divides p q) (m : String) (a cCce₁ c₂ cCce₂ r₁ rCce₁ r₂ rCce₂ : Int) :
    ∃ o, assemble hash m a res S R T cCce₁ c₂ cCce₂ r₁ rCce₁ r₂ rCce₂ = .ok o ∧
      o.verifies hash m = .ok true := by
  let c₁ := Int.xor (hash (m ++ BigInteger.text a)) (Int.xor c₂ (Int.xor cCce₁ cCce₂))
  obtain ⟨mask₁, hmask₁, haccepted₁⟩ := fabricMaskSchnorr_accepted hS res c₁ r₁
  obtain ⟨maskCce₁, hmaskCce₁, hacceptedCce₁⟩ := fabricMaskCCE_accepted hT hres cCce₁ rCce₁
  obtain ⟨mask₂, hmask₂, haccepted₂⟩ := fabricMaskSchnorr_accepted hR res c₂ r₂
  obtain ⟨maskCce₂, hmaskCce₂, hacceptedCce₂⟩ := fabricMaskCCE_accepted hT hres cCce₂ rCce₂
  refine ⟨{
    ands := [
      PCS.clause res ⟨.schnorr, mask₁, c₁, r₁⟩ S ⟨.cce, maskCce₁, cCce₁, rCce₁⟩ T,
      PCS.clause res ⟨.schnorr, mask₂, c₂, r₂⟩ R ⟨.cce, maskCce₂, cCce₂, rCce₂⟩ T]
    a }, ?_, ?_⟩
  · simp only [assemble, hmaskCce₁, hmask₂, hmaskCce₂, c₁] at hmask₁ ⊢
    rw [hmask₁]
    rfl
  · rw [Or.verifies_eq_true]
    constructor
    · intro c hc
      rcases List.mem_pair.mp hc with rfl | rfl
      · exact PCS.clause_verifies rfl rfl haccepted₁ hacceptedCce₁
      · exact PCS.clause_verifies rfl rfl haccepted₂ hacceptedCce₂
    · rw [Receiver.verifiesChallenges, beq_iff_eq]
      exact BigInteger.xor_missing (hash (m ++ BigInteger.text a)) cCce₁ c₂ cCce₂

end Fabric

namespace Or

variable (hash : String → Int)

/-- An accepted promise binds the masks of its clauses only if it has no response at all, and
promises that are accepted can be assembled from simulated transcripts, for every number `a`. -/
theorem masks_unbound (m : String) :
    (∀ o : Or, o.verifies hash m = .ok true →
      ((∀ o', o.Replaced o' → o'.verifies hash m ≠ .ok true) ↔
        ∀ c ∈ o.ands, c.responses = [])) ∧
    ∀ (p : ℕ) [Fact p.Prime] (S R T : ElGamalKey) (res : ResEncrypt) (q : Int),
      S.InGroup p → R.InGroup p → T.InGroup p → res.Divides p q →
        ∀ a cCce₁ c₂ cCce₂ r₁ rCce₁ r₂ rCce₂ : Int,
          ∃ o, Fabric.assemble hash m a res S R T cCce₁ c₂ cCce₂ r₁ rCce₁ r₂ rCce₂ = .ok o ∧
            o.verifies hash m = .ok true := by
  refine ⟨fun o ho => ⟨fun hbound c hc => ?_, fun hempty o' hreplaced _ => ?_⟩,
    fun p _ S R T res q hS hR hT hres => Fabric.assemble_verifies hash hS hR hT hres m⟩
  · refine List.eq_nil_iff_forall_not_mem.mpr fun old hold => ?_
    obtain ⟨o', hreplaced, ho'⟩ := exists_replaced hash ho hc hold
    exact hbound o' hreplaced ho'
  · obtain ⟨j, c, c', hj, ⟨i, old, t, k, hold, -⟩, -⟩ := hreplaced
    rw [hempty c (List.mem_of_getElem? hj)] at hold
    cases hold

end Or

/-- A promise that was made has a clause with a response. -/
theorem PCS.getPcs_response {hash : String → Int} {pcs pcs' : PCS} {m : String} {R : ElGamalKey}
    {k : Nat} {coins : PcsCoins} {o : Or}
    (h : pcs.getPcs hash m R true k coins = .ok (o, pcs')) :
    ∃ c ∈ o.ands, ∃ r, r ∈ c.responses := by
  simp only [PCS.getPcs, if_true, PCS.createPcs, Except.bind_eq_ok, Except.pure_eq_ok] at h
  obtain ⟨_, _, _, _, _, _, _, _, _, _, _, _, _, _, r, _, hmade⟩ := h
  rw [← (Prod.mk.inj hmade).1]
  exact ⟨_, List.mem_cons_self, r, List.mem_cons_self⟩

namespace Sample

/-- What the owner of the first key makes promises with. -/
def pcs : PCS := PCS.create { keys := keysOf 200 } (keysOf 202).toElGamalKey

theorem pcs_keys : pcs.sender.keys = keysOf 200 := rfl

/-- A promise of the first key to the second one. -/
theorem pcs_promises (hash : String → Int) :
    ∃ o pcs', pcs.getPcs hash "offer" (keysOf 201).toElGamalKey true 1 {} = .ok (o, pcs') ∧
      o.verifies hash "offer" = .ok true :=
  keysFor.getPcs_verifies hash rfl rfl "offer" 1 {}

end Sample

namespace Or

theorem masks_unbound_offer :
    ¬ ∃ hash : String → Int, ∀ o pcs',
      Sample.pcs.getPcs hash "offer" (Sample.keysOf 201).toElGamalKey true 1 {} = .ok (o, pcs') →
      o.verifies hash "offer" = .ok true →
        ∀ o', o.Replaced o' → o'.verifies hash "offer" ≠ .ok true := by
  rintro ⟨hash, hbound⟩
  obtain ⟨o, pcs', hmade, ho⟩ := Sample.pcs_promises hash
  obtain ⟨c, hc, r, hr⟩ := PCS.getPcs_response hmade
  obtain ⟨o', hreplaced, ho'⟩ := exists_replaced hash ho hc hr
  exact hbound o pcs' hmade ho o' hreplaced ho'

end Or

/-! ## The revealing response -/

/-- The challenge is an exponent in a group whose order divides `p - 1`, so a mask fits more than
one of them. -/
theorem Fabric.fabricMaskCCE_prime {p : ℕ} [Fact p.Prime] {T : ElGamalKey} {res : ResEncrypt}
    {q : Int} (hT : T.InGroup p) (hres : res.Divides p q) (r : Int) :
    fabricMaskCCE p r res T = fabricMaskCCE 1 r res T := by
  rw [fabricMaskCCE_eq hT hres, fabricMaskCCE_eq hT hres]
  simp only [simulatedMask, zpow_natCast, ZMod.pow_card, zpow_one]

namespace SigmaSigner

variable (hash : String → Int)

/-- The part of `verify` that does not look at the revealing response. -/
def AcceptsPromise (s : SigmaSigner) (m : String) (pcs : Or) (trentK : ElGamalKey) : Prop :=
  ∃ clause, pcs.firstClause = .ok clause ∧
    s.matchesReceiver clause.resEncrypt trentK = .ok true ∧
    pcs.verifies hash m = .ok true ∧ s.matchesTrent trentK = true

theorem verify_iff_acceptsPromise {s : SigmaSigner} {m : String} {pcs : Or} {rpcs : Responses}
    {trentK : ElGamalKey} :
    s.verify hash m { pcs, rpcs, trentK } = .ok true ↔
      s.AcceptsPromise hash m pcs trentK ∧
        ∃ clause, pcs.firstClause = .ok clause ∧
          rpcs.verifies trentK clause.resEncrypt = .ok true := by
  rw [verify_eq_true]
  constructor
  · rintro ⟨clause, hclause, hreceiver, hpcs, hrpcs, htrent⟩
    exact ⟨⟨clause, hclause, hreceiver, hpcs, htrent⟩, clause, hclause, hrpcs⟩
  · rintro ⟨⟨clause, hclause, hreceiver, hpcs, htrent⟩, clause', hclause', hrpcs⟩
    rw [hclause, Except.ok.injEq] at hclause'
    exact ⟨clause, hclause, hreceiver, hpcs, hclause' ▸ hrpcs, htrent⟩

/-- Whoever expects the maker of a promise and Trent accepts what the maker made. -/
theorem acceptsPromise_of_keysFor {p : ℕ} [Fact p.Prime] {S : ElGamalKeyPair} {R T : ElGamalKey}
    (h : KeysFor p S R T) {o : Or} {m : String} (ho : o.verifies hash m = .ok true) {clause : And}
    (hclause : o.firstClause = .ok clause)
    (hid : Sender.getIdentificationData S.toElGamalKey = .ok clause.resEncrypt.M) :
    AcceptsPromise hash { trentK := some T, receiverK := some S.toElGamalKey } m o T := by
  obtain ⟨id, hid', hlt⟩ := h.exists_data
  rw [hid, Except.ok.injEq] at hid'
  refine ⟨clause, hclause, ?_, ho, ?_⟩
  · exact KeysFor.matchesReceiver_of_data hid (hid' ▸ hlt) h.trent rfl (Or.inr rfl)
  · simp [matchesTrent]

/-- The transcript with challenge and response zero, for one of the masks that fit. -/
def openedReveal (p : Int) (n : Nat) : Responses where
  kind := .schnorr
  masks := { a := 1 + n * p, aBis := none }
  challenge := 0
  response := 0

theorem openedReveal_verifies {k : ElGamalKey} (hp : 0 < k.p) (n : Nat) (res : ResEncrypt) :
    (openedReveal k.p n).verifies k res = .ok true := by
  have hpow : ∀ a, BigInteger.modPow a 0 k.p = .ok (1 % k.p) := by
    intro a
    have h := BigInteger.modPow_natCast (a := a) hp 0
    rwa [pow_zero] at h
  have hmod : 1 % k.p * (1 + n * k.p) % k.p = 1 % k.p := by
    rw [BigInteger.emod_mul_emod, one_mul, Int.add_mul_emod_self_right]
  simp only [Responses.verifies, openedReveal, Responses.schnorrEquation, hpow, Except.ok_bind,
    BigInteger.mod_of_pos hp, hmod, beq_self_eq_true]
  rfl

/-- Around an accepted promise, the challenge of the revealing response is bound to its mask only
if no revealing response can be accepted at all. -/
theorem reveal_unbound (s : SigmaSigner) (m : String) (pcs : Or) (trentK : ElGamalKey)
    (hhash : ∃ n : ℕ, hash (m ++ BigInteger.text (1 + n * trentK.p)) ≠ 0) :
    (∀ rpcs, s.verify hash m { pcs, rpcs, trentK } = .ok true →
      rpcs.challenge = Sender.sendChallenge hash rpcs.masks m) ↔
    ¬ (s.AcceptsPromise hash m pcs trentK ∧ 0 < trentK.p) := by
  constructor
  · rintro hbound ⟨hpcs, hp⟩
    obtain ⟨n, hn⟩ := hhash
    obtain ⟨clause, hclause, -⟩ := id hpcs
    have hzero := hbound (openedReveal trentK.p n)
      ((verify_iff_acceptsPromise hash).mpr ⟨hpcs, clause, hclause, openedReveal_verifies hp n _⟩)
    exact hn hzero.symm
  · intro hrejected rpcs hverify
    obtain ⟨hpcs, clause, -, hrpcs⟩ := (verify_iff_acceptsPromise hash).mp hverify
    exact absurd ⟨hpcs, Responses.verifies_pos hrpcs⟩ hrejected

theorem reveal_unbound_offer :
    let hash := fun text : String => -(text.length : Int)
    let s : SigmaSigner :=
      { trentK := some (Sample.keysOf 202).toElGamalKey
        receiverK := some (Sample.keysOf 200).toElGamalKey }
    ∃ o pcs',
      Sample.pcs.getPcs hash "offer" (Sample.keysOf 201).toElGamalKey true 1 {} = .ok (o, pcs') ∧
      ((∀ rpcs, s.verify hash "offer" ⟨o, rpcs, (Sample.keysOf 202).toElGamalKey⟩ = .ok true →
          rpcs.challenge = Sender.sendChallenge hash rpcs.masks "offer") ↔
        ¬ (s.AcceptsPromise hash "offer" o (Sample.keysOf 202).toElGamalKey ∧
          0 < (Sample.keysOf 202).p)) := by
  intro hash s
  obtain ⟨o, pcs', hmade, -⟩ := Sample.pcs_promises hash
  refine ⟨o, pcs', hmade, reveal_unbound hash s "offer" o _ ⟨0, ?_⟩⟩
  simp only [hash, String.length_append]
  have hoffer : "offer".length = 5 := rfl
  omega

theorem reveal_bound_offer_false :
    ¬ ∃ hash : String → Int, ∀ o pcs',
      Sample.pcs.getPcs hash "offer" (Sample.keysOf 201).toElGamalKey true 1 {} = .ok (o, pcs') →
      ∀ rpcs : Responses,
        SigmaSigner.verify hash
          { trentK := some (Sample.keysOf 202).toElGamalKey
            receiverK := some (Sample.keysOf 200).toElGamalKey } "offer"
          ⟨o, rpcs, (Sample.keysOf 202).toElGamalKey⟩ = .ok true →
        rpcs.challenge = Sender.sendChallenge hash rpcs.masks "offer" := by
  rintro ⟨hash, hbound⟩
  obtain ⟨o, pcs', clause, q, hmade, ho, hclause, hres, hid⟩ :=
    Sample.keysFor.getPcs_accepted hash Sample.pcs_keys rfl "offer" 1 {}
  obtain ⟨mask, hmask, hfirst⟩ := Fabric.fabricMaskCCE_accepted Sample.keysFor.trent hres 1 1
  obtain ⟨mask', hmask', hsecond⟩ :=
    Fabric.fabricMaskCCE_accepted Sample.keysFor.trent hres Sample.prime 1
  rw [Fabric.fabricMaskCCE_prime Sample.keysFor.trent hres, hmask, Except.ok.injEq] at hmask'
  subst hmask'
  have hpcs := acceptsPromise_of_keysFor hash Sample.keysFor ho hclause hid
  have hone := hbound o pcs' hmade _
    ((verify_iff_acceptsPromise hash).mpr ⟨hpcs, clause, hclause, hfirst⟩)
  have hprime := hbound o pcs' hmade _
    ((verify_iff_acceptsPromise hash).mpr ⟨hpcs, clause, hclause, hsecond⟩)
  have hequal : (1 : Int) = Sample.prime := hone.trans hprime.symm
  exact Sample.prime_prime.one_lt.ne (by exact_mod_cast hequal)

end SigmaSigner

/-! ## The expected keys -/

namespace SigmaSignature

variable (hash : String → Int)

/-- The equations of the signature are equations under the keys `K` and `T`: the Schnorr responses
of the first clause under `K`, all CCE responses and the revealing response under `T`. -/
structure BoundTo (s : SigmaSignature) (K T : ElGamalKey) : Prop where
  signer : ∃ clause, s.pcs.firstClause = .ok clause ∧
    ∀ r ∈ clause.responses, r.kind = .schnorr → clause.keyOf r = .ok K
  trent : ∀ c ∈ s.pcs.ands, ∀ r ∈ c.responses, r.kind = .cce → c.keyOf r = .ok T
  reveal : s.trentK = T

/-- Nothing is accepted in the name of a key without identification data. -/
theorem identified_of_verify {K : ElGamalKey} {trentK : Option ElGamalKey} {m : String}
    {s : SigmaSignature}
    (h : SigmaSigner.verify hash { trentK, receiverK := some K } m s = .ok true) :
    ∃ clause M, s.pcs.firstClause = .ok clause ∧
      BigInteger.ofBytes clause.resEncrypt.M = .ok M ∧
      Sender.identification K = .ok (M % s.trentK.p) := by
  obtain ⟨clause, hclause, hreceiver, -⟩ := (SigmaSigner.verify_eq_true hash).mp h
  simp only [SigmaSigner.matchesReceiver, Except.bind_eq_ok, Except.pure_eq_ok, beq_iff_eq]
    at hreceiver
  obtain ⟨M, hM, m', hmod, n, hn, rfl⟩ := hreceiver
  refine ⟨clause, M, hclause, hM, ?_⟩
  rw [BigInteger.mod] at hmod
  split at hmod
  · cases hmod
  · rw [Except.ok.injEq] at hmod
    rw [hmod]
    exact hn

/-- The forgery is not bound to the key in whose name it is accepted. -/
theorem forged_not_boundTo {K T : ElGamalKey} {id : List UInt8}
    (hid : Sender.getIdentificationData K = .ok id) (m : String) :
    ¬ (forged hash m id T).BoundTo K T := by
  intro hbound
  obtain ⟨clause, hclause, hkey⟩ := hbound.signer
  have hfirst : (forged hash m id T).pcs.firstClause =
      .ok (Or.forgedClause hash m 0 { u := 1, v := 1, M := id }) := rfl
  rw [hfirst, Except.ok.injEq] at hclause
  subst hclause
  have hweak := hkey (Or.forgedResponse hash m) List.mem_cons_self rfl
  rw [Or.forgedClause_keyOf, Except.ok.injEq] at hweak
  -- the key in the forgery is too short to be identified
  rw [← hweak] at hid
  simp [Sender.getIdentificationData, weakKey, BigInteger.digits] at hid

/-- Signatures accepted in the name of `K` are bound to it only if there are none, because `K`
has no identification data; and two keys accept a common signature exactly if they share their
identification data. -/
theorem keys_unbound (m : String) (T : ElGamalKey) :
    (∀ K : ElGamalKey,
      (∀ s : SigmaSignature,
        SigmaSigner.verify hash { trentK := some T, receiverK := some K } m s = .ok true →
          s.BoundTo K T) ↔
      (BigInteger.digits K.publicKey).length < 125) ∧
    ∀ K K' : ElGamalKey,
      (∃ s : SigmaSignature,
        SigmaSigner.verify hash { trentK := some T, receiverK := some K } m s = .ok true ∧
        SigmaSigner.verify hash { trentK := some T, receiverK := some K' } m s = .ok true) ↔
      ∃ id, Sender.getIdentificationData K = .ok id ∧ Sender.getIdentificationData K' = .ok id := by
  refine ⟨fun K => ⟨fun hbound => ?_, fun hshort s hs => ?_⟩, fun K K' => ⟨?_, ?_⟩⟩
  · by_contra hlength
    have hid : ∃ id, Sender.getIdentificationData K = .ok id :=
      ⟨_, if_neg hlength⟩
    obtain ⟨id, hid⟩ := hid
    obtain ⟨b, bs, rfl, -, hb, -⟩ := Sender.getIdentificationData_cons hid
    exact forged_not_boundTo hash hid m (hbound _ (forged_verify hash hid hb T m))
  · obtain ⟨_, _, -, -, hid⟩ := identified_of_verify hash hs
    have herror : Sender.getIdentificationData K = .error .indexOutOfBounds := if_pos hshort
    rw [Sender.identification, herror] at hid
    cases hid
  · rintro ⟨s, hs, hs'⟩
    obtain ⟨clause, M, hclause, hM, hid⟩ := identified_of_verify hash hs
    obtain ⟨clause', M', hclause', hM', hid'⟩ := identified_of_verify hash hs'
    rw [hclause, Except.ok.injEq] at hclause'
    subst hclause'
    rw [hM, Except.ok.injEq] at hM'
    subst hM'
    exact Sender.getIdentificationData_of_identification hid hid'
  · rintro ⟨id, hid, hid'⟩
    obtain ⟨b, bs, rfl, -, hb, -⟩ := Sender.getIdentificationData_cons hid
    exact ⟨_, forged_verify hash hid hb T m, forged_verify hash hid' hb T m⟩

end SigmaSignature

namespace Sample

/-- Another key with the identification data of Alice's: its public key has a digit more. -/
def aliceTwinKey : ElGamalKey := { p := 23, g := 5, publicKey := 10 ^ 125 }

theorem aliceTwinKey_identification :
    Sender.getIdentificationData aliceTwinKey = .ok aliceId := by
  decide +kernel

theorem aliceTwinKey_ne_aliceKey : aliceTwinKey ≠ aliceKey := by
  decide +kernel

end Sample

namespace SigmaSignature

theorem keys_unbound_offer :
    ¬ ∃ hash : String → Int,
      (∀ s : SigmaSignature,
        SigmaSigner.verify hash
          { trentK := some Sample.trentKey, receiverK := some Sample.aliceKey } "offer" s =
            .ok true → s.BoundTo Sample.aliceKey Sample.trentKey) ∨
      ∀ (K K' : ElGamalKey) (s : SigmaSignature), K ≠ K' →
        SigmaSigner.verify hash { trentK := some Sample.trentKey, receiverK := some K } "offer" s =
          .ok true →
        SigmaSigner.verify hash { trentK := some Sample.trentKey, receiverK := some K' } "offer" s ≠
          .ok true := by
  have hbyte : (49 : UInt8) < 128 := by decide
  rintro ⟨hash, hbound | hdisjoint⟩
  · exact forged_not_boundTo hash Sample.aliceKey_identification "offer"
      (hbound _ (forged_verify hash Sample.aliceKey_identification hbyte Sample.trentKey "offer"))
  · exact hdisjoint _ _ _ Sample.aliceTwinKey_ne_aliceKey
      (forged_verify hash Sample.aliceTwinKey_identification hbyte Sample.trentKey "offer")
      (forged_verify hash Sample.aliceKey_identification hbyte Sample.trentKey "offer")

end SigmaSignature

end Sxp
