-- SUMMARY: What two accepted CCE responses prove about a ciphertext: Trent decrypts it to the claimed content exactly if that content divides its second number.
import Sxp.Sigma.Equations
import Sxp.Sigma.Trent

/-!
# Soundness of CCE responses

Two accepted responses to one mask give away an exponent that both numbers of the ciphertext
have, the second one after it was divided by the content. The division is the one of integers,
so its remainder is not proved to be zero.
-/

namespace Sxp

open SigmaProtocol (Accepts)

namespace Responses

variable {p : ℕ} [Fact p.Prime] {k : ElGamalKey} {res : ResEncrypt} {r r' : Responses} {M : Int}

/-- The powers that the two tests of an accepted CCE response compare. -/
theorem verifiesCCE_powers (hk : k.InGroup p) (hM : BigInteger.ofBytes res.M = .ok M)
    (h : r.verifiesCCE k res = .ok true) :
    ∃ uPowc q vDivMPowc aBis, BigInteger.modPow res.u r.challenge p = .ok uPowc ∧
      (k.g : ZMod p) ^ r.response = uPowc * r.masks.a ∧
      BigInteger.divide res.v M = .ok q ∧ BigInteger.modPow q r.challenge p = .ok vDivMPowc ∧
      r.masks.getaBis = .ok aBis ∧ (k.publicKey : ZMod p) ^ r.response = vDivMPowc * aBis := by
  simp only [verifiesCCE, quotientPower, hk.modulus, BigInteger.modPow_eq_val hk.generator,
    BigInteger.modPow_eq_val hk.publicKey, BigInteger.mod_eq_val, hM, Except.ok_bind,
    Except.bind_eq_ok] at h
  obtain ⟨uPowc, huPowc, h⟩ := h
  rw [Except.ite_ok_true, beq_iff_eq, BigInteger.val_eq_iff, Int.cast_mul] at h
  obtain ⟨hfirst, h⟩ := h
  simp only [Except.bind_eq_ok, Except.pure_eq_ok, Except.ok.injEq] at h
  obtain ⟨_, ⟨q, hq, vDivMPowc, hpow, aBis, haBis, rfl⟩, hsecond⟩ := h
  rw [beq_iff_eq, BigInteger.val_eq_iff, Int.cast_mul] at hsecond
  exact ⟨uPowc, q, vDivMPowc, aBis, huPowc, hfirst, hq, hpow, haBis, hsecond⟩

/-- Two accepted responses to one mask, for challenges that differ by one, have the exponent of
both numbers of the ciphertext. -/
theorem exists_exponent (hk : k.InGroup p) (hM : BigInteger.ofBytes res.M = .ok M)
    (hmasks : r'.masks = r.masks)
    (hchallenge : r'.challenge = r.challenge + 1) (h : r.verifiesCCE k res = .ok true)
    (h' : r'.verifiesCCE k res = .ok true) :
    ∃ (d : Int) (q : Int), (res.u : ZMod p) = (k.g : ZMod p) ^ d ∧
      BigInteger.divide res.v M = .ok q ∧ (q : ZMod p) = (k.publicKey : ZMod p) ^ d := by
  obtain ⟨uPowc, q, vPowc, aBis, hu, hfirst, hq, hv, haBis, hsecond⟩ := verifiesCCE_powers hk hM h
  obtain ⟨uPowc', q', vPowc', aBis', hu', hfirst', hq', hv', haBis', hsecond'⟩ :=
    verifiesCCE_powers hk hM h'
  obtain rfl : q' = q := Except.ok.inj (hq'.symm.trans hq)
  rw [hmasks] at hfirst' haBis'
  obtain rfl : aBis' = aBis := Except.ok.inj (haBis'.symm.trans haBis)
  rw [hchallenge] at hu' hv'
  -- a power of a unit is no multiple of the modulus, so neither are the factors on the other side
  have hunit : (res.u : ZMod p) ≠ 0 := by
    refine BigInteger.base_ne_zero hu hu' fun hzero => ?_
    rw [hzero, zero_mul] at hfirst'
    exact zpow_ne_zero _ hk.generator hfirst'
  have hquotient : (q' : ZMod p) ≠ 0 := by
    refine BigInteger.base_ne_zero hv hv' fun hzero => ?_
    rw [hzero, zero_mul] at hsecond'
    exact zpow_ne_zero _ hk.publicKey hsecond'
  have hpower : ∀ {a e b : Int}, (a : ZMod p) ≠ 0 → BigInteger.modPow a e p = .ok b →
      (b : ZMod p) = (a : ZMod p) ^ e := by
    intro a e b ha hb
    obtain rfl := Except.ok.inj ((BigInteger.modPow_eq_val ha e).symm.trans hb)
    exact BigInteger.cast_val _
  rw [hpower hunit hu] at hfirst
  rw [hpower hunit hu'] at hfirst'
  rw [hpower hquotient hv] at hsecond
  rw [hpower hquotient hv'] at hsecond'
  refine ⟨r'.response - r.response, q', ?_, hq, ?_⟩
  · exact Accepts.exponent hk.generator hunit hfirst hfirst'
  · exact Accepts.exponent hk.publicKey hquotient hsecond hsecond'

end Responses

namespace Trent

variable {p : ℕ} [Fact p.Prime] {trent : Trent} {res : ResEncrypt} {M q d : Int}

/-- Trent takes the power of the exponent out of the second number. -/
theorem decryption_eq (hkeys : trent.keys.Valid p)
    (hu : (res.u : ZMod p) = (trent.keys.g : ZMod p) ^ d) : trent.decryption res =
      .ok ((((((trent.keys.publicKey : ZMod p) ^ d)⁻¹ * res.v : ZMod p).val : ℕ) : Int)) := by
  have hunit : (res.u : ZMod p) ≠ 0 := by
    rw [hu]
    exact zpow_ne_zero d hkeys.generator
  -- the exponents count modulo `p - 1`
  have hpower : (res.u : ZMod p) ^ ((p : Int) - 1 - trent.keys.privateKey) =
      ((trent.keys.publicKey : ZMod p) ^ d)⁻¹ := by
    rw [zpow_sub₀ hunit, BigInteger.zpow_pred_eq_one hunit, one_div, hkeys.pair, hu, ← zpow_mul,
      ← zpow_mul, mul_comm d]
  simp only [decryption, hkeys.modulus, BigInteger.modPow_eq_val hunit, hpower,
    BigInteger.mod_eq_val, Except.ok_bind, Int.cast_mul, BigInteger.cast_val]

/-- The content is what is decrypted if the second number is a multiple of it, and only then. -/
theorem decryption_iff_dvd_of_exponent (hkeys : trent.keys.Valid p)
    (hu : (res.u : ZMod p) = (trent.keys.g : ZMod p) ^ d) (hq : BigInteger.divide res.v M = .ok q)
    (hquotient : (q : ZMod p) = (trent.keys.publicKey : ZMod p) ^ d) (hpos : 0 < M) (hlt : M < p)
    (hv : 0 ≤ res.v) : trent.decryption res = .ok (M % p) ↔ M ∣ res.v := by
  have hpow : (trent.keys.publicKey : ZMod p) ^ d ≠ 0 := zpow_ne_zero d hkeys.inGroup.publicKey
  rw [BigInteger.divide, if_neg hpos.ne', Except.ok.injEq, Int.tdiv_eq_ediv_of_nonneg hv] at hq
  have hsplit : (res.v : ZMod p) = (trent.keys.publicKey : ZMod p) ^ d * M + (res.v % M : Int) := by
    rw [← hquotient, ← hq, ← Int.cast_mul, ← Int.cast_add, Int.ediv_mul_add_emod]
  have hdecrypted : ((trent.keys.publicKey : ZMod p) ^ d)⁻¹ * res.v =
      M + ((trent.keys.publicKey : ZMod p) ^ d)⁻¹ * (res.v % M : Int) := by
    rw [hsplit, mul_add, ← mul_assoc, inv_mul_cancel₀ hpow, one_mul]
  have hmod : M % p = (((M : ZMod p).val : ℕ) : Int) := (ZMod.val_intCast M).symm
  rw [decryption_eq hkeys hu, Except.ok.injEq, hmod, BigInteger.val_eq_iff, hdecrypted, add_eq_left,
    mul_eq_zero_iff_left (inv_ne_zero hpow), ZMod.intCast_zmod_eq_zero_iff_dvd,
    Int.dvd_iff_emod_eq_zero]
  have hrest := Int.emod_nonneg res.v hpos.ne'
  have hsmall := Int.emod_lt_of_pos res.v hpos
  rw [Int.emod_eq_of_lt hrest (hsmall.trans hlt)]
  exact Int.dvd_iff_emod_eq_zero.symm

/-- Two accepted CCE responses to one mask prove what Trent decrypts, if and only if the claimed
content divides the second number of the ciphertext. -/
theorem decryption_iff_dvd (hkeys : trent.keys.Valid p) (hM : BigInteger.ofBytes res.M = .ok M)
    (hpos : 0 < M) (hlt : M < p) (hv : 0 ≤ res.v) {r r' : Responses} (hkind : r.kind = .cce)
    (hkind' : r'.kind = .cce) (hmasks : r'.masks = r.masks)
    (hchallenge : r'.challenge = r.challenge + 1)
    (h : r.verifies trent.getKey res = .ok true) (h' : r'.verifies trent.getKey res = .ok true) :
    trent.decryption res = .ok (M % p) ↔ M ∣ res.v := by
  rw [Responses.verifies, hkind] at h
  rw [Responses.verifies, hkind'] at h'
  obtain ⟨d, q, hu, hq, hquotient⟩ :=
    Responses.exists_exponent hkeys.inGroup hM hmasks hchallenge h h'
  exact decryption_iff_dvd_of_exponent hkeys hu hq hquotient hpos hlt hv

end Trent

/-! ## A group of eleven residues -/

namespace Sample

instance fact_eleven : Fact (Nat.Prime 11) := ⟨by decide⟩

/-- A Trent with the private key one. -/
def smallTrent : Trent where
  hash _ := 0
  keys := { p := 11, g := 2, publicKey := 2, privateKey := 1 }
  json := {
    toOrs _ := none
    signaturesToJson _ := ""
    claimsToJson _ := ""
    dishonestToJson _ := ""
    tokenToJson _ := ""
    toOrs_abort := rfl }

theorem smallTrent_valid : smallTrent.keys.Valid 11 where
  modulus := rfl
  generator := by decide
  pair := by decide

/-- A ciphertext of the content three. -/
def ofThree (v : Int) : ResEncrypt := { u := 2, v, M := [3] }

/-- The response for the exponent one. -/
def cceResponse (c : Int) : Responses :=
  { kind := .cce, masks := { a := 1, aBis := some 1 }, challenge := c, response := c }

end Sample

namespace Trent

theorem decryption_iff_dvd_six :
    Sample.smallTrent.decryption (Sample.ofThree 6) = .ok (3 % 11) ↔ (3 : Int) ∣ 6 :=
  @decryption_iff_dvd 11 _ Sample.smallTrent (Sample.ofThree 6) 3 Sample.smallTrent_valid (by
    decide) (by decide)
    (by decide) (by decide) (Sample.cceResponse 0) (Sample.cceResponse 1) rfl rfl rfl rfl (by
      decide) (by decide)

/-- Seven divided by three is two, which both responses are accepted for. -/
theorem seven_not_decrypted :
    ¬ ((Sample.cceResponse 0).verifies Sample.smallTrent.getKey (Sample.ofThree 7) = .ok true →
      (Sample.cceResponse 1).verifies Sample.smallTrent.getKey (Sample.ofThree 7) = .ok true →
        Sample.smallTrent.decryption (Sample.ofThree 7) = .ok (3 % 11)) := by
  decide

end Trent

end Sxp
