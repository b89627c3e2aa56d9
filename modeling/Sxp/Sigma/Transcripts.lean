-- SUMMARY: Simulated and honest transcripts verify: exactly when Fabric can build one, that what it builds passes, and that Trent's responses pass.
import Sxp.Sigma.Soundness

/-!
# Transcripts

A simulated mask is one side of a test divided by the rest of the other side. The test computes
the same powers again, so it passes modulo any number; whether the powers and their inverses
exist is what depends on the key. An honest response passes because of the exponent it is made of.
-/

namespace Sxp

open SigmaProtocol (Accepts)

/-! ## Simulated transcripts -/

namespace Fabric

/-- `SendResponseSchnorrFabric`, once the challenge and the response are drawn. -/
def transcriptSchnorr (c r : Int) (keys : ElGamalKey) : Except JavaException Responses := do
  let mask ← fabricMaskSchnorr c r keys
  return { kind := .schnorr, masks := mask, challenge := c, response := r }

/-- `SendResponseCCEFabric`, once the challenge and the response are drawn. -/
def transcriptCCE (c r : Int) (res : ResEncrypt) (keys : ElGamalKey) :
    Except JavaException Responses := do
  let mask ← fabricMaskCCE c r res keys
  return { kind := .cce, masks := mask, challenge := c, response := r }

theorem sendResponseSchnorrFabric_eq (keys : ElGamalKey) (challenge response : Nat) :
    sendResponseSchnorrFabric keys challenge response =
      transcriptSchnorr (Utils.rand keys.p challenge) (Utils.rand keys.p response) keys := rfl

theorem sendResponseCCEFabric_eq (res : ResEncrypt) (keys : ElGamalKey) (challenge response : Nat) :
    sendResponseCCEFabric res keys challenge response =
      transcriptCCE (Utils.rand keys.p challenge) (Utils.rand keys.p response) res keys := rfl

variable {k : ElGamalKey} {res : ResEncrypt} {c r : Int} {t : Responses}

/-- Nothing is asked of the key: its modulus need not be a prime. -/
theorem transcriptSchnorr_verifies (h : transcriptSchnorr c r k = .ok t) (res : ResEncrypt) :
    t.kind = .schnorr ∧ t.verifies k res = .ok true := by
  simp only [transcriptSchnorr, fabricMaskSchnorr, Except.bind_eq_ok, Except.pure_eq_ok] at h
  obtain ⟨_, ⟨gPowr, hgPowr, yPowc, hyPowc, modInv, hmodInv, rfl⟩, rfl⟩ := h
  have hrhs := BigInteger.mod_mul_modInverse (BigInteger.modPow_pos hgPowr)
    (BigInteger.modPow_emod hgPowr) hmodInv
  refine ⟨rfl, ?_⟩
  simp only [Responses.verifies, Responses.schnorrEquation, hgPowr, hyPowc, hrhs, Except.ok_bind,
    beq_self_eq_true]
  rfl

/-- The division need not be exact either: it is the same one in the test. -/
theorem transcriptCCE_verifies (h : transcriptCCE c r res k = .ok t) :
    t.kind = .cce ∧ t.verifies k res = .ok true := by
  simp only [transcriptCCE, fabricMaskCCE, Except.bind_eq_ok, Except.pure_eq_ok] at h
  obtain ⟨_, ⟨gPowr, hgPowr, uPowc, huPowc, modInv, hmodInv, pubPowr, hpubPowr, M, hM, vDivM,
    hvDivM, vDivMPwc, hvDivMPwc, modInvBis, hmodInvBis, rfl⟩, rfl⟩ := h
  have hm := BigInteger.modPow_pos hgPowr
  have hfirst := BigInteger.mod_mul_modInverse hm (BigInteger.modPow_emod hgPowr) hmodInv
  have hsecond := BigInteger.mod_mul_modInverse hm (BigInteger.modPow_emod hpubPowr) hmodInvBis
  refine ⟨rfl, ?_⟩
  simp only [Responses.verifies, Responses.verifiesCCE, Responses.quotientPower, Masks.getaBis,
    hgPowr, huPowc,
    hfirst, hpubPowr, hM, hvDivM, hvDivMPwc, hsecond, Except.ok_bind, beq_self_eq_true, if_true]
  rfl

end Fabric

/-! ## When they can be built -/

namespace Fabric

variable {p : ℕ} [Fact p.Prime] {k : ElGamalKey} {res : ResEncrypt} {c r q : Int}

/-- A public key that is not zero can be inverted, but a generator of zero has no negative
powers. -/
theorem transcriptSchnorr_total_iff (hp : k.p = p) (hy : (k.publicKey : ZMod p) ≠ 0) :
    (∃ t, transcriptSchnorr c r k = .ok t) ↔ 0 ≤ r ∨ (k.g : ZMod p) ≠ 0 := by
  rw [← BigInteger.modPow_total_iff_prime]
  simp only [transcriptSchnorr, fabricMaskSchnorr, hp, BigInteger.modPow_eq_val hy,
    modInverse_pow hy, Except.ok_bind, Except.bind_eq_ok, Except.pure_eq_ok]
  constructor
  · rintro ⟨_, _, ⟨gPowr, hgPowr, -⟩, -⟩
    exact ⟨gPowr, hgPowr⟩
  · rintro ⟨gPowr, hgPowr⟩
    exact ⟨_, _, ⟨gPowr, hgPowr, rfl⟩, rfl⟩

/-- The first number of the ciphertext has to be inverted too. -/
theorem transcriptCCE_total_iff (hp : k.p = p) (hy : (k.publicKey : ZMod p) ≠ 0)
    (hquotient : ∃ M, BigInteger.ofBytes res.M = .ok M ∧ BigInteger.divide res.v M = .ok q)
    (hq : (q : ZMod p) ≠ 0) :
    (∃ t, transcriptCCE c r res k = .ok t) ↔
      (0 ≤ r ∨ (k.g : ZMod p) ≠ 0) ∧ (c = 0 ∨ (res.u : ZMod p) ≠ 0) := by
  obtain ⟨M, hM, hdiv⟩ := hquotient
  rw [← BigInteger.modPow_total_iff_prime, ← BigInteger.modInverse_modPow_total_iff]
  simp only [transcriptCCE, fabricMaskCCE, hp, BigInteger.modPow_eq_val hy, hM, hdiv,
    BigInteger.modPow_eq_val hq,
    modInverse_pow hq, Except.ok_bind, Except.bind_eq_ok, Except.pure_eq_ok]
  constructor
  · rintro ⟨_, _, ⟨gPowr, hgPowr, uPowc, huPowc, modInv, hmodInv, -⟩, -⟩
    exact ⟨⟨gPowr, hgPowr⟩, uPowc, huPowc, modInv, hmodInv⟩
  · rintro ⟨⟨gPowr, hgPowr⟩, uPowc, huPowc, modInv, hmodInv⟩
    exact ⟨_, _, ⟨gPowr, hgPowr, uPowc, huPowc, modInv, hmodInv, rfl⟩, rfl⟩

end Fabric

/-! ## Ciphertexts that the code makes -/

/-- The second number is kept unreduced, so that the content divides it. -/
theorem ElGamal.encryptForContract_powers {p : ℕ} [Fact p.Prime] {k : ElGamalKey} (hp : k.p = p)
    {data : List UInt8} {n : Nat} {e : ElGamalEncrypt} (h : encryptForContract k data n = .ok e) :
    ∃ M q : Int, BigInteger.ofBytes data = .ok M ∧ (e.u : ZMod p) = (k.g : ZMod p) ^ (n : Int) ∧
      (q : ZMod p) = (k.publicKey : ZMod p) ^ (n : Int) ∧ e.v = q * M := by
  simp only [encryptForContract, hp,
    BigInteger.modPow_eq_val_of_nonneg (.inr (Int.natCast_nonneg n)),
    Except.ok_bind, Except.bind_eq_ok] at h
  obtain ⟨-, -, M, hM, h⟩ := h
  obtain rfl := Except.ok.inj h
  exact ⟨M, _, hM, BigInteger.cast_val _, BigInteger.cast_val _, rfl⟩

/-! ## Trent's responses -/

namespace Responses

variable {p : ℕ} [Fact p.Prime] {k : ElGamalKey} {res : ResEncrypt} {q : Int}

/-- A CCD response proves that the second number is the content times a power of the first. -/
theorem verifiesCCD_of_accepts (hp : k.p = p)
    (hquotient : ∃ M, BigInteger.ofBytes res.M = .ok M ∧ BigInteger.divide res.v M = .ok q)
    (hq : (q : ZMod p) ≠ 0) {r : Responses} {aBis : Int} (haBis : r.masks.aBis = some aBis)
    (hu : (res.u : ZMod p) ≠ 0 ∨ 0 ≤ r.response) (hfirst : r.schnorrEquation k = .ok true)
    (hsecond : Accepts (res.u : ZMod p) q aBis r.challenge r.response) :
    r.verifiesCCD k res = .ok true := by
  rw [Accepts] at hsecond
  simp only [verifiesCCD, hfirst, quotientPower_eq hp hquotient hq haBis, hp,
    BigInteger.modPow_eq_val_of_nonneg hu, hsecond, Except.ok_bind, beq_self_eq_true, if_true]
  rfl

end Responses

namespace Trent

variable {p : ℕ} [Fact p.Prime] {trent : Trent} {res : ResEncrypt} {data : List UInt8}
  {M : Int} {n s : Nat} {e : ElGamalEncrypt} {messageText : String} {r : Responses}

theorem sendResponse_eq (hp : trent.keys.p = p) (res : ResEncrypt) (s : Nat)
    (messageText : String) :
    ∃ a aBis : Int, (a : ZMod p) = (trent.keys.g : ZMod p) ^ (s : Int) ∧
      (aBis : ZMod p) = (res.u : ZMod p) ^ (s : Int) ∧ trent.sendResponse s messageText res = .ok {
        kind := .ccd
        masks := { a, aBis := some aBis }
        challenge := trent.hash (messageText ++ BigInteger.text a)
        response := trent.keys.privateKey *
          trent.hash (messageText ++ BigInteger.text a) + s } := by
  refine ⟨_, _, BigInteger.cast_val _, BigInteger.cast_val _, ?_⟩
  simp only [sendResponse, sendMasks, hp,
    BigInteger.modPow_eq_val_of_nonneg (.inr (Int.natCast_nonneg s)), Except.ok_bind]
  rfl

/-- The response to a mask has an exponent that is not negative if the base could be zero. -/
theorem base_or_response {b : ZMod p} (hb : b ^ trent.keys.privateKey ≠ 0) (c : Int) (s : Nat) :
    b ≠ 0 ∨ 0 ≤ trent.keys.privateKey * c + s := by
  refine (SigmaProtocol.ne_zero_or_eq_zero hb).imp_right fun hx => ?_
  rw [hx, zero_mul, zero_add]
  exact Int.natCast_nonneg s

/-- The first test only depends on the keys. -/
theorem sendResponse_schnorrEquation (hp : trent.keys.p = p)
    (hy : (trent.keys.publicKey : ZMod p) ≠ 0)
    (hpair : (trent.keys.publicKey : ZMod p) = (trent.keys.g : ZMod p) ^ trent.keys.privateKey)
    (hr : trent.sendResponse s messageText res = .ok r) :
    r.schnorrEquation trent.getKey = .ok true := by
  obtain ⟨a, aBis, ha, -, hsend⟩ := sendResponse_eq hp res s messageText
  obtain rfl := Except.ok.inj (hsend.symm.trans hr)
  have haccepts : Accepts (trent.keys.g : ZMod p) trent.keys.publicKey a
      (trent.hash (messageText ++ BigInteger.text a))
      (trent.keys.privateKey * trent.hash (messageText ++ BigInteger.text a) + s) := by
    rw [hpair, ha]
    exact SigmaProtocol.accepts_honest_of_public (hpair ▸ hy) _ _
  rw [getKey, Responses.schnorrEquation_eq_of hp (base_or_response (hpair ▸ hy) _ s) hy]
  exact congrArg Except.ok (decide_eq_true haccepts)

/-- The private key is the exponent of the public key, and of what the content is multiplied
with. -/
theorem sendResponse_accepted (hp : trent.keys.p = p) (hy : (trent.keys.publicKey : ZMod p) ≠ 0)
    (hpair : (trent.keys.publicKey : ZMod p) = (trent.keys.g : ZMod p) ^ trent.keys.privateKey)
    (hM : BigInteger.ofBytes data = .ok M) (hne : M ≠ 0)
    (he : ElGamal.encryptForContract trent.getKey data n = .ok e)
    (hr : trent.sendResponse s messageText { u := e.u, v := e.v, M := data } = .ok r) :
    r.kind = .ccd ∧ r.verifies trent.getKey { u := e.u, v := e.v, M := data } = .ok true := by
  obtain ⟨M', q, hM', hu, hq, hv⟩ := ElGamal.encryptForContract_powers hp he
  obtain rfl : M' = M := Except.ok.inj (hM'.symm.trans hM)
  have hfirst := sendResponse_schnorrEquation hp hy hpair hr
  obtain ⟨a, aBis, -, haBis, hsend⟩ :=
    sendResponse_eq hp { u := e.u, v := e.v, M := data } s messageText
  obtain rfl := Except.ok.inj (hsend.symm.trans hr)
  have hq' : (q : ZMod p) ≠ 0 := by
    rw [hq]
    exact zpow_ne_zero _ hy
  have hpower : (q : ZMod p) = (e.u : ZMod p) ^ trent.keys.privateKey := by
    rw [hq, hu]
    exact (congrArg (· ^ (n : Int)) hpair).trans (zpow_comm _ _ _)
  have hsecond : Accepts (e.u : ZMod p) q aBis (trent.hash (messageText ++ BigInteger.text a))
      (trent.keys.privateKey * trent.hash (messageText ++ BigInteger.text a) + s) := by
    rw [hpower, haBis]
    exact SigmaProtocol.accepts_honest_of_public (hpower ▸ hq') _ _
  exact ⟨rfl, Responses.verifiesCCD_of_accepts hp (ResEncrypt.divide_of_product ⟨M', hM, hne,
    hv⟩) hq' rfl (base_or_response (hpower ▸ hq') _ s) hfirst hsecond⟩

end Trent

/-! ## All of them -/

namespace Responses

variable {p : ℕ} [Fact p.Prime] {k : ElGamalKey}

/-- What Fabric builds for any challenge and response is accepted, and so is what Trent answers; the
condition of each equivalence is when Fabric's arithmetic does not throw. -/
theorem transcripts_verify (hp : k.p = p) (hy : (k.publicKey : ZMod p) ≠ 0) :
    (∀ c r : Int,
      ((∃ t, Fabric.transcriptSchnorr c r k = .ok t) ↔ 0 ≤ r ∨ (k.g : ZMod p) ≠ 0) ∧
      ∀ t, Fabric.transcriptSchnorr c r k = .ok t →
        ∀ res, t.kind = .schnorr ∧ t.verifies k res = .ok true) ∧
    ∀ (data : List UInt8) (M : Int) (n : Nat)
      (e : ElGamalEncrypt), BigInteger.ofBytes data = .ok M → M ≠ 0 →
      ElGamal.encryptForContract k data n = .ok e →
        (∀ c r : Int,
          ((∃ t, Fabric.transcriptCCE c r { u := e.u, v := e.v, M := data } k = .ok t) ↔
            (0 ≤ r ∨ (k.g : ZMod p) ≠ 0) ∧ (c = 0 ∨ (e.u : ZMod p) ≠ 0)) ∧
          ∀ t, Fabric.transcriptCCE c r { u := e.u, v := e.v, M := data } k = .ok t →
            t.kind = .cce ∧ t.verifies k { u := e.u, v := e.v, M := data } = .ok true) ∧
        ∀ trent : Trent, trent.getKey = k →
          (k.publicKey : ZMod p) = (k.g : ZMod p) ^ trent.keys.privateKey →
          ∀ (s : Nat) (messageText : String),
            ∃ t, trent.sendResponse s messageText { u := e.u, v := e.v, M := data } = .ok t ∧
              t.kind = .ccd ∧ t.verifies k { u := e.u, v := e.v, M := data } = .ok true := by
  refine ⟨fun c r => ⟨Fabric.transcriptSchnorr_total_iff hp hy,
    fun t => Fabric.transcriptSchnorr_verifies⟩, ?_⟩
  intro data M n e hM hne he
  obtain ⟨M', q, hM', -, hq, hv⟩ := ElGamal.encryptForContract_powers hp he
  obtain rfl : M' = M := Except.ok.inj (hM'.symm.trans hM)
  have hq' : (q : ZMod p) ≠ 0 := by
    rw [hq]
    exact zpow_ne_zero _ hy
  have hquotient := @ResEncrypt.divide_of_product { u := e.u, v := e.v, M := data } q ⟨M',
    hM, hne, hv⟩
  refine ⟨fun c r => ⟨Fabric.transcriptCCE_total_iff hp hy hquotient hq',
    fun t => Fabric.transcriptCCE_verifies⟩, ?_⟩
  rintro trent rfl hpair s messageText
  have hpos : 0 < trent.keys.p := by
    rw [show trent.keys.p = p from hp]
    exact BigInteger.prime_pos
  obtain ⟨t, ht⟩ := trent.sendResponse_total hpos s messageText { u := e.u, v := e.v, M := data }
  exact ⟨t, ht, Trent.sendResponse_accepted hp hy hpair hM hne he ht⟩

/-- Around the ciphertext of three, with a negative challenge and a negative response. -/
theorem transcripts_verify_eleven :
    (∃ t, Fabric.transcriptSchnorr (-3) (-2) Sample.smallTrent.getKey = .ok t ∧
      t.verifies Sample.smallTrent.getKey (Sample.ofThree 6) = .ok true) ∧
    (∃ t, Fabric.transcriptCCE (-3) (-2) (Sample.ofThree 6) Sample.smallTrent.getKey = .ok t ∧
      t.verifies Sample.smallTrent.getKey (Sample.ofThree 6) = .ok true) ∧
    ∃ t, Sample.smallTrent.sendResponse 4 "offer" (Sample.ofThree 6) = .ok t ∧
      t.verifies Sample.smallTrent.getKey (Sample.ofThree 6) = .ok true := by
  obtain ⟨hschnorr, hrest⟩ := @transcripts_verify 11 _ Sample.smallTrent.getKey rfl (by decide)
  obtain ⟨hcce, hccd⟩ := hrest [3] 3 1 { u := 2, v := 6, k := 1 } (by decide) (by
    decide) (by decide)
  obtain ⟨t, ht⟩ := (hschnorr (-3) (-2)).1.mpr (.inr (by decide))
  obtain ⟨t', ht'⟩ := (hcce (-3) (-2)).1.mpr ⟨.inr (by decide), .inr (by decide)⟩
  obtain ⟨t'', ht'', -, haccepted⟩ := hccd Sample.smallTrent rfl (by decide) 4 "offer"
  exact ⟨⟨t, ht, ((hschnorr _ _).2 t ht _).2⟩, ⟨t', ht', ((hcce _ _).2 t' ht').2⟩, t'',
    ht'', haccepted⟩

end Responses

end Sxp
