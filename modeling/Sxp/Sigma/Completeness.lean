-- SUMMARY: Signing and promising are complete: what PCS and SigmaSigner make passes verification, for all random choices.
import Sxp.Base.Primality
import Sxp.Sigma.Equations
import Sxp.Sigma.Identification
import Sxp.Sigma.Pcs

/-!
# Completeness

Honest responses pass because the sender knows two exponents, of its key and of its
encryption; simulated ones because their masks were made to fit. What is left is the
bookkeeping: the exponents kept with the masks, the keys kept with the responses, and
the challenges, which may be negative.
-/

namespace Sxp

/-! ## Exclusive or -/

namespace BigInteger

theorem xor_comm (a b : Int) : Int.xor a b = Int.xor b a := by
  cases a <;> cases b <;> simp [Int.xor, Nat.xor_comm]

theorem xor_assoc (a b c : Int) : Int.xor (Int.xor a b) c = Int.xor a (Int.xor b c) := by
  cases a <;> cases b <;> cases c <;> simp [Int.xor, Nat.xor_assoc]

theorem xor_self (a : Int) : Int.xor a a = 0 := by
  cases a <;> simp [Int.xor]

instance xor_commutative : Std.Commutative Int.xor := ⟨xor_comm⟩
instance xor_associative : Std.Associative Int.xor := ⟨xor_assoc⟩

/-- The first of four challenges is what is missing to the value `c`. -/
theorem xor_missing (c c₁ c₂ c₃ : Int) :
    [Int.xor c (Int.xor c₂ (Int.xor c₁ c₃)), c₁, c₂, c₃].foldl Int.xor 0 = c := by
  have hrest : Int.xor (Int.xor c₁ (Int.xor c₂ c₃)) (Int.xor c₁ (Int.xor c₂ c₃)) = 0 :=
    xor_self _
  calc [Int.xor c (Int.xor c₂ (Int.xor c₁ c₃)), c₁, c₂, c₃].foldl Int.xor 0
      = Int.xor (Int.xor 0 c)
          (Int.xor (Int.xor c₁ (Int.xor c₂ c₃)) (Int.xor c₁ (Int.xor c₂ c₃))) := by
        simp only [List.foldl_cons, List.foldl_nil]
        ac_rfl
    _ = c := by rw [hrest, xor_zero_left, xor_comm, xor_zero_left]

end BigInteger

/-! ## The sender -/

namespace Sender

variable (hash : String → Int) {p : ℕ} [Fact p.Prime]

open BigInteger (modPow_eq_val cast_val)
open SigmaProtocol (Accepts)

/-- The sender's keys are a pair. -/
structure HasKeys (sender : Sender) (p : ℕ) [Fact p.Prime] : Prop where
  inGroup : sender.keys.InGroup p
  pair : (sender.keys.publicKey : ZMod p) = (sender.keys.g : ZMod p) ^ sender.keys.privateKey

/-- The sender knows the exponent of the ciphertext `res`, made with Trent's key `T`. -/
structure HasEncrypted (sender : Sender) (p : ℕ) [Fact p.Prime] (T : ElGamalKey)
    (res : ResEncrypt) (q : Int) : Prop where
  divides : res.Divides p q
  exponent : ∃ encrypt, sender.encrypt = some encrypt ∧
    (res.u : ZMod p) = (T.g : ZMod p) ^ encrypt.k ∧
    (q : ZMod p) = (T.publicKey : ZMod p) ^ encrypt.k

/-- The power `b ^ s` as it is computed. -/
def power (b : ZMod p) (s : Int) : Int := (((b ^ s).val : ℕ) : Int)

@[simp] theorem cast_power (b : ZMod p) (s : Int) : ((power b s : Int) : ZMod p) = b ^ s :=
  cast_val _

theorem sendMasksCCE_eq (sender : Sender) {T : ElGamalKey} (hT : T.InGroup p) (s : Nat) :
    let mask : Masks :=
      { a := power (T.g : ZMod p) s, aBis := some (power (T.publicKey : ZMod p) s) }
    sender.sendMasksCCE T s = .ok (mask, sender.remember mask s) := by
  simp only [sendMasksCCE, hT.modulus, Utils.rand_eq, modPow_eq_val hT.generator,
    modPow_eq_val hT.publicKey, Except.ok_bind]
  rfl

/-- An honest CCE response. The sender remembers one more mask. -/
theorem sendResponseCCE_accepted {sender : Sender} {T : ElGamalKey} {res : ResEncrypt} {q : Int}
    (hT : T.InGroup p) (h : sender.HasEncrypted p T res q) (m : String) (s : Nat) :
    ∃ r, sender.sendResponseCCE hash m T s = .ok (r, sender.remember r.masks s) ∧
      r.kind = .cce ∧ r.verifies T res = .ok true := by
  obtain ⟨encrypt, hencrypt, hu, hq⟩ := h.exponent
  let mask : Masks :=
    { a := power (T.g : ZMod p) s, aBis := some (power (T.publicKey : ZMod p) s) }
  let c := sendChallenge hash mask m
  refine ⟨⟨.cce, mask, c, encrypt.k * c + s⟩, ?_, rfl, ?_⟩
  · simp only [sendResponseCCE, sendMasksCCE_eq sender hT, Except.ok_bind, responseCCE,
      remember_encrypt, hencrypt, exponentOf_remember]
    rfl
  · have hfirst : Accepts (T.g : ZMod p) res.u mask.a c (encrypt.k * c + s) := by
      simp only [mask, cast_power, hu]
      exact SigmaProtocol.accepts_honest hT.generator encrypt.k s c
    have hsecond : Accepts (T.publicKey : ZMod p) q (power (T.publicKey : ZMod p) s) c
        (encrypt.k * c + s) := by
      simp only [cast_power, hq]
      exact SigmaProtocol.accepts_honest hT.publicKey encrypt.k s c
    rw [Responses.verifies, Responses.verifiesCCE_eq hT h.divides rfl, decide_eq_true hfirst,
      decide_eq_true hsecond]
    rfl

theorem sendMasksSchnorr_eq {sender : Sender} (h : sender.HasKeys p) (s : Nat) :
    let mask : Masks := { a := power (sender.keys.g : ZMod p) s, aBis := none }
    sender.sendMasksSchnorr s = .ok (mask, sender.remember mask s) := by
  simp only [sendMasksSchnorr, h.inGroup.modulus, Utils.rand_eq,
    modPow_eq_val h.inGroup.generator, Except.ok_bind]
  rfl

/-- An honest Schnorr response, whatever the challenge for its mask will be. -/
theorem sendResponseSchnorr_accepted {sender : Sender} (h : sender.HasKeys p) (s : Nat)
    (res : ResEncrypt) :
    ∃ mask, sender.sendMasksSchnorr s = .ok (mask, sender.remember mask s) ∧
      ∀ challenge, ∃ r, (sender.remember mask s).sendResponseSchnorr mask challenge = .ok r ∧
        r.kind = .schnorr ∧ r.challenge = challenge ∧
        r.verifies sender.publicKeys res = .ok true := by
  let mask : Masks := { a := power (sender.keys.g : ZMod p) s, aBis := none }
  refine ⟨mask, sendMasksSchnorr_eq h s, fun challenge =>
    ⟨⟨.schnorr, mask, challenge, sender.keys.privateKey * challenge + s⟩, ?_, rfl, rfl, ?_⟩⟩
  · simp only [sendResponseSchnorr, exponentOf_remember, Except.ok_bind]
    rfl
  · have haccepted : Accepts (sender.keys.g : ZMod p) sender.keys.publicKey mask.a challenge
        (sender.keys.privateKey * challenge + s) := by
      simp only [mask, cast_power, h.pair]
      exact SigmaProtocol.accepts_honest h.inGroup.generator _ _ _
    rw [Responses.verifies, publicKeys, Responses.schnorrEquation_eq h.inGroup,
      decide_eq_true haccepted]

theorem encryptForContract_eq {T : ElGamalKey} (hT : T.InGroup p) {k : ElGamalKey}
    {id : List UInt8} (hid : getIdentificationData k = .ok id) (hlt : BigInteger.magnitude id < p)
    (n : Nat) :
    ElGamal.encryptForContract T id n = .ok {
      u := power (T.g : ZMod p) n
      v := power (T.publicKey : ZMod p) n * BigInteger.magnitude id
      k := n } := by
  have hcheck : ElGamalEngineK.checkInput T.p id = .ok () :=
    ElGamalEngineK.checkInput_identification hid (by rw [hT.modulus]; exact hlt)
  rw [hT.modulus] at hcheck
  simp only [ElGamal.encryptForContract, hT.modulus, hcheck, (identification_eq hid).2,
    modPow_eq_val hT.generator, modPow_eq_val hT.publicKey, Except.ok_bind]
  rfl

/-- Encrypting identification data that fits the modulus. -/
theorem encryption_identification (sender : Sender) {T : ElGamalKey} (hT : T.InGroup p)
    {k : ElGamalKey} {id : List UInt8} (hid : getIdentificationData k = .ok id)
    (hlt : BigInteger.magnitude id < p) (n : Nat) :
    ∃ res sender' q, sender.encryption id T n = .ok (res, sender') ∧ res.M = id ∧
      sender'.keys = sender.keys ∧ sender'.resEncrypt = some res ∧
      sender'.HasEncrypted p T res q := by
  have hne : BigInteger.magnitude id ≠ 0 := by
    have hpos : (0 : Int) < 2 ^ 997 := by positivity
    exact (hpos.trans_le (le_magnitude hid)).ne'
  let encrypt : ElGamalEncrypt := {
    u := power (T.g : ZMod p) n
    v := power (T.publicKey : ZMod p) n * BigInteger.magnitude id
    k := n }
  let res : ResEncrypt := { u := encrypt.u, v := encrypt.v, M := id }
  refine ⟨res, { sender with encrypt := some encrypt, resEncrypt := some res },
    power (T.publicKey : ZMod p) n, ?_, rfl, rfl, rfl, ?_, encrypt, rfl, ?_, ?_⟩
  · simp only [encryption, encryptForContract_eq hT hid hlt, Except.ok_bind]
    rfl
  · refine ⟨?_, ?_, _, (identification_eq hid).2, hne, rfl⟩
    · rw [show ((res.u : Int) : ZMod p) = _ from cast_power _ _]
      exact zpow_ne_zero _ hT.generator
    · rw [cast_power]
      exact zpow_ne_zero _ hT.publicKey
  · exact cast_power _ _
  · exact cast_power _ _

end Sender

/-! ## Promises -/

namespace PCS

variable (hash : String → Int) {p : ℕ} [Fact p.Prime]

theorem clause_keyOf (res : ResEncrypt) {schnorr cce : Responses}
    (hschnorr : schnorr.kind = .schnorr) (hcce : cce.kind = .cce) (k T : ElGamalKey) :
    (clause res schnorr k cce T).keyOf schnorr = .ok k ∧
      (clause res schnorr k cce T).keyOf cce = .ok T := by
  have hdiff : schnorr ≠ cce := by
    rintro rfl
    rw [hschnorr] at hcce
    cases hcce
  simp [clause, And.keyOf, HashMap.get_put, hdiff]

theorem clause_verifies {res : ResEncrypt} {schnorr cce : Responses} {k T : ElGamalKey}
    (hschnorr : schnorr.kind = .schnorr) (hcce : cce.kind = .cce)
    (hschnorrV : schnorr.verifies k res = .ok true) (hcceV : cce.verifies T res = .ok true) :
    (clause res schnorr k cce T).verifies = .ok true := by
  obtain ⟨hkey, hkey'⟩ := clause_keyOf res hschnorr hcce k T
  rw [And.verifies, List.allM_eq_ok_true]
  intro r hr
  rcases List.mem_pair.mp hr with rfl | rfl
  · rw [hkey, Except.ok_bind]
    exact hschnorrV
  · rw [hkey', Except.ok_bind]
    exact hcceV

/-- What `createPcs` makes is accepted on its message, around the ciphertext it was given. -/
theorem createPcs_verifies {pcs : PCS} {res : ResEncrypt} {q : Int} {R : ElGamalKey}
    (hS : pcs.sender.HasKeys p) (hT : pcs.trentK.InGroup p) (hR : R.InGroup p)
    (hres : pcs.res = some res) (hencrypted : pcs.sender.HasEncrypted p pcs.trentK res q)
    (m : String) (coins : PcsCoins) :
    ∃ o pcs' clause, createPcs hash pcs m R coins = .ok (o, pcs') ∧
      o.verifies hash m = .ok true ∧ o.firstClause = .ok clause ∧ clause.resEncrypt = res := by
  obtain ⟨mask2, hmask2, haccepted2⟩ := Fabric.fabricMaskSchnorr_accepted hR res
    coins.schnorrFabric.1 coins.schnorrFabric.2
  obtain ⟨maskCce2, hmaskCce2, hacceptedCce2⟩ := Fabric.fabricMaskCCE_accepted hT
    hencrypted.divides coins.cceFabric.1 coins.cceFabric.2
  obtain ⟨resCce1, hresCce1, hkindCce1, hacceptedCce1⟩ :=
    Sender.sendResponseCCE_accepted hash hT hencrypted m coins.cce
  have hS' : (pcs.sender.remember resCce1.masks coins.cce).HasKeys p := ⟨hS.inGroup, hS.pair⟩
  obtain ⟨mask, hmask, hresponse⟩ := Sender.sendResponseSchnorr_accepted hS' coins.schnorr res
  -- the challenge that completes the others to the hash value
  obtain ⟨resSchnorr1, hresSchnorr1, hkind1, hchallenge1, haccepted1⟩ :=
    hresponse (Int.xor (Sender.sendChallenge hash mask m)
      (Int.xor coins.schnorrFabric.1 (Int.xor resCce1.challenge coins.cceFabric.1)))
  have hschnorr2 : Fabric.sendResponseSchnorrFabric R coins.schnorrFabric.1
      coins.schnorrFabric.2 =
        .ok ⟨.schnorr, mask2, coins.schnorrFabric.1, coins.schnorrFabric.2⟩ := by
    simp only [Fabric.sendResponseSchnorrFabric, hR.modulus, Utils.rand_eq, hmask2, Except.ok_bind]
    rfl
  have hcce2 : Fabric.sendResponseCCEFabric res pcs.trentK coins.cceFabric.1 coins.cceFabric.2 =
      .ok ⟨.cce, maskCce2, coins.cceFabric.1, coins.cceFabric.2⟩ := by
    simp only [Fabric.sendResponseCCEFabric, hT.modulus, Utils.rand_eq, hmaskCce2, Except.ok_bind]
    rfl
  have hgetRes : pcs.getRes = .ok res := by rw [getRes, hres]
  refine ⟨{
    contract := some (getBytes m)
    ands := [clause res resSchnorr1 pcs.sender.publicKeys resCce1 pcs.trentK,
      clause res ⟨.schnorr, mask2, coins.schnorrFabric.1, coins.schnorrFabric.2⟩ R
        ⟨.cce, maskCce2, coins.cceFabric.1, coins.cceFabric.2⟩ pcs.trentK]
    a := mask.a },
    { pcs with
      sender := (pcs.sender.remember resCce1.masks coins.cce).remember mask coins.schnorr },
    clause res resSchnorr1 pcs.sender.publicKeys resCce1 pcs.trentK, ?_, ?_, rfl, rfl⟩
  · simp only [createPcs, hschnorr2, hgetRes, hcce2, hresCce1, hmask, hresSchnorr1, Except.ok_bind]
    rfl
  · rw [Or.verifies_eq_true]
    constructor
    · intro c hc
      rcases List.mem_pair.mp hc with rfl | rfl
      · exact clause_verifies hkind1 hkindCce1 haccepted1 hacceptedCce1
      · exact clause_verifies rfl rfl haccepted2 hacceptedCce2
    · have hxor := BigInteger.xor_missing (Sender.sendChallenge hash mask m) resCce1.challenge
        coins.schnorrFabric.1 coins.cceFabric.1
      rw [Receiver.verifiesChallenges, beq_iff_eq]
      simp only [Or.challenges, clause, List.flatMap_cons, List.flatMap_nil, List.map_cons,
        List.map_nil, List.append_nil, List.cons_append, List.nil_append, hchallenge1]
      exact hxor

end PCS

/-! ## The whole of it -/

/-- The keys of a sender, a receiver and Trent, with a common prime modulus above the sender's
identification. -/
structure KeysFor (p : ℕ) [Fact p.Prime] (S : ElGamalKeyPair) (R T : ElGamalKey) : Prop where
  sender : S.InGroup p
  pair : (S.publicKey : ZMod p) = (S.g : ZMod p) ^ S.privateKey
  receiver : R.InGroup p
  trent : T.InGroup p
  identification : ∃ n, Sender.identification S.toElGamalKey = .ok n ∧ n < p

namespace KeysFor

variable (hash : String → Int) {p : ℕ} [Fact p.Prime] {S : ElGamalKeyPair} {R T : ElGamalKey}

/-- The sender's identification data is below the modulus. -/
theorem exists_data (h : KeysFor p S R T) :
    ∃ id, Sender.getIdentificationData S.toElGamalKey = .ok id ∧ BigInteger.magnitude id < p := by
  obtain ⟨n, hn, hlt⟩ := h.identification
  obtain ⟨id, hid, hofBytes⟩ := Except.bind_eq_ok.mp hn
  rw [(Sender.identification_eq hid).2, Except.ok.injEq] at hofBytes
  exact ⟨id, hid, hofBytes.symm ▸ hlt⟩

/-- A promise with a new ciphertext, which holds the identification of its maker. -/
theorem getPcs_accepted (h : KeysFor p S R T) {pcs : PCS} (hkeys : pcs.sender.keys = S)
    (htrent : pcs.trentK = T) (m : String) (k : Nat) (coins : PcsCoins) :
    ∃ o pcs' clause q, pcs.getPcs hash m R true k coins = .ok (o, pcs') ∧
      o.verifies hash m = .ok true ∧ o.firstClause = .ok clause ∧
      clause.resEncrypt.Divides p q ∧
      Sender.getIdentificationData S.toElGamalKey = .ok clause.resEncrypt.M := by
  subst hkeys htrent
  obtain ⟨id, hid, hlt⟩ := h.exists_data
  obtain ⟨res, sender', q, hencryption, hM, hkeys', -, hencrypted⟩ :=
    Sender.encryption_identification pcs.sender h.trent hid hlt k
  let fresh : PCS := { pcs with sender := sender', res := some res }
  have hS : fresh.sender.HasKeys p := by
    refine ⟨?_, ?_⟩
    · rw [show fresh.sender.keys = pcs.sender.keys from hkeys']
      exact h.sender
    · rw [show fresh.sender.keys = pcs.sender.keys from hkeys']
      exact h.pair
  have hT : fresh.trentK.InGroup p := h.trent
  obtain ⟨o, pcs', clause, hcreate, hverifies, hfirst, hclause⟩ :=
    PCS.createPcs_verifies hash hS hT h.receiver rfl hencrypted m coins
  have hdata : Sender.getIdentificationData pcs.sender.publicKeys = .ok id := hid
  refine ⟨o, pcs', clause, q, ?_, hverifies, hfirst, ?_, ?_⟩
  · simp only [PCS.getPcs, if_true, hdata, hencryption, Except.ok_bind]
    exact hcreate
  · rw [hclause]
    exact hencrypted.divides
  · rw [hclause, hM]
    exact hid

theorem getPcs_verifies (h : KeysFor p S R T) {pcs : PCS} (hkeys : pcs.sender.keys = S)
    (htrent : pcs.trentK = T) (m : String) (k : Nat) (coins : PcsCoins) :
    ∃ o pcs', pcs.getPcs hash m R true k coins = .ok (o, pcs') ∧ o.verifies hash m = .ok true := by
  obtain ⟨o, pcs', _, _, hmade, hverifies, -⟩ :=
    h.getPcs_accepted hash hkeys htrent m k coins
  exact ⟨o, pcs', hmade, hverifies⟩

/-- The identification in a new signature is the one of its signer. -/
theorem matchesReceiver_of_data {id : List UInt8}
    (hid : Sender.getIdentificationData S.toElGamalKey = .ok id) (hlt : BigInteger.magnitude id < p)
    (hT : T.InGroup p) {res : ResEncrypt} (hM : res.M = id) {s : SigmaSigner}
    (hs : s.receiverK = none ∨ s.receiverK = some S.toElGamalKey) :
    s.matchesReceiver res T = .ok true := by
  rcases hs with hs | hs
  · simp [SigmaSigner.matchesReceiver, hs]
  · have hmod : BigInteger.mod (BigInteger.magnitude id) T.p = .ok (BigInteger.magnitude id) := by
      rw [hT.modulus, BigInteger.mod_of_pos BigInteger.prime_pos,
        Int.emod_eq_of_lt (BigInteger.magnitude_nonneg id) hlt]
    simp only [SigmaSigner.matchesReceiver, hs, hM, (Sender.identification_eq hid).2,
      (Sender.identification_eq hid).1, hmod, Except.ok_bind, beq_self_eq_true]
    rfl

/-- A signature is accepted by whoever expects its signer and Trent, or does not ask for them. -/
theorem sign_verifies (h : KeysFor p S R T) (m : String) (coins : SignCoins) :
    ∃ s, SigmaSigner.sign hash { trentK := some T, receiverK := some R } S m coins = .ok s ∧
      ∀ signer : SigmaSigner,
        (signer.receiverK = none ∨ signer.receiverK = some S.toElGamalKey) →
        (signer.trentK = none ∨ signer.trentK = some T) →
          signer.verify hash m s = .ok true := by
  obtain ⟨id, hid, hlt⟩ := h.exists_data
  obtain ⟨res, sender, q, hencryption, hM, hkeys, hres, hencrypted⟩ :=
    Sender.encryption_identification { keys := S } h.trent hid hlt coins.k
  obtain ⟨rpcs, hrpcs, -, hrpcsV⟩ :=
    Sender.sendResponseCCE_accepted hash h.trent hencrypted m coins.reveal
  let pcs := PCS.create (sender.remember rpcs.masks coins.reveal) T
  have hS : pcs.sender.HasKeys p := by
    refine ⟨?_, ?_⟩
    · rw [show pcs.sender.keys = S from hkeys]
      exact h.sender
    · rw [show pcs.sender.keys = S from hkeys]
      exact h.pair
  have hencrypted' : pcs.sender.HasEncrypted p T res q := ⟨hencrypted.divides, hencrypted.exponent⟩
  obtain ⟨o, pcs', clause, hcreate, hverifies, hfirst, hclause⟩ :=
    PCS.createPcs_verifies hash hS h.trent h.receiver hres hencrypted' m coins.pcs
  refine ⟨{ pcs := o, rpcs, trentK := T }, ?_, ?_⟩
  · have hgetPcs : pcs.getPcs hash m R false coins.k coins.pcs = .ok (o, pcs') := hcreate
    simp only [SigmaSigner.sign, hid, hencryption, hrpcs, hgetPcs, pcs, Except.ok_bind]
    rfl
  · intro signer hreceiver htrent
    rw [SigmaSigner.verify_eq_true]
    refine ⟨clause, hfirst, ?_, hverifies, ?_, ?_⟩
    · rw [hclause]
      exact matchesReceiver_of_data hid hlt h.trent hM hreceiver
    · rw [hclause]
      exact hrpcsV
    · rcases htrent with hnone | hsome
      · simp [SigmaSigner.matchesTrent, hnone]
      · simp [SigmaSigner.matchesTrent, hsome]

/-- Promising and signing always succeed, and what they make is accepted. -/
theorem signing_complete (h : KeysFor p S R T) (m : String) :
    (∀ pcs : PCS, pcs.sender.keys = S → pcs.trentK = T → ∀ (k : Nat) (coins : PcsCoins),
      ∃ o pcs', pcs.getPcs hash m R true k coins = .ok (o, pcs') ∧
        o.verifies hash m = .ok true) ∧
    ∀ coins : SignCoins,
      ∃ s, SigmaSigner.sign hash { trentK := some T, receiverK := some R } S m coins = .ok s ∧
        ∀ signer : SigmaSigner,
          (signer.receiverK = none ∨ signer.receiverK = some S.toElGamalKey) →
          (signer.trentK = none ∨ signer.trentK = some T) →
            signer.verify hash m s = .ok true :=
  ⟨fun _ hkeys htrent k coins => h.getPcs_verifies hash hkeys htrent m k coins,
    fun coins => h.sign_verifies hash m coins⟩

end KeysFor

/-! ## Three keys of 1004 bits -/

namespace Sample

theorem candidate_prime : (Primality.candidate 13 999).Prime :=
  Primality.prime_of_squares (by decide) 999 7 (by decide +kernel) (by decide +kernel)
    (by decide +kernel)

@[irreducible] def prime : ℕ := Primality.candidate 13 999

theorem prime_prime : prime.Prime := by
  unfold prime
  exact candidate_prime

instance : Fact prime.Prime := ⟨prime_prime⟩

/-- The key with the private key `x`, which is so small that the public key is not reduced. -/
def keysOf (x : ℕ) : ElGamalKeyPair where
  p := prime
  g := 7
  publicKey := 7 ^ x
  privateKey := x

theorem seven_ne_zero : ((7 : Int) : ZMod prime) ≠ 0 := by
  have hsmall : ¬ (prime : Int) ∣ 7 := by decide +kernel
  rwa [Ne, ZMod.intCast_zmod_eq_zero_iff_dvd]

theorem keysOf_inGroup (x : ℕ) : (keysOf x).InGroup prime where
  modulus := rfl
  generator := seven_ne_zero
  publicKey := by
    rw [show (keysOf x).publicKey = (7 : Int) ^ x from rfl, Int.cast_pow]
    exact pow_ne_zero x seven_ne_zero

theorem keysOf_pair (x : ℕ) :
    ((keysOf x).publicKey : ZMod prime) = ((keysOf x).g : ZMod prime) ^ (keysOf x).privateKey := by
  rw [show (keysOf x).publicKey = (7 : Int) ^ x from rfl,
    show (keysOf x).privateKey = (x : Int) from rfl, Int.cast_pow, zpow_natCast]
  rfl

/-- The public keys have enough digits. -/
theorem digits_of {x : ℕ} (hx : x ∈ [200, 201, 203]) :
    ¬ (BigInteger.digits (keysOf x).publicKey).length < 125 := by
  have hall : ∀ x ∈ [200, 201, 203],
      ¬ (BigInteger.digits ((7 : Int) ^ x)).length < 125 := by decide +kernel
  exact hall x hx

theorem keysFor_of {x : ℕ} (hx : x ∈ [200, 201, 203]) (y z : ℕ) :
    KeysFor prime (keysOf x) (keysOf y).toElGamalKey (keysOf z).toElGamalKey where
  sender := keysOf_inGroup x
  pair := keysOf_pair x
  receiver := keysOf_inGroup y
  trent := keysOf_inGroup z
  identification := by
    have hdata : ∃ id, Sender.getIdentificationData (keysOf x).toElGamalKey = .ok id := by
      rw [Sender.getIdentificationData]
      split
      · rename_i hlength
        exact absurd hlength (digits_of hx)
      · exact ⟨_, rfl⟩
    obtain ⟨id, hid⟩ := hdata
    refine ⟨_, (Sender.identification_eq hid).1, ?_⟩
    calc BigInteger.magnitude id < 256 ^ id.length := BigInteger.magnitude_lt id
      _ = 256 ^ 125 := by rw [Sender.getIdentificationData_length hid]
      _ < prime := by decide +kernel

theorem keysFor : KeysFor prime (keysOf 200) (keysOf 201).toElGamalKey (keysOf 202).toElGamalKey :=
  keysFor_of (by decide) 201 202

end Sample

namespace KeysFor

theorem signing_complete_sample :
    let hash := fun text : String => -(text.length : Int)
    ∃ s, SigmaSigner.sign hash
        { trentK := some (Sample.keysOf 202).toElGamalKey
          receiverK := some (Sample.keysOf 201).toElGamalKey } (Sample.keysOf 200) "offer" {} =
          .ok s ∧
      SigmaSigner.verify hash
        { trentK := some (Sample.keysOf 202).toElGamalKey
          receiverK := some (Sample.keysOf 200).toElGamalKey } "offer" s = .ok true := by
  intro hash
  obtain ⟨s, hs, hverify⟩ := (signing_complete hash Sample.keysFor "offer").2 {}
  exact ⟨s, hs, hverify _ (Or.inr rfl) (Or.inr rfl)⟩

end KeysFor

end Sxp
