-- SUMMARY: What can be made from public keys alone: ciphertexts for Trent, promises and signatures in the name of others, all of them accepted.
import Sxp.Contract.Binding
import Sxp.Sigma.Transcripts

/-!
# Outsiders

An outsider has the public keys, and the code's own encryption and simulation. It chooses
every number but one challenge and computes the masks from them.
-/

namespace Sxp

/-- The numbers an outsider chooses; pairs are a challenge and a response. -/
structure OutsiderDraws where
  encrypt : Nat := 1
  a : Int := 1
  schnorr₁ : Int := 1
  cce₁ : Int × Int := (1, 1)
  schnorr₂ : Int × Int := (1, 1)
  cce₂ : Int × Int := (1, 1)
  reveal : Int × Int := (1, 1)
deriving Repr, DecidableEq

/-- What is known of the keys of a signer, a receiver and Trent without any private key. -/
structure PublicKeysFor (p : ℕ) (S R T : ElGamalKey) : Prop where
  sender : S.InGroup p
  receiver : R.InGroup p
  trent : T.InGroup p
  identification : ∃ n, Sender.identification S = .ok n ∧ n < p

theorem KeysFor.publicKeys {p : ℕ} [Fact p.Prime] {S : ElGamalKeyPair} {R T : ElGamalKey}
    (h : KeysFor p S R T) : PublicKeysFor p S.toElGamalKey R T where
  sender := h.sender
  receiver := h.receiver
  trent := h.trent
  identification := h.identification

namespace Outsider

variable (hash : String → Int)

/-- A sender object for somebody else's public key. -/
def publicSender (S : ElGamalKey) : Sender where
  keys := { toElGamalKey := S, privateKey := 0 }

/-- A ciphertext for Trent that identifies `S`. -/
def ciphertext (S T : ElGamalKey) (k : Nat) : Except JavaException ResEncrypt := do
  let id ← Sender.getIdentificationData S
  let (res, _) ← (publicSender S).encryption id T k
  return res

/-- A promise of `S` to `R` around the ciphertext `res`. -/
def promiseAround (S R T : ElGamalKey) (res : ResEncrypt) (m : String) (d : OutsiderDraws) :
    Except JavaException Or :=
  Fabric.assemble hash m d.a res S R T d.cce₁.1 d.schnorr₂.1 d.cce₂.1 d.schnorr₁ d.cce₁.2
    d.schnorr₂.2 d.cce₂.2

def promise (S R T : ElGamalKey) (m : String) (d : OutsiderDraws) : Except JavaException Or := do
  let res ← ciphertext S T d.encrypt
  promiseAround hash S R T res m d

/-- A signature of `S` on `m`. -/
def signature (S R T : ElGamalKey) (m : String) (d : OutsiderDraws) :
    Except JavaException SigmaSignature := do
  let res ← ciphertext S T d.encrypt
  let pcs ← promiseAround hash S R T res m d
  let rpcs ← Fabric.transcriptCCE d.reveal.1 d.reveal.2 res T
  return { pcs, rpcs, trentK := T }

/-! ## The ciphertext -/

variable {p : ℕ} [Fact p.Prime] {S R T : ElGamalKey}

/-- `res` is a ciphertext for `T` that identifies `S`, made with the exponent `k`. -/
structure Identified (p : ℕ) [Fact p.Prime] (S T : ElGamalKey) (k : Nat) (res : ResEncrypt)
    (q : Int) : Prop where
  divides : res.Divides p q
  data : Sender.getIdentificationData S = .ok res.M
  below : BigInteger.magnitude res.M < p
  exponent : (res.u : ZMod p) = (T.g : ZMod p) ^ (k : Int)
  quotient : (q : ZMod p) = (T.publicKey : ZMod p) ^ (k : Int)
  encrypted : ∃ e, ElGamal.encryptForContract T res.M k = .ok e ∧
    res = { u := e.u, v := e.v, M := res.M }

theorem ciphertext_identified (h : PublicKeysFor p S R T) (k : Nat) :
    ∃ res q, ciphertext S T k = .ok res ∧ Identified p S T k res q := by
  obtain ⟨n, hn, hlt⟩ := h.identification
  obtain ⟨id, hid, hofBytes⟩ := Except.bind_eq_ok.mp hn
  rw [(Sender.identification_eq hid).2, Except.ok.injEq] at hofBytes
  have hbelow : BigInteger.magnitude id < p := hofBytes ▸ hlt
  have heq := Sender.encryptForContract_eq h.trent hid hbelow k
  obtain ⟨res, sender', q, hencryption, hM, -, -, hencrypted⟩ :=
    Sender.encryption_identification (publicSender S) h.trent hid hbelow k
  obtain ⟨encrypt, hencrypt, hu, hq⟩ := hencrypted.exponent
  obtain ⟨hres, hk⟩ : res = _ ∧ encrypt.k = k := by
    simp only [Sender.encryption, heq, Except.ok_bind, Except.pure_eq_ok,
      Prod.mk.injEq] at hencryption
    obtain ⟨hres, rfl⟩ := hencryption
    exact ⟨hres.symm, by rw [← Option.some.inj hencrypt]⟩
  refine ⟨res, q, ?_, hencrypted.divides, hM ▸ hid, hM ▸ hbelow, hk ▸ hu, hk ▸ hq, _, hM ▸ heq, ?_⟩
  · simp only [ciphertext, hid, hencryption, Except.ok_bind]
    rfl
  · rw [hres]

/-! ## The promise -/

/-- A promise that the verification accepts and that looks like one of `S` to `R`. -/
structure Resembles (S R T : ElGamalKey) (res : ResEncrypt) (m : String) (o : Or) : Prop where
  verified : o.verifies hash m = .ok true
  shape : ∃ s₁ c₁ s₂ c₂ : Responses, o.ands = [PCS.clause res s₁ S c₁ T, PCS.clause res s₂ R c₂ T] ∧
    s₁.kind = .schnorr ∧ c₁.kind = .cce ∧ s₂.kind = .schnorr ∧ c₂.kind = .cce

theorem Resembles.firstClause {res : ResEncrypt} {m : String} {o : Or}
    (h : Resembles hash S R T res m o) :
    ∃ clause, o.firstClause = .ok clause ∧ clause.resEncrypt = res := by
  obtain ⟨s₁, c₁, s₂, c₂, hands, -⟩ := h.shape
  exact ⟨PCS.clause res s₁ S c₁ T, by rw [Or.firstClause, hands]; rfl, rfl⟩

theorem promiseAround_resembles (h : PublicKeysFor p S R T) {res : ResEncrypt} {q : Int}
    (hres : res.Divides p q) (m : String) (d : OutsiderDraws) :
    ∃ o, promiseAround hash S R T res m d = .ok o ∧ Resembles hash S R T res m o := by
  obtain ⟨o, ho, hverified⟩ := Fabric.assemble_verifies hash h.sender h.receiver h.trent hres m d.a
    d.cce₁.1 d.schnorr₂.1 d.cce₂.1 d.schnorr₁ d.cce₁.2 d.schnorr₂.2 d.cce₂.2
  refine ⟨o, ho, hverified, ?_⟩
  simp only [Fabric.assemble, Except.bind_eq_ok, Except.pure_eq_ok] at ho
  obtain ⟨mask₁, -, maskCce₁, -, mask₂, -, maskCce₂, -, rfl⟩ := ho
  exact ⟨_, _, _, _, rfl, rfl, rfl, rfl, rfl⟩

/-- Promises in the name of `S` need nothing of `S` but its public key. -/
theorem promise_resembles (h : PublicKeysFor p S R T) (m : String) (d : OutsiderDraws) :
    ∃ o res q, promise hash S R T m d = .ok o ∧ Identified p S T d.encrypt res q ∧
      Resembles hash S R T res m o := by
  obtain ⟨res, q, hcipher, hidentified⟩ := ciphertext_identified h d.encrypt
  obtain ⟨o, ho, hresembles⟩ := promiseAround_resembles hash h hidentified.divides m d
  refine ⟨o, res, q, ?_, hidentified, hresembles⟩
  rw [promise, hcipher, Except.ok_bind, ho]

/-! ## The signature -/

theorem transcriptCCE_accepted (hT : T.InGroup p) {res : ResEncrypt} {q : Int}
    (hres : res.Divides p q)
    (c r : Int) : ∃ t, Fabric.transcriptCCE c r res T = .ok t ∧ t.verifies T res = .ok true := by
  obtain ⟨mask, hmask, haccepted⟩ := Fabric.fabricMaskCCE_accepted hT hres c r
  exact ⟨⟨.cce, mask, c, r⟩, by rw [Fabric.transcriptCCE, hmask]; rfl, haccepted⟩

/-- The identification in a ciphertext is that of every key with the same public key. -/
theorem Identified.matchesReceiver {k : Nat} {res : ResEncrypt} {q : Int} (hT : T.InGroup p)
    (h : Identified p S T k res q) {S' : ElGamalKey} (hS' : S'.publicKey = S.publicKey)
    {s : SigmaSigner} (hs : s.receiverK = none ∨ s.receiverK = some S') :
    s.matchesReceiver res T = .ok true := by
  have hdata : Sender.getIdentificationData
      ({ toElGamalKey := S', privateKey := 0 } : ElGamalKeyPair).toElGamalKey = .ok res.M := by
    rw [← h.data]
    simp only [Sender.getIdentificationData, hS']
  exact KeysFor.matchesReceiver_of_data
    (S := { toElGamalKey := S', privateKey := 0 }) hdata h.below hT rfl hs

/-- Signatures in the name of `S` are accepted by whoever expects `S` and Trent. -/
theorem signature_accepted (h : PublicKeysFor p S R T) (m : String) (d : OutsiderDraws) :
    ∃ s, signature hash S R T m d = .ok s ∧
      ∀ signer : SigmaSigner,
        (signer.receiverK = none ∨ ∃ S', signer.receiverK = some S' ∧ S'.publicKey = S.publicKey) →
        (signer.trentK = none ∨ signer.trentK = some T) → signer.verify hash m s = .ok true := by
  obtain ⟨res, q, hcipher, hidentified⟩ := ciphertext_identified h d.encrypt
  obtain ⟨o, ho, hresembles⟩ := promiseAround_resembles hash h hidentified.divides m d
  obtain ⟨rpcs, hrpcs, haccepted⟩ :=
    transcriptCCE_accepted h.trent hidentified.divides d.reveal.1 d.reveal.2
  obtain ⟨clause, hclause, hclauseRes⟩ := hresembles.firstClause
  refine ⟨{ pcs := o, rpcs, trentK := T }, ?_, fun signer hreceiver htrent => ?_⟩
  · simp only [signature, hcipher, ho, hrpcs, Except.ok_bind]
    rfl
  · rw [SigmaSigner.verify_eq_true]
    refine ⟨clause, hclause, ?_, hresembles.verified, ?_, ?_⟩
    · rw [hclauseRes]
      rcases hreceiver with hnone | ⟨S', hsome, hS'⟩
      · exact hidentified.matchesReceiver h.trent rfl (.inl hnone)
      · exact hidentified.matchesReceiver h.trent hS' (.inr hsome)
    · rw [hclauseRes]
      exact haccepted
    · rcases htrent with hnone | hsome
      · simp [SigmaSigner.matchesTrent, hnone]
      · simp [SigmaSigner.matchesTrent, hsome]

end Outsider

end Sxp
