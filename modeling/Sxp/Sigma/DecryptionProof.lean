-- SUMMARY: Trent's proof of a decryption, checked against a message: it is bound to the array object the message is in, not to its bytes.
import Sxp.Java.Json
import Sxp.Sigma.Transcripts

/-!
# Decryption proofs

The challenge of a CCD response is the hash of `message.toString()` and of the mask. For an
array that text is the name of its class and its identity hash code, which two arrays with the
same bytes need not share.
-/

namespace Sxp

open SigmaProtocol (Accepts)

/-! ## Arrays as objects -/

/-- A `byte[]` object: its bytes, and its identity hash code. -/
structure JByteArray where
  bytes : List UInt8
  identityHashCode : Nat
deriving Repr, DecidableEq

namespace JByteArray

/-- `array.toString()`. -/
def toString (array : JByteArray) : String :=
  "[B@" ++ String.ofList (Nat.toDigits 16 array.identityHashCode)

/-- Arrays have the same text exactly if they have the same identity hash code. -/
theorem toString_eq_iff {m m' : JByteArray} : m'.toString = m.toString ↔
    m'.identityHashCode = m.identityHashCode := by
  constructor
  · intro h
    rw [toString, toString, ← String.toList_inj, String.toList_append, String.toList_append,
      List.append_cancel_left_eq, String.toList_ofList, String.toList_ofList] at h
    have hread := BigInteger.readHex_toDigits m'.identityHashCode
    rw [h, BigInteger.readHex_toDigits] at hread
    exact (Option.some.inj hread).symm
  · intro h
    rw [toString, h, toString]

end JByteArray

/-! ## Responses that are bound to a message -/

namespace Responses

/-- `ResponsesCCD.Verifies(tKeys, res, message)`. -/
def verifiesMessage (hash : String → Int) (r : Responses) (tKeys : ElGamalKey) (res : ResEncrypt)
    (message : JByteArray) : Except JavaException Bool :=
  let c := hash (message.toString ++ BigInteger.text r.masks.a)
  if r.challenge == c then r.verifiesCCD tKeys res else .ok false

/-- The second number cannot be divided by a content of zero. -/
theorem quotientPower_zero {r : Responses} {res : ResEncrypt} {key : ElGamalKey} {x : Int}
    (hM : BigInteger.ofBytes res.M = .ok 0) : r.quotientPower key res ≠ .ok x := by
  intro h
  simp only [quotientPower, hM, BigInteger.divide, Except.ok_bind] at h
  cases h

end Responses

namespace Trent

/-- `SendResponse(resEncrypt, m)` for the array `m`. -/
def sendResponseFor (trent : Trent) (s : Nat) (m : JByteArray) (res : ResEncrypt) :
    Except JavaException Responses :=
  trent.sendResponse s m.toString res

/-! ## Which messages a response is accepted for -/

variable {p : ℕ} [Fact p.Prime] {trent : Trent} {data : List UInt8} {M : Int} {n s : Nat}
  {e : ElGamalEncrypt} {r : Responses} {m m' : JByteArray}

/-- The response is accepted for the arrays with the text of the one it was made for. A content of
zero cannot be divided by. -/
theorem verifiesMessage_eq (hkeys : trent.keys.Valid p) (hhash : Function.Injective trent.hash)
    (hM : BigInteger.ofBytes data = .ok M)
    (he : ElGamal.encryptForContract trent.getKey data n = .ok e)
    (hr : trent.sendResponseFor s m { u := e.u, v := e.v, M := data } = .ok r) :
    (m'.identityHashCode ≠ m.identityHashCode →
      r.verifiesMessage trent.hash trent.getKey { u := e.u, v := e.v, M := data } m' = .ok false) ∧
    (m'.identityHashCode = m.identityHashCode → M ≠ 0 →
      r.verifiesMessage trent.hash trent.getKey { u := e.u, v := e.v, M := data } m' = .ok true) ∧
    (m'.identityHashCode = m.identityHashCode → M = 0 →
      ∀ b, r.verifiesMessage trent.hash trent.getKey { u := e.u, v := e.v, M := data } m' ≠
      .ok b) := by
  have hfirst := sendResponse_schnorrEquation hkeys.modulus hkeys.inGroup.publicKey hkeys.pair hr
  obtain ⟨a, aBis, -, -, hsend⟩ :=
    @sendResponse_eq p _ trent hkeys.modulus { u := e.u, v := e.v, M := data } s m.toString
  obtain rfl := Except.ok.inj (hsend.symm.trans hr)
  have hchallenge : (trent.hash (m.toString ++ BigInteger.text a) ==
      trent.hash (m'.toString ++ BigInteger.text a)) =
      decide (m'.identityHashCode = m.identityHashCode) := by
    rw [Bool.eq_iff_iff, beq_iff_eq, decide_eq_true_iff, hhash.eq_iff,
      String.append_left_inj, eq_comm, JByteArray.toString_eq_iff]
  refine ⟨fun hne => ?_, fun heq hne => ?_, fun heq hzero b => ?_⟩
  · simp only [Responses.verifiesMessage, hchallenge, decide_eq_false hne]
    rfl
  · simp only [Responses.verifiesMessage, hchallenge, decide_eq_true heq, if_true]
    exact (sendResponse_accepted hkeys.modulus hkeys.inGroup.publicKey hkeys.pair hM hne he hr).2
  · simp only [Responses.verifiesMessage, hchallenge, decide_eq_true heq, if_true,
      Responses.verifiesCCD, hfirst, Except.ok_bind]
    intro h
    rw [Except.bind_eq_ok] at h
    obtain ⟨_, -, h⟩ := h
    rw [Except.bind_eq_ok] at h
    obtain ⟨_, hquotient, -⟩ := h
    exact Responses.quotientPower_zero (hM.trans (congrArg Except.ok hzero)) hquotient

/-- Verification goes by the content of the arrays exactly if their identity hash codes do, and the
content of the ciphertext is not zero when they are the same. -/
theorem verifiesMessage_correct_iff (hkeys : trent.keys.Valid p)
    (hhash : Function.Injective trent.hash) (hM : BigInteger.ofBytes data = .ok M)
    (he : ElGamal.encryptForContract trent.getKey data n = .ok e)
    (hr : trent.sendResponseFor s m { u := e.u, v := e.v, M := data } = .ok r) :
    ((m'.bytes = m.bytes →
        r.verifiesMessage trent.hash trent.getKey { u := e.u, v := e.v, M := data } m' = .ok true) ∧
      (m'.bytes ≠ m.bytes →
        r.verifiesMessage trent.hash trent.getKey { u := e.u, v := e.v, M := data } m' =
        .ok false)) ↔
    ((m'.bytes = m.bytes ↔ m'.identityHashCode = m.identityHashCode) ∧
      (m'.bytes = m.bytes → M ≠ 0)) := by
  obtain ⟨hother, hsame, hzero⟩ :=
    @verifiesMessage_eq p _ trent data M n s e r m m' hkeys hhash hM he hr
  constructor
  · rintro ⟨htrue, hfalse⟩
    refine ⟨⟨fun hbytes => ?_, fun hcodes => ?_⟩, fun hbytes hM0 => ?_⟩
    · by_contra hcodes
      rw [htrue hbytes] at hother
      exact Bool.false_ne_true (Except.ok.inj (hother hcodes).symm)
    · by_contra hbytes
      rcases eq_or_ne M 0 with hM0 | hM0
      · exact hzero hcodes hM0 false (hfalse hbytes)
      · rw [hfalse hbytes] at hsame
        exact Bool.false_ne_true (Except.ok.inj (hsame hcodes hM0))
    · rcases eq_or_ne m'.identityHashCode m.identityHashCode with hcodes | hcodes
      · exact hzero hcodes hM0 true (htrue hbytes)
      · exact absurd (Except.ok.inj ((hother hcodes).symm.trans (htrue hbytes))) Bool.false_ne_true
  · rintro ⟨hiff, hne⟩
    exact ⟨fun hbytes => hsame (hiff.mp hbytes) (hne hbytes),
      fun hbytes => hother (mt hiff.mpr hbytes)⟩

end Trent

namespace Sample

/-- The small Trent with a hash that no two texts share. -/
def hashingTrent : Trent :=
  { smallTrent with hash := fun text => (Encodable.encode (text.toList.map Char.toNat) : ℕ) }

theorem hashingTrent_injective : Function.Injective hashingTrent.hash := by
  intro text text' h
  have hcodes : text.toList.map Char.toNat = text'.toList.map Char.toNat :=
    Encodable.encode_injective (Int.ofNat.inj h)
  exact String.toList_inj.mp
    (List.map_injective_iff.mpr (fun _ _ hcode => Char.toNat_inj.mp hcode) hcodes)

/-- An array with the content five, at an address. -/
def fiveAt (identityHashCode : Nat) : JByteArray := { bytes := [5], identityHashCode }

/-- The response for an array, with the exponent one. -/
def ccdResponse (array : JByteArray) : Responses where
  kind := .ccd
  masks := { a := 2, aBis := some 2 }
  challenge := hashingTrent.hash (array.toString ++ BigInteger.text 2)
  response := hashingTrent.hash (array.toString ++ BigInteger.text 2) + 1

theorem hashingTrent_valid : hashingTrent.keys.Valid 11 := smallTrent_valid

theorem encrypt_three :
    ElGamal.encryptForContract hashingTrent.getKey [3] 1 = .ok { u := 2, v := 6, k := 1 } := by
  decide

theorem sendResponseFor_array (array : JByteArray) :
    hashingTrent.sendResponseFor 1 array (ofThree 6) = .ok (ccdResponse array) := by
  have hmasks : hashingTrent.sendMasks 1 (ofThree 6) = .ok { a := 2, aBis := some 2 } := by decide
  rw [Trent.sendResponseFor, Trent.sendResponse, hmasks, Except.ok_bind]
  simp only [Trent.sendChallenge, Trent.sendAnswer, ccdResponse]
  rw [show hashingTrent.keys.privateKey = 1 from rfl, one_mul]
  rfl

end Sample

namespace Trent

theorem verifiesMessage_correct_iff_five :
    (([5] = [(5 : UInt8)] →
        (Sample.ccdResponse (Sample.fiveAt 1)).verifiesMessage Sample.hashingTrent.hash
          Sample.hashingTrent.getKey (Sample.ofThree 6) (Sample.fiveAt 1) = .ok true) ∧
      ([5] ≠ [(5 : UInt8)] →
        (Sample.ccdResponse (Sample.fiveAt 1)).verifiesMessage Sample.hashingTrent.hash
          Sample.hashingTrent.getKey (Sample.ofThree 6) (Sample.fiveAt 1) = .ok false)) ↔
    (([5] = [(5 : UInt8)] ↔ 1 = 1) ∧ ([5] = [(5 : UInt8)] → (3 : Int) ≠ 0)) :=
  @verifiesMessage_correct_iff 11 _ Sample.hashingTrent [3] 3 1 1 { u := 2, v := 6, k := 1 }
    (Sample.ccdResponse (Sample.fiveAt 1)) (Sample.fiveAt 1)
    (Sample.fiveAt 1) Sample.hashingTrent_valid
    Sample.hashingTrent_injective (by decide) Sample.encrypt_three (Sample.sendResponseFor_array _)

/-- The same byte in another array is not what the response was made for. -/
theorem copy_not_verified :
    ¬ ∀ r, Sample.hashingTrent.sendResponseFor 1 (Sample.fiveAt 1) (Sample.ofThree 6) = .ok r →
      (Sample.fiveAt 2).bytes = (Sample.fiveAt 1).bytes →
        r.verifiesMessage Sample.hashingTrent.hash Sample.hashingTrent.getKey (Sample.ofThree 6)
          (Sample.fiveAt 2) = .ok true := by
  intro h
  have htrue := h _ (Sample.sendResponseFor_array _) rfl
  obtain ⟨hother, -⟩ := @verifiesMessage_eq 11 _ Sample.hashingTrent [3] 3 1 1
    { u := 2, v := 6, k := 1 }
    (Sample.ccdResponse (Sample.fiveAt 1)) (Sample.fiveAt 1)
    (Sample.fiveAt 2) Sample.hashingTrent_valid
    Sample.hashingTrent_injective (by decide) Sample.encrypt_three (Sample.sendResponseFor_array _)
  exact Bool.false_ne_true (Except.ok.inj ((hother (by decide)).symm.trans htrue))

end Trent

end Sxp
