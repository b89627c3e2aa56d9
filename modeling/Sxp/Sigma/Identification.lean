-- SUMMARY: Identification data: which bytes it consists of, the number it stands for, and when two keys share it.
import Sxp.Sigma.Sender
import Mathlib.Tactic.Linarith
import Mathlib.Tactic.NormNum

/-!
# Identification data

The first characters of a public key, read as a number. They are a minus sign or
digits, so the number is positive and has almost as many bits as the bytes allow.
-/

namespace Sxp

namespace BigInteger

theorem mem_digits {n : Int} {c : Char} (h : c ∈ digits n) : c = '-' ∨ c.isDigit = true := by
  cases n with
  | ofNat n => exact Or.inr (Nat.isDigit_of_mem_toDigits (by decide) (by decide) h)
  | negSucc n =>
      rcases List.mem_cons.mp h with rfl | hdigit
      · exact Or.inl rfl
      · exact Or.inr (Nat.isDigit_of_mem_toDigits (by decide) (by decide) hdigit)

theorem magnitude_cons (b : UInt8) (bs : List UInt8) :
    magnitude (b :: bs) = b.toNat * 256 ^ bs.length + magnitude bs := by
  induction bs using List.reverseRecOn with
  | nil => simp [magnitude]
  | append_singleton bs c ih =>
      rw [← List.cons_append, magnitude_append, magnitude_append, ih, List.length_append,
        List.length_singleton, pow_succ]
      ring

/-- Bytes of one length are determined by their number. -/
theorem magnitude_injective {bs cs : List UInt8} (hlength : bs.length = cs.length)
    (h : magnitude bs = magnitude cs) : bs = cs := by
  induction bs generalizing cs with
  | nil => exact (List.eq_nil_of_length_eq_zero hlength.symm).symm
  | cons b bs ih =>
      cases cs with
      | nil => cases hlength
      | cons c cs =>
          have hlen : bs.length = cs.length := Nat.succ.inj hlength
          rw [magnitude_cons, magnitude_cons, hlen] at h
          have hbs := magnitude_lt bs
          have hcs := magnitude_lt cs
          rw [hlen] at hbs
          have hbs' := magnitude_nonneg bs
          have hcs' := magnitude_nonneg cs
          -- the first bytes are the quotients, the rest the remainders
          have hbyte : (b.toNat : Int) = c.toNat := by
            by_contra hne
            rcases Int.lt_or_gt_of_ne hne with hlt | hlt
            · nlinarith
            · nlinarith
          have hrest : magnitude bs = magnitude cs := by
            rw [hbyte] at h
            linarith
          have hsame : b = c := UInt8.toNat_inj.mp (by exact_mod_cast hbyte)
          rw [ih hlen hrest, hsame]

/-- A number with its bit `k` or a higher one set. -/
theorem le_bitLength {n : Int} {k : ℕ} (h : 2 ^ k ≤ n) : k + 1 ≤ bitLength n := by
  have hpos : (0 : Int) ≤ 2 ^ k := by positivity
  obtain ⟨n, rfl⟩ := Int.eq_ofNat_of_zero_le (hpos.trans h)
  have hn : 2 ^ k ≤ n := by exact_mod_cast h
  have hne : n ≠ 0 := by
    rintro rfl
    exact Nat.not_le.mpr (Nat.pow_pos Nat.two_pos) hn
  rw [show bitLength n = n.log2 + 1 from if_neg hne]
  exact Nat.succ_le_succ ((Nat.le_log2 hne).mpr hn)

end BigInteger

namespace Sender

/-- The first byte of identification data is the code of a minus sign or of a digit. -/
theorem getIdentificationData_cons {k : ElGamalKey} {id : List UInt8}
    (h : getIdentificationData k = .ok id) :
    ∃ b bs, id = b :: bs ∧ bs.length = 124 ∧ b < 128 ∧ 32 ≤ b := by
  have hlength := getIdentificationData_length h
  simp only [getIdentificationData] at h
  split at h
  · cases h
  · rw [Except.ok.injEq] at h
    cases hdigits : BigInteger.digits k.publicKey with
    | nil =>
        rw [hdigits] at h
        simp [← h] at hlength
    | cons c cs =>
        rw [hdigits] at h
        refine ⟨c.toNat.toUInt8, (cs.take 124).map fun c => c.toNat.toUInt8, by rw [← h]; rfl, ?_⟩
        have hc : c ∈ BigInteger.digits k.publicKey := by
          rw [hdigits]
          exact List.mem_cons_self
        refine ⟨?_, ?_⟩
        · rw [← h] at hlength
          simpa using hlength
        · rcases BigInteger.mem_digits hc with rfl | hdigit
          · decide
          · have hrange : 48 ≤ c.toNat ∧ c.toNat ≤ 57 := by
              simpa [Char.isDigit, Char.le_def, UInt32.le_iff_toNat_le] using hdigit
            have hbyte : c.toNat.toUInt8.toNat = c.toNat := by
              rw [Nat.toUInt8, UInt8.toNat_ofNat']
              omega
            rw [UInt8.lt_iff_toNat_lt, UInt8.le_iff_toNat_le, hbyte]
            exact ⟨by simp only [UInt8.toNat_ofNat]; omega, by simp only [UInt8.toNat_ofNat]; omega⟩

theorem identification_eq {k : ElGamalKey} {id : List UInt8}
    (h : getIdentificationData k = .ok id) :
    identification k = .ok (BigInteger.magnitude id) ∧
      BigInteger.ofBytes id = .ok (BigInteger.magnitude id) := by
  obtain ⟨b, bs, rfl, -, hb, -⟩ := getIdentificationData_cons h
  rw [identification, h, Except.ok_bind]
  exact ⟨BigInteger.ofBytes_of_lt hb bs, BigInteger.ofBytes_of_lt hb bs⟩

/-- The bytes of identification data reach far enough to fill 998 bits. -/
theorem le_magnitude {k : ElGamalKey} {id : List UInt8} (h : getIdentificationData k = .ok id) :
    (2 : Int) ^ 997 ≤ BigInteger.magnitude id := by
  obtain ⟨b, bs, rfl, hlen, -, hb⟩ := getIdentificationData_cons h
  have hbyte : (32 : Int) ≤ b.toNat := by
    rw [UInt8.le_iff_toNat_le] at hb
    exact_mod_cast hb
  calc (2 : Int) ^ 997 = 2 ^ 5 * (2 ^ 8) ^ 124 := by rw [← pow_mul, ← pow_add]
    _ = 32 * 256 ^ 124 := by rw [show (2 : Int) ^ 5 = 32 by rfl, show (2 : Int) ^ 8 = 256 by rfl]
    _ ≤ (b.toNat : Int) * 256 ^ bs.length := by
        rw [hlen]
        exact mul_le_mul_of_nonneg_right hbyte (by positivity)
    _ ≤ BigInteger.magnitude (b :: bs) := by
        rw [BigInteger.magnitude_cons]
        linarith [BigInteger.magnitude_nonneg bs]

/-- Two keys with one identification share its bytes. -/
theorem getIdentificationData_of_identification {k k' : ElGamalKey} {n : Int}
    (h : identification k = .ok n) (h' : identification k' = .ok n) :
    ∃ id, getIdentificationData k = .ok id ∧ getIdentificationData k' = .ok id := by
  obtain ⟨id, hid, hn⟩ := Except.bind_eq_ok.mp h
  obtain ⟨id', hid', hn'⟩ := Except.bind_eq_ok.mp h'
  rw [(identification_eq hid).2, Except.ok.injEq] at hn
  rw [(identification_eq hid').2, Except.ok.injEq] at hn'
  have hlength : id.length = id'.length := by
    rw [getIdentificationData_length hid, getIdentificationData_length hid']
  have heq := BigInteger.magnitude_injective hlength (hn.trans hn'.symm)
  exact ⟨id, hid, heq ▸ hid'⟩

end Sender

/-! ## Encrypting it -/

namespace ElGamalEngineK

/-- Identification data below the modulus is not too long for it. -/
theorem checkInput_identification {k : ElGamalKey} {id : List UInt8}
    (h : Sender.getIdentificationData k = .ok id) {p : Int} (hp : BigInteger.magnitude id < p) :
    checkInput p id = .ok () := by
  have hbits := BigInteger.le_bitLength ((Sender.le_magnitude h).trans hp.le)
  have hlength : id.length ≤ (BigInteger.bitLength p - 1 + 7) / 8 := by
    rw [Sender.getIdentificationData_length h]
    omega
  rw [checkInput, if_neg (Nat.not_lt.mpr hlength), if_neg (Int.not_le.mpr hp)]

end ElGamalEngineK

end Sxp
