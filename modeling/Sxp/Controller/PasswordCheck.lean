-- SUMMARY: The check of a password against the stored digests, which compares decoded texts, and when that is a comparison of the bytes.
import Sxp.Controller.Passwords

/-!
# The check of a password

The stored digest and that of the password are arbitrary bytes, and the decoder replaces what is
no valid text. So equal bytes have equal texts, but not the other way around.
-/

namespace Sxp

namespace Users

section

variable (platform : Platform) (sha256 : List UInt8 → List UInt8) (password : String)

/-- The stored digest is that of the password, with the salt of the user. -/
def hasDigest (u : User) : Bool :=
  u.passwordHash = some (SHA256Hasher.getHash sha256 u.salt (getBytes password))

/-- Before the first user with the digest, or anywhere if there is none, every stored digest
decodes to another text than that of the password. -/
def Told (users : List User) : Prop :=
  ∀ u ∈ users.takeWhile fun u =>
    !hasDigest sha256 password u, ∃ digest, u.passwordHash = some digest ∧
    platform.utf8 digest ≠ platform.utf8 (SHA256Hasher.getHash sha256 u.salt (getBytes password))

end

variable {db : Comparison} {platform : Platform} {sha256 : List UInt8 → List UInt8}
  {password : String}

/-- The loop finds the first user with the digest exactly when the digests are told. -/
theorem getUserLoop_exact_iff (users : List User) :
    getUserLoop platform sha256 password users = .ok (users.find? (hasDigest sha256 password)) ↔
      Told platform sha256 password users := by
  induction users with
  | nil => simp [getUserLoop, Told]
  | cons u users ih =>
      rw [getUserLoop, List.find?_cons, Told, List.takeWhile_cons]
      cases hhash : u.passwordHash with
      | none => simp [notNull, hasDigest, hhash, bind, Except.bind]
      | some digest =>
          simp only [notNull, Except.ok_bind]
          by_cases hbytes : digest = SHA256Hasher.getHash sha256 u.salt (getBytes password)
          · simp [hasDigest, hhash, hbytes, pure, Except.pure]
          · have hother : hasDigest sha256 password u = false := by
              simp [hasDigest, hhash, hbytes]
            by_cases htexts : platform.utf8 digest =
                platform.utf8 (SHA256Hasher.getHash sha256 u.salt (getBytes password))
            -- the loop stops at a user who has not the digest
            · have hlater : users.find? (hasDigest sha256 password) ≠ some u := by
                intro hfind
                exact absurd (List.find?_some hfind) (by simp [hother])
              simp [hother, hhash, htexts, pure, Except.pure, hlater.symm]
            · simp [hother, hhash, htexts, ih, Told]

/-- The check returns the first user under the nickname with the digest of the password, and
nobody where there is none, exactly when the digests are told. -/
theorem getUser_exact_iff (db : Comparison) (platform : Platform) (sha256 : List UInt8 → List UInt8)
    (users : List User) (username : Option String) (password : String) :
    getUser db platform sha256 users username password =
        .ok ((findAllByNick db users username).find? (hasDigest sha256 password)) ↔
      Told platform sha256 password (findAllByNick db users username) :=
  getUserLoop_exact_iff (findAllByNick db users username)

/-- In the states that the requests lead to, the digests are told wherever they are
distinguished. -/
theorem Kept.told {s : UserState} {last : LastSet} {nick : String} (h : Kept sha256 s last)
    (hown : FindsOwn db s nick) (hdistinguished : Distinguished platform sha256 s nick password) :
    Told platform sha256 password (Sxp.findAllByNick db s.users (some nick)) := by
  intro u hu
  have hother := List.mem_takeWhile_imp hu
  obtain ⟨husers, hnick⟩ := hown.mem_iff.mp ((List.takeWhile_prefix _).subset hu)
  obtain ⟨_, _, -, -, hhash⟩ := h.stored u husers
  refine ⟨_, hhash, fun htexts => ?_⟩
  have hbytes := hdistinguished u husers hnick _ hhash htexts.symm
  simp [hasDigest, hhash, hbytes] at hother

end Users

namespace Sample

/-- Valid texts are decoded, and of other bytes those outside ASCII are replaced one by one. -/
def utf8 (bs : List UInt8) : String :=
  if h : (ByteArray.mk bs.toArray).IsValidUTF8 then String.ofByteArray (ByteArray.mk bs.toArray) h
  else String.ofList (bs.map fun b => if b < 128 then Char.ofNat b.toNat else Char.ofNat 0xFFFD)

theorem utf8_getBytes (s : String) : utf8 (getBytes s) = s := by
  have hbytes : ByteArray.mk (getBytes s).toArray = s.toByteArray := by
    rw [getBytes, Array.toArray_toList]
    rfl
  have hvalid : (ByteArray.mk (getBytes s).toArray).IsValidUTF8 := hbytes ▸ s.isValidUTF8
  rw [utf8, dif_pos hvalid]
  exact String.toByteArray_inj.mp hbytes

def utf8Platform : Platform where
  hash _ := 0
  utf8 := utf8
  zone := .utc

/-- The digest of "wonder" with the salt 1. -/
def wonderDigest : List UInt8 :=
  [26, 144, 216, 198, 237, 44, 219, 46, 16, 79, 181, 242, 36, 10, 86, 186, 24, 67, 249, 60, 169,
    107, 176, 154, 143, 7, 188, 177, 68, 186, 182, 19]

/-- A user whose digest differs from that of "wonder" in the second byte. -/
def alikeUser : User where
  id := some "0001"
  nick := some "alice"
  salt := some [1]
  passwordHash := some (wonderDigest.set 1 145)
  createdAt := some 0
  keys := some userKey.entity
  signature := none

end Sample

namespace Users

/-- Another digest is taken for that of the password. -/
theorem getUser_takes_other :
    getUser Sample.derby Sample.utf8Platform (fun _ => Sample.wonderDigest) [Sample.alikeUser]
        (some "alice") "wonder" ≠
      .ok ((findAllByNick Sample.derby [Sample.alikeUser] (some "alice")).find?
        (hasDigest (fun _ => Sample.wonderDigest) "wonder")) := by
  intro hexact
  have htexts : Sample.utf8 (Sample.wonderDigest.set 1 145) = Sample.utf8 Sample.wonderDigest := by
    decide +kernel
  have hfirst : Sample.alikeUser ∈
    (findAllByNick Sample.derby [Sample.alikeUser] (some "alice")).takeWhile fun u =>
      !hasDigest (fun _ => Sample.wonderDigest) "wonder" u := by
    decide
  obtain ⟨digest, hdigest, hother⟩ := (getUserLoop_exact_iff _).mp hexact _ hfirst
  cases hdigest
  exact hother htexts

end Users

end Sxp
