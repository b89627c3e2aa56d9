-- SUMMARY: Serpent with chained blocks: what is encrypted is decrypted, and which arrays decryption does not throw on.
import Sxp.Base.Chaining
import Sxp.Entity.MessageCrypto
import Sxp.Java.Arrays

/-!
# SerpentEncrypter

The cipher text is a random block, the chained blocks, and one byte that counts the zeros the
last block was filled up with. The block cipher itself is the library's.
-/

namespace Sxp

def SerpentEncrypter.BLOCK_SIZE : Nat := 16

abbrev Block := Vector UInt8 SerpentEncrypter.BLOCK_SIZE

/-- The library's cipher on the first block of an array; a key that it does not take is `none`. -/
structure Serpent_BitSlice (Key : Type) where
  makeKey (key : List UInt8) : Option Key
  blockEncrypt (block : Block) (key : Key) : Block
  blockDecrypt (block : Block) (key : Key) : Block

/-- Decryption of a block is the inverse of its encryption. -/
def Serpent_BitSlice.Inverts {Key : Type} (serpent : Serpent_BitSlice Key) : Prop :=
  ∀ block key, serpent.blockDecrypt (serpent.blockEncrypt block key) key = block

structure SerpentEncrypter (Key : Type) where
  key : Option Key := none

namespace SerpentEncrypter

variable {Key : Type} (serpent : Serpent_BitSlice Key)

/-- The `n`th block, with as many zeros as needed to fit. -/
def getBlock (n : Nat) (blocks : List UInt8) : Block := Chaining.block BLOCK_SIZE 0 n blocks

def xor (a b : Block) : Block := Vector.zipWith (· ^^^ ·) a b

def encrytBlock (key : Key) (previous current : Block) : Block :=
  serpent.blockEncrypt (xor previous current) key

def decryptBlock (key : Key) (previous current : Block) : Block :=
  xor (serpent.blockDecrypt current key) previous

/-- The blocks that `encrypt` lists. Its loop makes each of them of the last one in the list. -/
def encryptBlocks (key : Key) (initVector : Block) (plainText : List UInt8) : List Block :=
  (List.range (Chaining.count BLOCK_SIZE plainText.length)).foldl
    (fun blocks i => blocks ++
      [encrytBlock serpent key (blocks.getLastD initVector) (getBlock i plainText)]) [initVector]

/-- `encrypt`, with the random initialisation vector. -/
def encrypt (e : SerpentEncrypter Key) (initVector : Block) (plainText : List UInt8) :
    Except JavaException (List UInt8) :=
  match e.key with
  | none => .error (.runtime "key not defined")
  | some key =>
      let blocks := encryptBlocks serpent key initVector plainText
      let added := UInt8.ofInt (((blocks.length : Int) - 1) * BLOCK_SIZE - plainText.length)
      .ok (blocks.flatMap Vector.toList ++ [added])

/-- The inner loop of `decrypt`, which stops at the end of the result. -/
def writeBlock : List UInt8 × Nat → List UInt8 → List UInt8 × Nat
  | (res, k), [] => (res, k)
  | (res, k), b :: plainText =>
      if k < res.length then writeBlock (res.set k b, k + 1) plainText else (res, k)

def decrypt (e : SerpentEncrypter Key) (cypher : List UInt8) : Except JavaException (List UInt8) :=
  match e.key with
  | none => .error (.runtime "key not defined")
  | some key => do
      let added ← Arrays.get cypher ((cypher.length : Int) - 1)
      let res ← Arrays.newBytes ((cypher.length : Int) - added.toInt8.toInt - BLOCK_SIZE - 1)
      -- the blocks `i` with `i * BLOCK_SIZE < cypher.length - 1`, but for the initialisation vector
      let written := (List.range' 1 (Chaining.count BLOCK_SIZE (cypher.length - 1) - 1)).foldl
        (fun state i =>
          writeBlock state (decryptBlock serpent key (getBlock (i - 1) cypher)
            (getBlock i cypher)).toList) (res, 0)
      return written.1

/-- `setKey`. A key that is not taken is logged, and the old one stays. -/
def setKey (e : SerpentEncrypter Key) (key : List UInt8) : SerpentEncrypter Key :=
  match serpent.makeKey key with
  | some key => { e with key := some key }
  | none => e

/-! ## What decryption returns -/

section Decryption

variable {serpent} {e : SerpentEncrypter Key} {key : Key} {cypher : List UInt8}

/-- The inner loop writes what there is room for. -/
theorem writeBlock_eq (done plainText : List UInt8) (room : Nat) :
    writeBlock (done ++ List.replicate room 0, done.length) plainText =
      (done ++ plainText.take room ++ List.replicate (room - plainText.length) 0,
        (done ++ plainText.take room).length) := by
  induction plainText generalizing done room with
  | nil => simp [writeBlock]
  | cons b plainText ih =>
      cases room with
      | zero => simp [writeBlock]
      | succ room =>
          have hroom : done.length < (done ++ List.replicate (room + 1)
            (0 : UInt8)).length := by simp
          have hset : (done ++ List.replicate (room + 1) (0 : UInt8)).set done.length b =
              done ++ [b] ++ List.replicate room 0 := by
            simp [List.replicate_succ]
          have hlength : done.length + 1 = (done ++ [b]).length := by simp
          rw [writeBlock, if_pos hroom, hset, hlength, ih]
          simp

/-- The outer loop writes block after block. -/
theorem foldl_writeBlock (plains : List (List UInt8)) (done : List UInt8) (room : Nat) :
    (plains.foldl writeBlock (done ++ List.replicate room 0, done.length)).1 =
      done ++ plains.flatten.take room ++ List.replicate (room - plains.flatten.length) 0 := by
  induction plains generalizing done room with
  | nil => simp
  | cons plain plains ih =>
      have hrest : room - plain.length - plains.flatten.length = room -
          (plain.length + plains.flatten.length) := by
        omega
      rw [List.foldl_cons, writeBlock_eq, ih, List.flatten_cons, List.take_append,
        List.length_append, hrest]
      simp

/-- With a key, a last byte and room for the result, the plain blocks are cut to that room. -/
theorem decrypt_eq (hkey : e.key = some key) {added : UInt8} (hadded : cypher.getLast? = some added)
    {size : Nat} (hsize : (cypher.length : Int) - added.toInt8.toInt - BLOCK_SIZE - 1 = size)
    {plain : List UInt8}
    (hplain : ((List.range (Chaining.count BLOCK_SIZE (cypher.length - 1) - 1)).flatMap fun i =>
      (decryptBlock serpent key (getBlock i cypher) (getBlock (i + 1) cypher)).toList) = plain) :
    e.decrypt serpent cypher = .ok (plain.take size ++ List.replicate (size - plain.length) 0) := by
  have hloop := foldl_writeBlock
    ((List.range (Chaining.count BLOCK_SIZE (cypher.length - 1) - 1)).map fun i =>
    (decryptBlock serpent key (getBlock i cypher) (getBlock (i + 1) cypher)).toList) [] size
  rw [← List.flatMap_def, hplain, List.foldl_map, List.nil_append, List.nil_append,
    List.length_nil] at hloop
  rw [decrypt, hkey]
  simp only [Arrays.get_last.mpr hadded, hsize, Arrays.newBytes_natCast, Except.ok_bind,
    List.range'_eq_map_range, List.foldl_map, Nat.add_comm 1, Nat.add_sub_cancel]
  rw [hloop]
  rfl

/-- Decryption ends normally exactly if there is a key and a last byte, and the last byte, which
is signed, leaves room for a result. -/
theorem decrypt_total_iff (serpent : Serpent_BitSlice Key) (e : SerpentEncrypter Key)
    (cypher : List UInt8) : (∃ plain, e.decrypt serpent cypher = .ok plain) ↔
      e.key.isSome ∧ ∃ added, cypher.getLast? = some added ∧
      added.toInt8.toInt + 17 ≤ cypher.length := by
  constructor
  · rintro ⟨plain, h⟩
    unfold decrypt at h
    cases hkey : e.key with
    | none =>
        rw [hkey] at h
        cases h
    | some key =>
        rw [hkey] at h
        obtain ⟨added, hadded, h⟩ := Except.bind_eq_ok.mp h
        obtain ⟨res, hres, -⟩ := Except.bind_eq_ok.mp h
        have hsize := Arrays.newBytes_total_iff.mp ⟨res, hres⟩
        refine ⟨rfl, added, Arrays.get_last.mp hadded, ?_⟩
        rw [BLOCK_SIZE] at hsize
        omega
  · rintro ⟨hkey, added, hadded, hroom⟩
    obtain ⟨key, hkey⟩ := Option.isSome_iff_exists.mp hkey
    obtain ⟨size, hsize⟩ := Int.eq_ofNat_of_zero_le (show 0 ≤ (cypher.length : Int) -
      added.toInt8.toInt - BLOCK_SIZE - 1 by
      rw [BLOCK_SIZE]
      omega)
    exact ⟨_, decrypt_eq hkey hadded hsize rfl⟩

end Decryption

end SerpentEncrypter

namespace Sample

/-- A block cipher that adds its key to a block. -/
def xorSerpent : Serpent_BitSlice Block where
  makeKey password := if password.isEmpty then none else some (SerpentEncrypter.getBlock 0 password)
  blockEncrypt block key := SerpentEncrypter.xor key block
  blockDecrypt block key := SerpentEncrypter.xor block key

def zeroBlock : Block := Vector.replicate SerpentEncrypter.BLOCK_SIZE 0

end Sample

namespace SerpentEncrypter

/-- An empty array has no last byte. -/
theorem decrypt_throws :
    ¬ ∀ cypher, ∃ plain, (⟨some Sample.zeroBlock⟩ : SerpentEncrypter Block).decrypt
    Sample.xorSerpent cypher = .ok plain := by
  intro h
  obtain ⟨plain, hplain⟩ := h []
  cases hplain

-- a forged count
example : (⟨some Sample.zeroBlock⟩ : SerpentEncrypter Block).decrypt Sample.xorSerpent [1, 100] =
    .error .negativeArraySize := rfl

/-! ## Round trips -/

section RoundTrip

variable {serpent} {key : Key}

theorem xor_xor (a b : Block) : xor (xor a b) a = b := by
  ext i hi
  simp only [xor, Vector.getElem_zipWith]
  rw [UInt8.xor_assoc, UInt8.xor_comm b[i], ← UInt8.xor_assoc, UInt8.xor_self, UInt8.zero_xor]

theorem encryptBlocks_eq (key : Key) (initVector : Block) (plainText : List UInt8) :
    encryptBlocks serpent key initVector plainText =
      Chaining.chain (serpent.blockEncrypt · key) xor initVector
      ((List.range (Chaining.count BLOCK_SIZE plainText.length)).map (getBlock · plainText)) := by
  rw [Chaining.chain, List.scanl_map, encryptBlocks]
  exact Chaining.foldl_getLastD (fun prev i =>
    encrytBlock serpent key prev (getBlock i plainText)) initVector _

/-- The byte behind the blocks is read as the number that it was made of. -/
theorem toInt_ofInt {added : Nat} (h : added < BLOCK_SIZE) :
    (UInt8.ofInt added).toInt8.toInt = added := by
  have hall : ∀ added < 16, (UInt8.ofInt (added : Nat)).toInt8.toInt = added := by decide
  exact hall added h

/-- The block `i` behind the initialisation vector is decrypted with the one before it. -/
theorem decryptBlock_encrypt (hserpent : serpent.Inverts) (initVector : Block)
    {plainText : List UInt8} (rest : List UInt8)
    {i : Nat} (hi : i < Chaining.count BLOCK_SIZE plainText.length) :
    decryptBlock serpent key
        (getBlock i ((encryptBlocks serpent key initVector plainText).flatMap Vector.toList ++
          rest))
        (getBlock (i + 1) ((encryptBlocks serpent key initVector plainText).flatMap Vector.toList ++
          rest)) =
      getBlock i plainText := by
  have hblock : ((List.range (Chaining.count BLOCK_SIZE plainText.length)).map
      (getBlock · plainText))[i]? = some (getBlock i plainText) := by
    rw [List.getElem?_map, List.getElem?_range hi]
    rfl
  obtain ⟨prev, cur, hprev, hcur, hundo⟩ := @Chaining.unchain_chain _ (serpent.blockEncrypt · key)
    (serpent.blockDecrypt · key) _ (hserpent · key) xor_xor initVector _ _ _ hblock
  rw [← encryptBlocks_eq] at hprev hcur
  rw [getBlock, getBlock, Chaining.block_flatMap _ _ _ hprev, Chaining.block_flatMap _ _ _ hcur]
  exact hundo

/-- The initialisation vector and the encrypted blocks. -/
theorem length_encryptBlocks (key : Key) (initVector : Block) (plainText : List UInt8) :
    (encryptBlocks serpent key initVector plainText).length =
    Chaining.count BLOCK_SIZE plainText.length + 1 := by
  rw [encryptBlocks_eq, Chaining.length_chain, List.length_map, List.length_range]

/-- The blocks behind the initialisation vector are decrypted to the plain text and the zeros that
filled its last block. -/
theorem decryptBlocks_encrypt (hserpent : serpent.Inverts) (initVector : Block)
    (plainText : List UInt8) (b : UInt8) :
    let cypher := (encryptBlocks serpent key initVector plainText).flatMap Vector.toList ++ [b]
    ((List.range (Chaining.count BLOCK_SIZE (cypher.length - 1) - 1)).flatMap fun i =>
        (decryptBlock serpent key (getBlock i cypher) (getBlock (i + 1) cypher)).toList) =
      plainText ++ List.replicate (Chaining.count BLOCK_SIZE plainText.length * BLOCK_SIZE -
        plainText.length) 0 := by
  intro cypher
  have hlength : cypher.length - 1 = (Chaining.count BLOCK_SIZE plainText.length + 1) *
      BLOCK_SIZE := by
    rw [List.length_append, List.length_singleton, Nat.add_sub_cancel, Chaining.length_flatMap,
      length_encryptBlocks]
  rw [hlength, Chaining.count_mul (by decide), Nat.add_sub_cancel,
    ← Chaining.flatMap_block 0 plainText _ (Chaining.le_count_mul (by decide) _)]
  refine List.flatMap_congr fun i hi => ?_
  rw [decryptBlock_encrypt hserpent initVector [b] (List.mem_range.mp hi), getBlock]

theorem setKey_key {password : List UInt8} (hkey : serpent.makeKey password = some key)
    (e : SerpentEncrypter Key) : (e.setKey serpent password).key = some key := by
  rw [setKey, hkey]

/-- What was encrypted with a key is decrypted with it: the zeros that filled the last block are
counted behind the blocks, and cut off. -/
theorem decrypt_encrypt_of_key (hserpent : serpent.Inverts) {e e' : SerpentEncrypter Key}
    (he : e.key = some key)
    (he' : e'.key = some key) (initVector : Block) (plainText : List UInt8) :
    ∃ cypher, e.encrypt serpent initVector plainText = .ok cypher ∧
    e'.decrypt serpent cypher = .ok plainText := by
  have hless : Chaining.count BLOCK_SIZE plainText.length * BLOCK_SIZE < plainText.length +
      BLOCK_SIZE :=
    Chaining.count_mul_lt (by decide) _
  obtain ⟨added, hadded⟩ :=
    Nat.exists_eq_add_of_le (@Chaining.le_count_mul BLOCK_SIZE (by decide) plainText.length)
  have hblocks := @length_encryptBlocks _ serpent key initVector plainText
  have hplain := @decryptBlocks_encrypt _ _ key hserpent initVector plainText (UInt8.ofInt added)
  set blocks := encryptBlocks serpent key initVector plainText
  have hlast : ((blocks.length : Int) - 1) * BLOCK_SIZE - plainText.length = added := by
    rw [hblocks, BLOCK_SIZE]
    rw [BLOCK_SIZE] at hadded
    omega
  have hsize : ((blocks.flatMap Vector.toList ++ [UInt8.ofInt added]).length : Int) -
      (UInt8.ofInt added).toInt8.toInt - BLOCK_SIZE - 1 = plainText.length := by
    rw [toInt_ofInt (by omega), List.length_append, Chaining.length_flatMap, hblocks,
      List.length_singleton, Nat.succ_mul, hadded]
    omega
  refine ⟨blocks.flatMap Vector.toList ++ [UInt8.ofInt added], ?_, ?_⟩
  · rw [encrypt, he]
    simp only [blocks, hlast]
  · rw [decrypt_eq he' (List.getLast?_concat) hsize hplain, List.take_left, List.length_append,
      Nat.sub_self_add]
    simp

/-- Whatever is encrypted is decrypted by an encrypter with the same key. -/
theorem decrypt_of_encrypt (hserpent : serpent.Inverts) {password : List UInt8}
    (hkey : (serpent.makeKey password).isSome)
    (e e' : SerpentEncrypter Key) (initVector : Block) (plainText : List UInt8) :
    ∃ cypher, (e.setKey serpent password).encrypt serpent initVector plainText = .ok cypher ∧
      (e'.setKey serpent password).decrypt serpent cypher = .ok plainText := by
  obtain ⟨key, hkey⟩ := Option.isSome_iff_exists.mp hkey
  exact decrypt_encrypt_of_key hserpent (setKey_key hkey e)
    (setKey_key hkey e') initVector plainText

end RoundTrip

theorem xorSerpent_inverts : Sample.xorSerpent.Inverts := by
  intro block key
  exact xor_xor key block

/-- Nothing, and three bytes of which the last one is zero. -/
theorem decrypt_encrypt_short :
    (∃ cypher, (setKey Sample.xorSerpent {} [7]).encrypt Sample.xorSerpent Sample.zeroBlock [] =
      .ok cypher ∧ (setKey Sample.xorSerpent {} [7]).decrypt Sample.xorSerpent cypher = .ok []) ∧
    ∃ cypher, (setKey Sample.xorSerpent {} [7]).encrypt Sample.xorSerpent Sample.zeroBlock [1, 2,
      0] = .ok cypher ∧
      (setKey Sample.xorSerpent {} [7]).decrypt Sample.xorSerpent cypher = .ok [1, 2, 0] :=
  ⟨decrypt_of_encrypt xorSerpent_inverts rfl {} {} Sample.zeroBlock [],
    decrypt_of_encrypt xorSerpent_inverts rfl {} {} Sample.zeroBlock [1, 2, 0]⟩

end SerpentEncrypter

/-! ## The cipher of the messages -/

section CipherSuite

variable {Key : Type} {serpent : Serpent_BitSlice Key} {suite : CipherSuite} {draws : MsgDraws}
  {content : String}

/-- The suite with this encrypter, which draws its initialisation vectors at random. -/
def CipherSuite.withSerpent (suite : CipherSuite) (serpent : Serpent_BitSlice Key)
    (initVector : Nat → Block) : CipherSuite :=
  { suite with
    serpentEncrypt := fun random password plain =>
      ((SerpentEncrypter.setKey serpent {} password).encrypt serpent
        (initVector random) plain).toOption.getD []
    serpentDecrypt := fun password cipher =>
      (SerpentEncrypter.setKey serpent {} password).decrypt serpent cipher }

/-- The encrypter does what the messages rely on, for a password that the library takes. -/
theorem CipherSuite.Works.withSerpent (h : suite.Works draws content) (hserpent : serpent.Inverts)
    (hkey : (serpent.makeKey (suite.getBytes draws.pwd)).isSome) (initVector : Nat → Block) :
    (suite.withSerpent serpent initVector).Works draws content where
  elGamal := h.elGamal
  serpent := by
    obtain ⟨key, hkey⟩ := Option.isSome_iff_exists.mp hkey
    have hset := SerpentEncrypter.setKey_key hkey {}
    obtain ⟨cypher, hencrypt, hdecrypt⟩ :=
      SerpentEncrypter.decrypt_encrypt_of_key hserpent hset hset
      (initVector draws.third) (suite.getBytes content)
    simp only [CipherSuite.withSerpent, hencrypt, Except.toOption, Option.getD_some]
    exact hdecrypt
  jackson := h.jackson
  charset := h.charset
  charset_json := h.charset_json

end CipherSuite

end Sxp
