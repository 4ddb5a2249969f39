import AmqOs.Cryptography.AesRows

/-!
# AES-256: the code and FIPS-197

The tables, `gmul`, the key expansion, `sub_bytes` and `shift_rows` are those of the standard. `mix_columns` and
`add_round_key` are not: they take the bytes `i, i + 4, i + 8, i + 12`, which are row `i` of the standard's state, for its
column `i`. So the code computes the four ciphers `Fips197.rowCipher` of the rows (`row_encrypt_eq`), and on the example
vector of the standard another ciphertext (`aes256EncryptBlock_fipsBlock`).
-/

set_option autoImplicit false

namespace AmqOs.Cryptography

open Lib Lib.Gf256
open Fips197 (Word wordAt rotWord mixWord keyExpansion rowCipher)

/-! ## The tables -/

theorem sboxTable_eq : sboxTable = (List.range 256).map fun n => UInt8.ofNat (Fips197.affine (inverseNat n)) := by
  decide +kernel

theorem sbox_eq : sbox = Fips197.sBox := by
  funext b
  have hb := b.toNat_lt
  rw [Fips197.sBox, toNat_inverse, sbox, sboxTable_eq, List.getD_eq_getElem _ _ (by simpa using hb)]
  simp

theorem rcon_eq : ∀ j < 8, j ≠ 0 → (⟨rcon j, 0, 0, 0⟩ : Word) = Fips197.rcon j := by
  decide

/-! ## Words -/

theorem byte_ext {x y : UInt8} (h : ∀ i < 8, x.toBitVec.getLsbD i = y.toBitVec.getLsbD i) : x = y := by
  apply UInt8.toBitVec_inj.mp
  exact BitVec.eq_of_getLsbD_eq h

theorem toUInt8_and (w : UInt32) : (w &&& 0xFF).toUInt8 = w.toUInt8 := by
  apply UInt8.toNat_inj.mp
  have hmask : w.toNat &&& 255 = w.toNat % 2 ^ 8 := Nat.and_two_pow_sub_one_eq_mod w.toNat 8
  rw [UInt32.toNat_toUInt8, UInt32.toNat_toUInt8, UInt32.toNat_and, show (0xFF : UInt32).toNat = 255 from rfl, hmask]
  omega

theorem wordBytes_eq (w : UInt32) :
    wordBytes w = ⟨(w >>> 24).toUInt8, (w >>> 16).toUInt8, (w >>> 8).toUInt8, w.toUInt8⟩ := by
  simp only [wordBytes, toUInt8_and]

theorem wordBytes_xor (v w : UInt32) : wordBytes (v ^^^ w) = wordBytes v ^^^ wordBytes w := by
  simp only [wordBytes_eq, Word.xor_def, UInt32.shiftRight_xor, UInt32.toUInt8_xor]

theorem wordBytes_wordOf (b0 b1 b2 b3 : UInt8) : wordBytes (wordOf b0 b1 b2 b3) = ⟨b0, b1, b2, b3⟩ := by
  simp only [wordBytes_eq, Word.mk.injEq]
  refine ⟨?_, ?_, ?_, ?_⟩ <;> apply byte_ext <;> intro i hi <;> simp [wordOf] <;> interval_cases i <;> simp

theorem wordBytes_rot (w : UInt32) : wordBytes ((w <<< 8) ||| (w >>> 24)) = rotWord (wordBytes w) := by
  simp only [wordBytes_eq, rotWord, Word.mk.injEq]
  refine ⟨?_, ?_, ?_, ?_⟩ <;> apply byte_ext <;> intro i hi <;> simp <;> interval_cases i <;> simp

theorem wordBytes_high (b : UInt8) : wordBytes (b.toUInt32 <<< 24) = ⟨b, 0, 0, 0⟩ := by
  have h := wordBytes_wordOf b 0 0 0
  simpa [wordOf] using h

theorem wordBytes_subWord (w : UInt32) : wordBytes (subWord w) = Fips197.subWord (wordBytes w) := by
  rw [subWord, wordBytes_wordOf, sbox_eq]
  rfl

/-! ## The key expansion -/

/-- The first `n` words of the two expansions are the same. -/
def SameWords (n : Nat) (v : Vector UInt32 60) (w : Vector Word 60) : Prop :=
  ∀ j < n, wordBytes (entry v j) = entry w j

theorem SameWords.put {n : Nat} {v : Vector UInt32 60} {w : Vector Word 60} (h : SameWords n v w) (hn : n < 60)
    {x : UInt32} {y : Word} (hxy : wordBytes x = y) : SameWords (n + 1) (put v n x) (put w n y) := by
  intro j hj
  rw [entry_put _ _ _ (by omega), entry_put _ _ _ (by omega)]
  split
  · exact hxy
  · exact h j (by omega)

theorem SameWords.next {n : Nat} {v : Vector UInt32 60} {w : Vector Word 60} (h : SameWords n v w) (h8 : 8 ≤ n)
    (hn : n < 60) : wordBytes (nextKeyWord v n) = Fips197.nextWord w n := by
  rw [nextKeyWord, Fips197.nextWord, wordBytes_xor, h (n - 8) (by omega), ← h (n - 1) (by omega)]
  split
  · rw [wordBytes_xor, wordBytes_subWord, wordBytes_rot, wordBytes_high, rcon_eq _ (by omega) (by omega)]
  · split
    · rw [wordBytes_subWord]
    · rfl

theorem aes256Init_sameWords (ctx : Aes256Ctx) (key : Vector UInt8 32) :
    SameWords 60 (aes256Init ctx key).roundKeys (keyExpansion key) := by
  have hload : SameWords 8 (loadKey key ctx.roundKeys) (Fips197.loadKey key) := by
    apply forUpTo_rel SameWords
    · intro j hj
      omega
    · intro i v w hi h
      exact h.put (by omega) (wordBytes_wordOf _ _ _ _)
  have hexpand : SameWords (8 + 52) (expandKey (loadKey key ctx.roundKeys)) (keyExpansion key) := by
    apply forUpTo_rel (fun i => SameWords (8 + i)) hload
    intro i v w hi h
    exact h.put (by omega) (h.next (by omega) (by omega))
  exact hexpand

/-! ## The cipher -/

/-- The code computes the ciphers of the rows. -/
theorem row_encrypt_eq (ctx : Aes256Ctx) (key : Vector UInt8 32) (b : Vector UInt8 16) {r : Nat} (hr : r < 4) :
    wordAt (aes256EncryptBlock (aes256Init ctx key) b) r 4 = rowCipher (keyExpansion key) r (wordAt b r 4) := by
  have hkey : ∀ round < 15, (aes256Init ctx key).rowKeys r round = entry (keyExpansion key) (round * 4 + r) :=
    fun round h => aes256Init_sameWords ctx key (round * 4 + r) (by omega)
  have hshift : shiftSubRow = Fips197.shiftSub := by
    funext r q
    rw [shiftSubRow, sbox_eq]
    rfl
  have hloop : forUpTo (fun i q => mixWord (shiftSubRow r q) ^^^ (aes256Init ctx key).rowKeys r (1 + i)) 13
        (wordAt b r 4 ^^^ (aes256Init ctx key).rowKeys r 0) =
      forUpTo (fun i q => mixWord (Fips197.shiftSub r q) ^^^ entry (keyExpansion key) ((1 + i) * 4 + r)) 13
        (wordAt b r 4 ^^^ entry (keyExpansion key) r) := by
    apply forUpTo_rel (fun _ p q => p = q)
    · rw [hkey 0 (by omega), Nat.zero_mul, Nat.zero_add]
    · rintro i p q hi rfl
      rw [hkey (1 + i) (by omega), hshift]
  rw [row_aes256EncryptBlock _ b hr, rowCipher, ← hloop, ← hkey 14 (by omega), ← hshift]
  rfl

/-- Four ciphers of 32 bits: row `r` of the ciphertext is the cipher of row `r` of the plaintext, and depends on nothing
else of it. -/
theorem aes256_rowCiphers (ctx : Aes256Ctx) (key : Vector UInt8 32) (b : Vector UInt8 16) (r : Fin 4) :
    wordAt (aes256EncryptBlock (aes256Init ctx key) b) r 4 = rowCipher (keyExpansion key) r (wordAt b r 4) ∧
      ∀ b' : Vector UInt8 16, wordAt b' r 4 = wordAt b r 4 →
        wordAt (aes256EncryptBlock (aes256Init ctx key) b') r 4 = wordAt (aes256EncryptBlock (aes256Init ctx key) b) r 4 :=
  ⟨row_encrypt_eq ctx key b r.isLt, fun _ h => row_aes256EncryptBlock_congr _ r.isLt h⟩

/-! ## The example vector of the standard -/

/-- The bytes `00, 01, …, 1f`. -/
def fipsKey : Vector UInt8 32 := Vector.ofFn fun i => UInt8.ofNat i.val

/-- The bytes `00, 11, …, ff`. -/
def fipsBlock : Vector UInt8 16 := Vector.ofFn fun i => UInt8.ofNat (17 * i.val)

-- With the table in the place of `sBox`, the two ciphers can be evaluated.

theorem rowCipher_fips : (rowCipher (keyExpansion fipsKey) 0 (wordAt fipsBlock 0 4)).b0 = 0x1f := by
  simp only [rowCipher, Fips197.shiftSub, keyExpansion, Fips197.nextWord, Fips197.subWord, ← sbox_eq]
  decide +kernel

theorem cipher_fips : (wordAt (Fips197.cipher fipsKey fipsBlock) 0 4).b0 = 0x8e := by
  simp only [Fips197.cipher, Fips197.cipherState, Fips197.subBytes, keyExpansion, Fips197.nextWord, Fips197.subWord,
    ← sbox_eq]
  decide +kernel

/-- The first byte of the ciphertext is `8e`; that of the code is `1f`. -/
theorem aes256EncryptBlock_fipsBlock :
    aes256EncryptBlock (aes256Init ⟨Vector.replicate 60 0, 0⟩ fipsKey) fipsBlock ≠ Fips197.cipher fipsKey fipsBlock := by
  intro h
  have hrow := row_encrypt_eq ⟨Vector.replicate 60 0, 0⟩ fipsKey fipsBlock (r := 0) (by omega)
  rw [h] at hrow
  have hb := cipher_fips
  rw [hrow, rowCipher_fips] at hb
  exact absurd hb (by decide)

end AmqOs.Cryptography
