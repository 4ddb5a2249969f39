import AmqOs.Cryptography.AesDefs
import AmqOs.Cryptography.Fips197

/-!
# AES-256: the rows of the state

Row `r` of the state is the word of the bytes `r`, `r + 4`, `r + 8` and `r + 12`. Every step of the two block functions
treats the rows one by one: `shift_rows` rotates row `r` by `r` places, and `mix_columns` and `add_round_key` multiply
row `r` with the matrix and add key word `r` of the round to it. So the block functions are four independent functions of
words (`row_aes256EncryptBlock`, `row_aes256DecryptBlock`), each the inverse of the other (`decryptRow_encryptRow`,
`encryptRow_decryptRow`).
-/

set_option autoImplicit false

namespace AmqOs.Cryptography

open Lib Lib.Gf256
open Fips197 (Word wordAt rotWord mixWord)

/-! ## Words -/

theorem gmulLoop_eq (n : Nat) (p a b : UInt8) : gmulLoop n p a b = mulLoop n p a b := by
  induction n generalizing p a b with
  | zero => rfl
  | succ n ih => exact ih _ _ _

theorem gmul_eq (a b : UInt8) : gmul a b = mul a b := by
  rw [gmul, gmulLoop_eq, mul_eq]

/-- The bytes of a word, the highest first. -/
def wordBytes (w : UInt32) : Word :=
  ⟨((w >>> 24) &&& 0xFF).toUInt8, ((w >>> 16) &&& 0xFF).toUInt8, ((w >>> 8) &&& 0xFF).toUInt8, (w &&& 0xFF).toUInt8⟩

/-- The product of a word with the matrix of `inv_mix_columns`. -/
def invMixWord (w : Word) : Word where
  b0 := mul w.b0 14 ^^^ mul w.b1 11 ^^^ mul w.b2 13 ^^^ mul w.b3 9
  b1 := mul w.b0 9 ^^^ mul w.b1 14 ^^^ mul w.b2 11 ^^^ mul w.b3 13
  b2 := mul w.b0 13 ^^^ mul w.b1 9 ^^^ mul w.b2 14 ^^^ mul w.b3 11
  b3 := mul w.b0 11 ^^^ mul w.b1 13 ^^^ mul w.b2 9 ^^^ mul w.b3 14

def invRotWord (w : Word) : Word := ⟨w.b3, w.b0, w.b1, w.b2⟩

theorem invRotWord_rotWord (w : Word) : invRotWord (rotWord w) = w := rfl

theorem map_invSbox_sboxTable : sboxTable.map invSbox = (List.range 256).map UInt8.ofNat := by
  decide +kernel

theorem invSbox_sbox (b : UInt8) : invSbox (sbox b) = b := by
  have hb := b.toNat_lt
  have hmap : (sboxTable.map invSbox)[b.toNat]? = some b := by
    rw [map_invSbox_sboxTable, List.getElem?_map, List.getElem?_range hb, Option.map_some, UInt8.ofNat_toNat]
  rw [List.getElem?_map, Option.map_eq_some_iff] at hmap
  obtain ⟨c, hc, hcb⟩ := hmap
  rw [sbox, List.getD_eq_getElem?_getD, hc]
  exact hcb

theorem xor_xor_cancel (v w : Word) : (v ^^^ w) ^^^ w = v := by
  simp only [Word.xor_def, UInt8.xor_assoc, UInt8.xor_self, UInt8.xor_zero]

/-! ## The two matrices

Both are circulant, so their product is the identity if its first row is that of the identity.
-/

theorem rotWord_mixWord (w : Word) : rotWord (mixWord w) = mixWord (rotWord w) := by
  simp only [rotWord, mixWord, Word.mk.injEq]
  refine ⟨?_, ?_, ?_, ?_⟩ <;> ac_rfl

theorem rotWord_invMixWord (w : Word) : rotWord (invMixWord w) = invMixWord (rotWord w) := by
  simp only [rotWord, invMixWord, Word.mk.injEq]
  refine ⟨?_, ?_, ?_, ?_⟩ <;> ac_rfl

theorem eq_self_of_rot {f : Word → Word} (hrot : ∀ w, rotWord (f w) = f (rotWord w)) (hb : ∀ w, (f w).b0 = w.b0)
    (w : Word) : f w = w := by
  have h1 : (f w).b1 = w.b1 := calc
    (f w).b1 = (f (rotWord w)).b0 := by rw [← hrot]; rfl
    _ = w.b1 := hb _
  have h2 : (f w).b2 = w.b2 := calc
    (f w).b2 = (f (rotWord (rotWord w))).b0 := by rw [← hrot, ← hrot]; rfl
    _ = w.b2 := hb _
  have h3 : (f w).b3 = w.b3 := calc
    (f w).b3 = (f (rotWord (rotWord (rotWord w)))).b0 := by rw [← hrot, ← hrot, ← hrot]; rfl
    _ = w.b3 := hb _
  exact Word.ext (hb w) h1 h2 h3

/-- The first row of the product of the two matrices, on numbers. -/
theorem invMix_coeffNat : ∀ n < 256,
    mulNat (mulNat n 2) 14 ^^^ mulNat n 11 ^^^ mulNat n 13 ^^^ mulNat (mulNat n 3) 9 = n ∧
      mulNat (mulNat n 3) 14 ^^^ mulNat (mulNat n 2) 11 ^^^ mulNat n 13 ^^^ mulNat n 9 = 0 ∧
      mulNat n 14 ^^^ mulNat (mulNat n 3) 11 ^^^ mulNat (mulNat n 2) 13 ^^^ mulNat n 9 = 0 ∧
      mulNat n 14 ^^^ mulNat n 11 ^^^ mulNat (mulNat n 3) 13 ^^^ mulNat (mulNat n 2) 9 = 0 := by
  decide +kernel

theorem invMix_coeff (a : UInt8) :
    mul (mul a 2) 14 ^^^ mul a 11 ^^^ mul a 13 ^^^ mul (mul a 3) 9 = a ∧
      mul (mul a 3) 14 ^^^ mul (mul a 2) 11 ^^^ mul a 13 ^^^ mul a 9 = 0 ∧
      mul a 14 ^^^ mul (mul a 3) 11 ^^^ mul (mul a 2) 13 ^^^ mul a 9 = 0 ∧
      mul a 14 ^^^ mul a 11 ^^^ mul (mul a 3) 13 ^^^ mul (mul a 2) 9 = 0 := by
  simp only [← UInt8.toNat_inj, UInt8.toNat_xor, toNat_mul]
  exact invMix_coeffNat a.toNat a.toNat_lt

theorem invMixWord_mixWord (w : Word) : invMixWord (mixWord w) = w := by
  apply eq_self_of_rot (f := fun w => invMixWord (mixWord w))
  · intro w
    rw [rotWord_invMixWord, rotWord_mixWord]
  · intro w
    obtain ⟨h0, -⟩ := invMix_coeff w.b0
    obtain ⟨-, h1, -⟩ := invMix_coeff w.b1
    obtain ⟨-, -, h2, -⟩ := invMix_coeff w.b2
    obtain ⟨-, -, -, h3⟩ := invMix_coeff w.b3
    simp only [invMixWord, mixWord, mul_xor]
    calc _ = (mul (mul w.b0 2) 14 ^^^ mul w.b0 11 ^^^ mul w.b0 13 ^^^ mul (mul w.b0 3) 9) ^^^
            (mul (mul w.b1 3) 14 ^^^ mul (mul w.b1 2) 11 ^^^ mul w.b1 13 ^^^ mul w.b1 9) ^^^
            (mul w.b2 14 ^^^ mul (mul w.b2 3) 11 ^^^ mul (mul w.b2 2) 13 ^^^ mul w.b2 9) ^^^
            (mul w.b3 14 ^^^ mul w.b3 11 ^^^ mul (mul w.b3 3) 13 ^^^ mul (mul w.b3 2) 9) := by ac_rfl
      _ = w.b0 := by rw [h0, h1, h2, h3, UInt8.xor_zero, UInt8.xor_zero, UInt8.xor_zero]

/-! ## One row -/

/-- `shift_rows` after `sub_bytes`. -/
def shiftSubRow (r : Nat) (q : Word) : Word := rotWord^[r] (q.map sbox)

def invShiftSubRow (r : Nat) (q : Word) : Word := (invRotWord^[r] q).map invSbox

/-- `aes256_encrypt_block` on row `r`, with the key words `k` of the row. -/
def encryptRow (k : Nat → Word) (nr r : Nat) (q : Word) : Word :=
  let q := q ^^^ k 0
  let q := forUpTo (fun i q => mixWord (shiftSubRow r q) ^^^ k (1 + i)) (nr - 1) q
  shiftSubRow r q ^^^ k nr

/-- `aes256_decrypt_block` on row `r`. -/
def decryptRow (k : Nat → Word) (nr r : Nat) (q : Word) : Word :=
  let q := q ^^^ k nr
  let q := forUpTo (fun i q => invMixWord (invShiftSubRow r q ^^^ k (nr - 1 - i))) (nr - 1) q
  invShiftSubRow r q ^^^ k 0

theorem invShiftSubRow_shiftSubRow (r : Nat) (q : Word) : invShiftSubRow r (shiftSubRow r q) = q := by
  have hrot : Function.LeftInverse invRotWord^[r] rotWord^[r] := Function.LeftInverse.iterate invRotWord_rotWord r
  rw [invShiftSubRow, shiftSubRow, hrot]
  simp only [Word.map, invSbox_sbox]

theorem decryptRow_encryptRow (k : Nat → Word) (nr r : Nat) (q : Word) :
    decryptRow k nr r (encryptRow k nr r q) = q := by
  simp only [decryptRow, encryptRow, xor_xor_cancel]
  -- The states of the decryption are those of the encryption between `shift_rows` and `mix_columns`.
  rw [forUpTo_undo (shiftSubRow r), invShiftSubRow_shiftSubRow, xor_xor_cancel]
  intro i hi s
  rw [show 1 + (nr - 1 - 1 - i) = nr - 1 - i by omega, invShiftSubRow_shiftSubRow, xor_xor_cancel, invMixWord_mixWord]

theorem encryptRow_decryptRow (k : Nat → Word) (nr r : Nat) (q : Word) :
    encryptRow k nr r (decryptRow k nr r q) = q := by
  have hl : Function.LeftInverse (decryptRow k nr r) (encryptRow k nr r) := decryptRow_encryptRow k nr r
  exact hl.rightInverse_of_surjective (Finite.surjective_of_injective hl.injective) q

/-! ## The rows of the state -/

theorem row_ext {s t : AesState} (h : ∀ r < 4, wordAt s r 4 = wordAt t r 4) : s = t := by
  apply entry_ext
  intro i hi
  have hr := h (i % 4) (by omega)
  simp only [wordAt, Word.mk.injEq] at hr
  obtain ⟨h0, h1, h2, h3⟩ := hr
  have hcases : i = i % 4 ∨ i = i % 4 + 4 ∨ i = i % 4 + 2 * 4 ∨ i = i % 4 + 3 * 4 := by omega
  rcases hcases with hc | hc | hc | hc <;> rw [hc] <;> assumption

theorem entry_forUpTo_put (f : UInt8 → UInt8) (s : AesState) {i : Nat} (hi : i < 16) :
    entry (forUpTo (fun i s => put s i (f (entry s i))) 16 s) i = f (entry s i) := by
  apply forUpTo_parts (fun i s => entry s i) (fun _ => f)
  · intro i hi s
    rw [entry_put _ _ _ hi, if_pos rfl]
  · intro i _ r hr hne s
    rw [entry_put _ _ _ hr, if_neg (Ne.symm hne)]
  · exact hi

theorem row_subBytes (s : AesState) {r : Nat} (hr : r < 4) : wordAt (subBytes s) r 4 = (wordAt s r 4).map sbox := by
  simp (disch := omega) only [wordAt, subBytes, Word.map, entry_forUpTo_put]

theorem row_invSubBytes (s : AesState) {r : Nat} (hr : r < 4) :
    wordAt (invSubBytes s) r 4 = (wordAt s r 4).map invSbox := by
  simp (disch := omega) only [wordAt, invSubBytes, Word.map, entry_forUpTo_put]

theorem row_shiftRows (s : AesState) {r : Nat} (hr : r < 4) : wordAt (shiftRows s) r 4 = rotWord^[r] (wordAt s r 4) := by
  interval_cases r <;> simp [wordAt, shiftRows, entry_put, rotWord]

theorem row_invShiftRows (s : AesState) {r : Nat} (hr : r < 4) :
    wordAt (invShiftRows s) r 4 = invRotWord^[r] (wordAt s r 4) := by
  interval_cases r <;> simp [wordAt, invShiftRows, entry_put, invRotWord]

theorem row_setFour (s : AesState) {i : Nat} (hi : i < 4) (b0 b1 b2 b3 : UInt8) {r : Nat} (hr : r < 4) :
    wordAt (setFour s i b0 b1 b2 b3) r 4 = if r = i then ⟨b0, b1, b2, b3⟩ else wordAt s r 4 := by
  split
  · subst r
    simp (disch := omega) only [wordAt, setFour, entry_put, if_neg, if_true]
  · simp (disch := omega) only [wordAt, setFour, entry_put, if_neg]

/-- A loop over the four rows. -/
theorem row_forUpTo {f : Nat → AesState → AesState} (g : Nat → Word → Word)
    (h : ∀ i < 4, ∀ r < 4, ∀ s, wordAt (f i s) r 4 = if r = i then g i (wordAt s i 4) else wordAt s r 4) (s : AesState)
    {r : Nat} (hr : r < 4) : wordAt (forUpTo f 4 s) r 4 = g r (wordAt s r 4) := by
  apply forUpTo_parts (fun r s => wordAt s r 4) g
  · intro i hi s
    rw [h i hi i hi, if_pos rfl]
  · intro i hi r hr hne s
    rw [h i hi r hr, if_neg hne]
  · exact hr

theorem row_mixColumns (s : AesState) {r : Nat} (hr : r < 4) : wordAt (mixColumns s) r 4 = mixWord (wordAt s r 4) := by
  apply row_forUpTo (fun _ => mixWord) _ s hr
  intro i hi r hr s
  rw [mixColumn, row_setFour s hi _ _ _ _ hr]
  simp only [gmul_eq]
  rfl

theorem row_invMixColumns (s : AesState) {r : Nat} (hr : r < 4) :
    wordAt (invMixColumns s) r 4 = invMixWord (wordAt s r 4) := by
  apply row_forUpTo (fun _ => invMixWord) _ s hr
  intro i hi r hr s
  rw [invMixColumn, row_setFour s hi _ _ _ _ hr]
  simp only [gmul_eq]
  rfl

theorem row_addRoundKey (key : Nat → UInt32) (s : AesState) {r : Nat} (hr : r < 4) :
    wordAt (addRoundKey key s) r 4 = wordAt s r 4 ^^^ wordBytes (key r) := by
  apply row_forUpTo (fun i q => q ^^^ wordBytes (key i)) _ s hr
  intro i hi r hr s
  rw [addKeyWord, row_setFour s hi _ _ _ _ hr]
  rfl

/-! ## The block functions -/

/-- The key words of row `r`. -/
def Aes256Ctx.rowKeys (ctx : Aes256Ctx) (r round : Nat) : Word := wordBytes (ctx.keyOf round r)

theorem row_aes256EncryptBlock (ctx : Aes256Ctx) (s : AesState) {r : Nat} (hr : r < 4) :
    wordAt (aes256EncryptBlock ctx s) r 4 = encryptRow (ctx.rowKeys r) ctx.nr r (wordAt s r 4) := by
  have hloop : wordAt (encryptRounds ctx (ctx.nr - 1) (addRoundKey (ctx.keyOf 0) s)) r 4 =
      forUpTo (fun i q => mixWord (shiftSubRow r q) ^^^ ctx.rowKeys r (1 + i)) (ctx.nr - 1)
        (wordAt s r 4 ^^^ ctx.rowKeys r 0) := by
    apply forUpTo_rel (fun _ s q => wordAt s r 4 = q)
    · exact row_addRoundKey _ s hr
    · rintro i s q - rfl
      rw [row_addRoundKey _ _ hr, row_mixColumns _ hr, row_shiftRows _ hr, row_subBytes _ hr]
      rfl
  rw [aes256EncryptBlock, row_addRoundKey _ _ hr, row_shiftRows _ hr, row_subBytes _ hr, hloop]
  rfl

theorem row_aes256DecryptBlock (ctx : Aes256Ctx) (s : AesState) {r : Nat} (hr : r < 4) :
    wordAt (aes256DecryptBlock ctx s) r 4 = decryptRow (ctx.rowKeys r) ctx.nr r (wordAt s r 4) := by
  have hloop : wordAt (decryptRounds ctx (ctx.nr - 1) (addRoundKey (ctx.keyOf ctx.nr) s)) r 4 =
      forUpTo (fun i q => invMixWord (invShiftSubRow r q ^^^ ctx.rowKeys r (ctx.nr - 1 - i))) (ctx.nr - 1)
        (wordAt s r 4 ^^^ ctx.rowKeys r ctx.nr) := by
    apply forUpTo_rel (fun _ s q => wordAt s r 4 = q)
    · exact row_addRoundKey _ s hr
    · rintro i s q - rfl
      rw [row_invMixColumns _ hr, row_addRoundKey _ _ hr, row_invSubBytes _ hr, row_invShiftRows _ hr]
      rfl
  rw [aes256DecryptBlock, row_addRoundKey _ _ hr, row_invSubBytes _ hr, row_invShiftRows _ hr, hloop]
  rfl

/-- The two functions undo each other, whatever the round keys and their number. -/
theorem aes256DecryptBlock_encrypt (ctx : Aes256Ctx) (b : AesState) :
    aes256DecryptBlock ctx (aes256EncryptBlock ctx b) = b := by
  apply row_ext
  intro r hr
  rw [row_aes256DecryptBlock ctx _ hr, row_aes256EncryptBlock ctx _ hr, decryptRow_encryptRow]

theorem aes256EncryptBlock_decrypt (ctx : Aes256Ctx) (b : AesState) :
    aes256EncryptBlock ctx (aes256DecryptBlock ctx b) = b := by
  apply row_ext
  intro r hr
  rw [row_aes256EncryptBlock ctx _ hr, row_aes256DecryptBlock ctx _ hr, encryptRow_decryptRow]

/-- With the round keys of `aes256_init`. -/
theorem aes256_block_inverse (ctx : Aes256Ctx) (key : Vector UInt8 32) (b : Vector UInt8 16) :
    aes256DecryptBlock (aes256Init ctx key) (aes256EncryptBlock (aes256Init ctx key) b) = b ∧
      aes256EncryptBlock (aes256Init ctx key) (aes256DecryptBlock (aes256Init ctx key) b) = b :=
  ⟨aes256DecryptBlock_encrypt _ b, aes256EncryptBlock_decrypt _ b⟩

/-- A row of the ciphertext depends on the same row of the plaintext only. -/
theorem row_aes256EncryptBlock_congr (ctx : Aes256Ctx) {s t : AesState} {r : Nat} (hr : r < 4)
    (h : wordAt s r 4 = wordAt t r 4) :
    wordAt (aes256EncryptBlock ctx s) r 4 = wordAt (aes256EncryptBlock ctx t) r 4 := by
  rw [row_aes256EncryptBlock ctx s hr, row_aes256EncryptBlock ctx t hr, h]

end AmqOs.Cryptography
