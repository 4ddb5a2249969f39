import AmqOs.Cryptography.AesRows
import AmqOs.Lib.BlockModes
import AmqOs.Lib.ByteMem

/-!
# AES-256: modes of operation

`aes256_cbc_encrypt`, `aes256_cbc_decrypt` and `aes256_ctr`. A buffer is a memory of its own, so that the input is not
changed by what is stored in the output. The blocks of the output of the first two are a chain over the blocks of the input
and what is recovered from one (`aes256CbcEncrypt_blocks`, `aes256CbcDecrypt_blocks`); the bytes of the output of the third
are those of the input with a key stream (`aes256Ctr_bytes`).
-/

set_option autoImplicit false

namespace AmqOs.Cryptography

open Lib

/-! ## The code -/

/-- `a[j] ^ b[j]` for the bytes of a block. -/
def xorBlock (a b : AesState) : AesState := Vector.zipWith (· ^^^ ·) a b

/-- One turn of `aes256_cbc_encrypt`, on `prev` and `out`. -/
def cbcEncryptTurn (ctx : Aes256Ctx) (inp : Mem) (i : Nat) (s : AesState × Mem) : AesState × Mem :=
  let (prev, out) := s
  let block := xorBlock (inp.loadVec i 16) prev
  let out := out.storeVec i (aes256EncryptBlock ctx block)
  (out.loadVec i 16, out)

/-- One turn of `aes256_cbc_decrypt`. -/
def cbcDecryptTurn (ctx : Aes256Ctx) (inp : Mem) (i : Nat) (s : AesState × Mem) : AesState × Mem :=
  let (prev, out) := s
  let block := aes256DecryptBlock ctx (inp.loadVec i 16)
  let out := out.storeVec i (xorBlock block prev)
  (inp.loadVec i 16, out)

/-- `aes256_cbc_encrypt`: the output; the loop gets enough turns. -/
def aes256CbcEncrypt (ctx : Aes256Ctx) (iv : AesState) (inp out : Mem) (len : Nat) : Option Mem :=
  (forStride 16 len (cbcEncryptTurn ctx inp) (len / 16 + 1) 0 (iv, out)).map (·.2)

/-- `aes256_cbc_decrypt`. -/
def aes256CbcDecrypt (ctx : Aes256Ctx) (iv : AesState) (inp out : Mem) (len : Nat) : Option Mem :=
  (forStride 16 len (cbcDecryptTurn ctx inp) (len / 16 + 1) 0 (iv, out)).map (·.2)

/-- The loop of `aes256_ctr`; `none` when it is still running after `fuel` tests. -/
def ctrLoop (ctx : Aes256Ctx) (inp : Mem) (len : Nat) : Nat → Nat → AesState → Mem → Option Mem
  | 0, _, _, _ => none
  | fuel + 1, offset, counter, out =>
    if offset < len then
      let keystream := aes256EncryptBlock ctx counter
      let n := if len - offset < 16 then len - offset else 16
      let out := out.store offset n fun i => inp (offset + i) ^^^ entry keystream i
      ctrLoop ctx inp len fuel (offset + n) (incFrom 16 counter) out
    else some out

/-- `aes256_ctr`. -/
def aes256Ctr (ctx : Aes256Ctx) (nonce : AesState) (inp out : Mem) (len : Nat) : Option Mem :=
  ctrLoop ctx inp len (len / 16 + 2) 0 nonce out

/-! ## Blocks of a buffer -/

/-- Block `b` of a buffer. -/
def blockAt (m : Mem) (b : Nat) : AesState := m.loadVec (16 * b) 16

theorem xorBlock_xorBlock (a b : AesState) : xorBlock (xorBlock a b) b = a := by
  apply Vector.ext
  intro i hi
  simp [xorBlock]

theorem blockAt_storeVec {m : Mem} {b c : Nat} {v : AesState} :
    blockAt (m.storeVec (16 * b) v) c = if c = b then v else blockAt m c := by
  split
  · rename_i h
    rw [h]
    exact Mem.loadVec_storeVec
  · exact Mem.loadVec_storeVec_out (by omega)

/-- Bytes of the same block of two buffers. -/
theorem byte_of_blockAt {m m' : Mem} {x : Nat} (h : blockAt m (x / 16) = blockAt m' (x / 16)) : m x = m' x := by
  have hbyte : ∀ m : Mem, (blockAt m (x / 16))[x % 16]? = some (m x) := by
    intro m
    rw [blockAt, Mem.loadVec, Vector.getElem?_ofFn, dif_pos (by omega), Nat.div_add_mod]
  have heq := hbyte m
  rw [h, hbyte m'] at heq
  exact (Option.some.inj heq).symm

/-! ## Cipher block chaining -/

section Cbc

variable {ctx : Aes256Ctx} {iv : AesState} {inp out : Mem} {len : Nat}

/-- The ciphertext is the chain over the blocks of the input. -/
theorem aes256CbcEncrypt_blocks (hlen : len < 2 ^ 64) (hmul : len % 16 = 0) :
    ∃ c, aes256CbcEncrypt ctx iv inp out len = some c ∧
      ∀ b < len / 16, blockAt c b = chain xorBlock (aes256EncryptBlock ctx) iv (blockAt inp) (b + 1) := by
  refine ⟨_, by rw [aes256CbcEncrypt, forStride_eq (by omega) hlen hmul]; rfl, ?_⟩
  have hinv := forUpTo_inv (f := fun b => cbcEncryptTurn ctx inp (16 * b)) (n := len / 16) (s := (iv, out))
    (fun k s => s.1 = chain xorBlock (aes256EncryptBlock ctx) iv (blockAt inp) k ∧
      ∀ b < k, blockAt s.2 b = chain xorBlock (aes256EncryptBlock ctx) iv (blockAt inp) (b + 1)) ?_ ?_
  · exact hinv.2
  · exact ⟨rfl, fun b hb => absurd hb (by omega)⟩
  · rintro k ⟨prev, out⟩ hk ⟨rfl, hout⟩
    refine ⟨Mem.loadVec_storeVec, ?_⟩
    intro b hb
    simp only [cbcEncryptTurn, blockAt_storeVec]
    split
    · rename_i h
      rw [h]
      rfl
    · exact hout b (by omega)

/-- The plaintext is what is recovered from the blocks of the input. -/
theorem aes256CbcDecrypt_blocks (hlen : len < 2 ^ 64) (hmul : len % 16 = 0) :
    ∃ p, aes256CbcDecrypt ctx iv inp out len = some p ∧
      ∀ b < len / 16, blockAt p b = unchain xorBlock (aes256DecryptBlock ctx) iv (blockAt inp) b := by
  refine ⟨_, by rw [aes256CbcDecrypt, forStride_eq (by omega) hlen hmul]; rfl, ?_⟩
  have hinv := forUpTo_inv (f := fun b => cbcDecryptTurn ctx inp (16 * b)) (n := len / 16) (s := (iv, out))
    (fun k s => s.1 = before iv (blockAt inp) k ∧
      ∀ b < k, blockAt s.2 b = unchain xorBlock (aes256DecryptBlock ctx) iv (blockAt inp) b) ?_ ?_
  · exact hinv.2
  · exact ⟨rfl, fun b hb => absurd hb (by omega)⟩
  · rintro k ⟨prev, out⟩ hk ⟨rfl, hout⟩
    refine ⟨rfl, ?_⟩
    intro b hb
    simp only [cbcDecryptTurn, blockAt_storeVec]
    split
    · rename_i h
      rw [h]
      rfl
    · exact hout b (by omega)

/-- Decryption undoes encryption, whatever was in the buffer for the plaintext. -/
theorem aes256CbcDecrypt_encrypt (hlen : len < 2 ^ 64) (hmul : len % 16 = 0) (back : Mem) :
    ∃ c p, aes256CbcEncrypt ctx iv inp out len = some c ∧ aes256CbcDecrypt ctx iv c back len = some p ∧
      ∀ x < len, p x = inp x := by
  obtain ⟨c, hc, hcblocks⟩ := @aes256CbcEncrypt_blocks ctx iv inp out len hlen hmul
  obtain ⟨p, hp, hpblocks⟩ := @aes256CbcDecrypt_blocks ctx iv c back len hlen hmul
  refine ⟨c, p, hc, hp, ?_⟩
  intro x hx
  apply byte_of_blockAt
  rw [hpblocks _ (by omega)]
  exact unchain_chain xorBlock_xorBlock (aes256DecryptBlock_encrypt ctx) fun k hk => hcblocks k (by omega)

/-- Encryption undoes decryption. -/
theorem aes256CbcEncrypt_decrypt (hlen : len < 2 ^ 64) (hmul : len % 16 = 0) (back : Mem) :
    ∃ p c, aes256CbcDecrypt ctx iv inp out len = some p ∧ aes256CbcEncrypt ctx iv p back len = some c ∧
      ∀ x < len, c x = inp x := by
  obtain ⟨p, hp, hpblocks⟩ := @aes256CbcDecrypt_blocks ctx iv inp out len hlen hmul
  obtain ⟨c, hc, hcblocks⟩ := @aes256CbcEncrypt_blocks ctx iv p back len hlen hmul
  refine ⟨p, c, hp, hc, ?_⟩
  intro x hx
  apply byte_of_blockAt
  rw [hcblocks _ (by omega)]
  exact chain_unchain xorBlock_xorBlock (aes256EncryptBlock_decrypt ctx) fun k hk => hpblocks k (by omega)

end Cbc

/-! ## Counter mode -/

section Ctr

variable {ctx : Aes256Ctx} {nonce : AesState} {inp out : Mem} {len : Nat}

/-- Byte `x` of the key stream from a counter on. -/
def keyByte (ctx : Aes256Ctx) (counter : AesState) (x : Nat) : UInt8 :=
  entry (aes256EncryptBlock ctx ((incFrom 16)^[x / 16] counter)) (x % 16)

/-- The loop ends, and has put the key stream from `offset` on over the input. -/
theorem ctrLoop_bytes {fuel offset : Nat} {counter : AesState} (hfuel : (len - offset + 15) / 16 < fuel) :
    ∃ c, ctrLoop ctx inp len fuel offset counter out = some c ∧ (∀ x < offset, c x = out x) ∧
      ∀ x, offset ≤ x → x < len → c x = inp x ^^^ keyByte ctx counter (x - offset) := by
  induction fuel generalizing offset counter out with
  | zero => omega
  | succ fuel ih =>
    rw [ctrLoop]
    split
    · rename_i hlt
      by_cases hlast : len - offset < 16
      · -- the last block, of which `len - offset` bytes are used
        have hend : offset + (len - offset) = len := by omega
        dsimp only
        rw [if_pos hlast, hend]
        obtain ⟨c, hc, hbefore, -⟩ := @ih (out.store offset (len - offset) fun i =>
          inp (offset + i) ^^^ entry (aes256EncryptBlock ctx counter) i) len (incFrom 16 counter) (by omega)
        refine ⟨c, hc, fun x hx => ?_, fun x hx hxl => ?_⟩
        · rw [hbefore x (by omega), Mem.store_out (by omega)]
        · rw [hbefore x hxl, Mem.store_in hx (by omega), Nat.add_sub_cancel' hx, keyByte,
            Nat.div_eq_of_lt (by omega), Nat.mod_eq_of_lt (by omega)]
          rfl
      · dsimp only
        rw [if_neg hlast]
        obtain ⟨c, hc, hbefore, hafter⟩ := @ih (out.store offset 16 fun i =>
          inp (offset + i) ^^^ entry (aes256EncryptBlock ctx counter) i) (offset + 16) (incFrom 16 counter) (by omega)
        refine ⟨c, hc, fun x hx => ?_, fun x hx hxl => ?_⟩
        · rw [hbefore x (by omega), Mem.store_out (by omega)]
        · by_cases hin : x < offset + 16
          · rw [hbefore x hin, Mem.store_in hx hin, Nat.add_sub_cancel' hx, keyByte, Nat.div_eq_of_lt (by omega),
              Nat.mod_eq_of_lt (by omega)]
            rfl
          · rw [hafter x (by omega) hxl, keyByte, keyByte, show x - offset = x - (offset + 16) + 16 by omega,
              Nat.add_div_right _ (by omega), Nat.add_mod_right, Function.iterate_succ_apply]
    · exact ⟨out, rfl, fun x _ => rfl, fun x hx hxl => absurd hxl (by omega)⟩

theorem aes256Ctr_bytes : ∃ c, aes256Ctr ctx nonce inp out len = some c ∧
    ∀ x < len, c x = inp x ^^^ keyByte ctx nonce x := by
  obtain ⟨c, hc, -, hbytes⟩ := @ctrLoop_bytes ctx inp out len (len / 16 + 2) 0 nonce (by omega)
  exact ⟨c, hc, fun x hx => hbytes x (by omega) hx⟩

/-- Block `i` of the key stream is the encryption of the nonce plus `i`. -/
theorem keyByte_block (i : Nat) {j : Nat} (hj : j < 16) : keyByte ctx nonce (16 * i + j) =
    entry (aes256EncryptBlock ctx (ofNumBE 16 ((numBE nonce 16 + i) % 2 ^ 128))) j := by
  rw [keyByte, show (16 * i + j) / 16 = i by omega, show (16 * i + j) % 16 = j by omega, iterate_incFrom]
  norm_num

end Ctr

/-- **Modes of operation**: for every key, the two functions for cipher block chaining undo each other on messages of whole
blocks; the output of `aes256_ctr` is the input with the encrypted counters, which start at the nonce, so it is undone by
the same function, and does not depend on what follows. -/
theorem aes256_modes (ctx₀ : Aes256Ctx) (key : Vector UInt8 32) (iv : AesState) (inp out back : Mem) (len : Nat)
    (hlen : len < 2 ^ 64) :
    let ctx := aes256Init ctx₀ key
    (len % 16 = 0 →
      (∃ c p, aes256CbcEncrypt ctx iv inp out len = some c ∧ aes256CbcDecrypt ctx iv c back len = some p ∧
        ∀ x < len, p x = inp x) ∧
      (∃ p c, aes256CbcDecrypt ctx iv inp out len = some p ∧ aes256CbcEncrypt ctx iv p back len = some c ∧
        ∀ x < len, c x = inp x)) ∧
    ∃ c p, aes256Ctr ctx iv inp out len = some c ∧ aes256Ctr ctx iv c back len = some p ∧ (∀ x < len, p x = inp x) ∧
      (∀ i, ∀ j < 16, 16 * i + j < len → c (16 * i + j) = inp (16 * i + j) ^^^
        entry (aes256EncryptBlock ctx (ofNumBE 16 ((numBE iv 16 + i) % 2 ^ 128))) j) ∧
      ∀ n ≤ len, ∃ c', aes256Ctr ctx iv inp back n = some c' ∧ ∀ x < n, c' x = c x := by
  refine ⟨fun hmul => ⟨aes256CbcDecrypt_encrypt hlen hmul back, aes256CbcEncrypt_decrypt hlen hmul back⟩, ?_⟩
  obtain ⟨c, hc, hcbytes⟩ := @aes256Ctr_bytes (aes256Init ctx₀ key) iv inp out len
  obtain ⟨p, hp, hpbytes⟩ := @aes256Ctr_bytes (aes256Init ctx₀ key) iv c back len
  refine ⟨c, p, hc, hp, ?_, ?_, ?_⟩
  · intro x hx
    rw [hpbytes x hx, hcbytes x hx, UInt8.xor_assoc, UInt8.xor_self, UInt8.xor_zero]
  · intro i j hj hlt
    rw [hcbytes _ hlt, keyByte_block i hj]
  · intro n hn
    obtain ⟨c', hc', hbytes⟩ := @aes256Ctr_bytes (aes256Init ctx₀ key) iv inp back n
    refine ⟨c', hc', ?_⟩
    intro x hx
    rw [hbytes x hx, hcbytes x (by omega)]

/-- A message of two blocks. -/
theorem aes256_modes_twoBlocks :
    ∃ c p, aes256CbcEncrypt (aes256Init ⟨Vector.replicate 60 0, 0⟩ (Vector.replicate 32 7)) (Vector.replicate 16 9)
        (fun x => UInt8.ofNat x) (fun _ => 0) 32 = some c ∧
      aes256CbcDecrypt (aes256Init ⟨Vector.replicate 60 0, 0⟩ (Vector.replicate 32 7)) (Vector.replicate 16 9) c
        (fun _ => 0) 32 = some p ∧ ∀ x < 32, p x = UInt8.ofNat x :=
  ((aes256_modes ⟨Vector.replicate 60 0, 0⟩ (Vector.replicate 32 7) (Vector.replicate 16 9) (fun x => UInt8.ofNat x)
    (fun _ => 0) (fun _ => 0) 32 (by norm_num)).1 (by norm_num)).1

end AmqOs.Cryptography
