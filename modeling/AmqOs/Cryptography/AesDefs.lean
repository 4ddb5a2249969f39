import AmqOs.Lib.Gf256
import AmqOs.Lib.Loop

/-!
# AES-256: the block cipher

The key expansion `aes256_init`, the round functions and their inverses, and `aes256_encrypt_block` and
`aes256_decrypt_block`. The blocks and the state are arrays of 16 bytes, and the round keys an array of 60 words.
-/

set_option autoImplicit false

namespace AmqOs.Cryptography

open Lib Lib.Gf256

/-! ## Tables -/

/-- `sbox`. -/
def sboxTable : List UInt8 := [
  0x63, 0x7c, 0x77, 0x7b, 0xf2, 0x6b, 0x6f, 0xc5, 0x30, 0x01, 0x67, 0x2b, 0xfe, 0xd7, 0xab, 0x76,
  0xca, 0x82, 0xc9, 0x7d, 0xfa, 0x59, 0x47, 0xf0, 0xad, 0xd4, 0xa2, 0xaf, 0x9c, 0xa4, 0x72, 0xc0,
  0xb7, 0xfd, 0x93, 0x26, 0x36, 0x3f, 0xf7, 0xcc, 0x34, 0xa5, 0xe5, 0xf1, 0x71, 0xd8, 0x31, 0x15,
  0x04, 0xc7, 0x23, 0xc3, 0x18, 0x96, 0x05, 0x9a, 0x07, 0x12, 0x80, 0xe2, 0xeb, 0x27, 0xb2, 0x75,
  0x09, 0x83, 0x2c, 0x1a, 0x1b, 0x6e, 0x5a, 0xa0, 0x52, 0x3b, 0xd6, 0xb3, 0x29, 0xe3, 0x2f, 0x84,
  0x53, 0xd1, 0x00, 0xed, 0x20, 0xfc, 0xb1, 0x5b, 0x6a, 0xcb, 0xbe, 0x39, 0x4a, 0x4c, 0x58, 0xcf,
  0xd0, 0xef, 0xaa, 0xfb, 0x43, 0x4d, 0x33, 0x85, 0x45, 0xf9, 0x02, 0x7f, 0x50, 0x3c, 0x9f, 0xa8,
  0x51, 0xa3, 0x40, 0x8f, 0x92, 0x9d, 0x38, 0xf5, 0xbc, 0xb6, 0xda, 0x21, 0x10, 0xff, 0xf3, 0xd2,
  0xcd, 0x0c, 0x13, 0xec, 0x5f, 0x97, 0x44, 0x17, 0xc4, 0xa7, 0x7e, 0x3d, 0x64, 0x5d, 0x19, 0x73,
  0x60, 0x81, 0x4f, 0xdc, 0x22, 0x2a, 0x90, 0x88, 0x46, 0xee, 0xb8, 0x14, 0xde, 0x5e, 0x0b, 0xdb,
  0xe0, 0x32, 0x3a, 0x0a, 0x49, 0x06, 0x24, 0x5c, 0xc2, 0xd3, 0xac, 0x62, 0x91, 0x95, 0xe4, 0x79,
  0xe7, 0xc8, 0x37, 0x6d, 0x8d, 0xd5, 0x4e, 0xa9, 0x6c, 0x56, 0xf4, 0xea, 0x65, 0x7a, 0xae, 0x08,
  0xba, 0x78, 0x25, 0x2e, 0x1c, 0xa6, 0xb4, 0xc6, 0xe8, 0xdd, 0x74, 0x1f, 0x4b, 0xbd, 0x8b, 0x8a,
  0x70, 0x3e, 0xb5, 0x66, 0x48, 0x03, 0xf6, 0x0e, 0x61, 0x35, 0x57, 0xb9, 0x86, 0xc1, 0x1d, 0x9e,
  0xe1, 0xf8, 0x98, 0x11, 0x69, 0xd9, 0x8e, 0x94, 0x9b, 0x1e, 0x87, 0xe9, 0xce, 0x55, 0x28, 0xdf,
  0x8c, 0xa1, 0x89, 0x0d, 0xbf, 0xe6, 0x42, 0x68, 0x41, 0x99, 0x2d, 0x0f, 0xb0, 0x54, 0xbb, 0x16]

/-- `inv_sbox`. -/
def invSboxTable : List UInt8 := [
  0x52, 0x09, 0x6a, 0xd5, 0x30, 0x36, 0xa5, 0x38, 0xbf, 0x40, 0xa3, 0x9e, 0x81, 0xf3, 0xd7, 0xfb,
  0x7c, 0xe3, 0x39, 0x82, 0x9b, 0x2f, 0xff, 0x87, 0x34, 0x8e, 0x43, 0x44, 0xc4, 0xde, 0xe9, 0xcb,
  0x54, 0x7b, 0x94, 0x32, 0xa6, 0xc2, 0x23, 0x3d, 0xee, 0x4c, 0x95, 0x0b, 0x42, 0xfa, 0xc3, 0x4e,
  0x08, 0x2e, 0xa1, 0x66, 0x28, 0xd9, 0x24, 0xb2, 0x76, 0x5b, 0xa2, 0x49, 0x6d, 0x8b, 0xd1, 0x25,
  0x72, 0xf8, 0xf6, 0x64, 0x86, 0x68, 0x98, 0x16, 0xd4, 0xa4, 0x5c, 0xcc, 0x5d, 0x65, 0xb6, 0x92,
  0x6c, 0x70, 0x48, 0x50, 0xfd, 0xed, 0xb9, 0xda, 0x5e, 0x15, 0x46, 0x57, 0xa7, 0x8d, 0x9d, 0x84,
  0x90, 0xd8, 0xab, 0x00, 0x8c, 0xbc, 0xd3, 0x0a, 0xf7, 0xe4, 0x58, 0x05, 0xb8, 0xb3, 0x45, 0x06,
  0xd0, 0x2c, 0x1e, 0x8f, 0xca, 0x3f, 0x0f, 0x02, 0xc1, 0xaf, 0xbd, 0x03, 0x01, 0x13, 0x8a, 0x6b,
  0x3a, 0x91, 0x11, 0x41, 0x4f, 0x67, 0xdc, 0xea, 0x97, 0xf2, 0xcf, 0xce, 0xf0, 0xb4, 0xe6, 0x73,
  0x96, 0xac, 0x74, 0x22, 0xe7, 0xad, 0x35, 0x85, 0xe2, 0xf9, 0x37, 0xe8, 0x1c, 0x75, 0xdf, 0x6e,
  0x47, 0xf1, 0x1a, 0x71, 0x1d, 0x29, 0xc5, 0x89, 0x6f, 0xb7, 0x62, 0x0e, 0xaa, 0x18, 0xbe, 0x1b,
  0xfc, 0x56, 0x3e, 0x4b, 0xc6, 0xd2, 0x79, 0x20, 0x9a, 0xdb, 0xc0, 0xfe, 0x78, 0xcd, 0x5a, 0xf4,
  0x1f, 0xdd, 0xa8, 0x33, 0x88, 0x07, 0xc7, 0x31, 0xb1, 0x12, 0x10, 0x59, 0x27, 0x80, 0xec, 0x5f,
  0x60, 0x51, 0x7f, 0xa9, 0x19, 0xb5, 0x4a, 0x0d, 0x2d, 0xe5, 0x7a, 0x9f, 0x93, 0xc9, 0x9c, 0xef,
  0xa0, 0xe0, 0x3b, 0x4d, 0xae, 0x2a, 0xf5, 0xb0, 0xc8, 0xeb, 0xbb, 0x3c, 0x83, 0x53, 0x99, 0x61,
  0x17, 0x2b, 0x04, 0x7e, 0xba, 0x77, 0xd6, 0x26, 0xe1, 0x69, 0x14, 0x63, 0x55, 0x21, 0x0c, 0x7d]

def rconTable : List UInt8 := [
  0x00, 0x01, 0x02, 0x04, 0x08, 0x10, 0x20, 0x40, 0x80, 0x1b, 0x36, 0x6c, 0xd8, 0xab, 0x4d]

/-- `sbox[b]`. -/
def sbox (b : UInt8) : UInt8 := sboxTable.getD b.toNat 0

/-- `inv_sbox[b]`. -/
def invSbox (b : UInt8) : UInt8 := invSboxTable.getD b.toNat 0

/-- `rcon[i]`. -/
def rcon (i : Nat) : UInt8 := rconTable.getD i 0

/-- The loop of `gmul`: `n` turns are left. -/
def gmulLoop : Nat → UInt8 → UInt8 → UInt8 → UInt8
  | 0, p, _, _ => p
  | n + 1, p, a, b =>
    let p := if b &&& 1 ≠ 0 then p ^^^ a else p
    let hi := a &&& 0x80
    let a := a <<< 1
    let a := if hi ≠ 0 then a ^^^ 0x1b else a
    gmulLoop n p a (b >>> 1)

def gmul (a b : UInt8) : UInt8 := gmulLoop 8 0 a b

/-! ## Key expansion -/

/-- `aes256_ctx_t`. -/
structure Aes256Ctx where
  roundKeys : Vector UInt32 60
  nr : Nat

/-- The word of four bytes, the first the highest. -/
def wordOf (b0 b1 b2 b3 : UInt8) : UInt32 :=
  (b0.toUInt32 <<< 24) ||| (b1.toUInt32 <<< 16) ||| (b2.toUInt32 <<< 8) ||| b3.toUInt32

/-- `sbox` on the four bytes of a word. -/
def subWord (temp : UInt32) : UInt32 :=
  wordOf (sbox ((temp >>> 24) &&& 0xFF).toUInt8) (sbox ((temp >>> 16) &&& 0xFF).toUInt8)
    (sbox ((temp >>> 8) &&& 0xFF).toUInt8) (sbox (temp &&& 0xFF).toUInt8)

/-- `round_keys[i]`, for an `i` past the words of the key. -/
def nextKeyWord (w : Vector UInt32 60) (i : Nat) : UInt32 :=
  let temp := entry w (i - 1)
  let temp :=
    if i % 8 = 0 then
      let temp := (temp <<< 8) ||| (temp >>> 24)
      let temp := subWord temp
      temp ^^^ ((rcon (i / 8)).toUInt32 <<< 24)
    else if i % 8 = 4 then subWord temp
    else temp
  entry w (i - 8) ^^^ temp

def loadKey (key : Vector UInt8 32) (w : Vector UInt32 60) : Vector UInt32 60 :=
  forUpTo (fun i w =>
    put w i (wordOf (entry key (4 * i)) (entry key (4 * i + 1)) (entry key (4 * i + 2)) (entry key (4 * i + 3)))) 8 w

def expandKey (w : Vector UInt32 60) : Vector UInt32 60 :=
  forUpTo (fun i w => put w (8 + i) (nextKeyWord w (8 + i))) (4 * (14 + 1) - 8) w

def aes256Init (ctx : Aes256Ctx) (key : Vector UInt8 32) : Aes256Ctx where
  roundKeys := expandKey (loadKey key ctx.roundKeys)
  nr := 14

/-! ## Rounds -/

abbrev AesState := Vector UInt8 16

def subBytes (state : AesState) : AesState :=
  forUpTo (fun i state => put state i (sbox (entry state i))) 16 state

def invSubBytes (state : AesState) : AesState :=
  forUpTo (fun i state => put state i (invSbox (entry state i))) 16 state

def shiftRows (state : AesState) : AesState :=
  let temp := entry state 1
  let state := put state 1 (entry state 5)
  let state := put state 5 (entry state 9)
  let state := put state 9 (entry state 13)
  let state := put state 13 temp
  let temp := entry state 2
  let state := put state 2 (entry state 10)
  let state := put state 10 temp
  let temp := entry state 6
  let state := put state 6 (entry state 14)
  let state := put state 14 temp
  let temp := entry state 15
  let state := put state 15 (entry state 11)
  let state := put state 11 (entry state 7)
  let state := put state 7 (entry state 3)
  put state 3 temp

def invShiftRows (state : AesState) : AesState :=
  let temp := entry state 13
  let state := put state 13 (entry state 9)
  let state := put state 9 (entry state 5)
  let state := put state 5 (entry state 1)
  let state := put state 1 temp
  let temp := entry state 2
  let state := put state 2 (entry state 10)
  let state := put state 10 temp
  let temp := entry state 6
  let state := put state 6 (entry state 14)
  let state := put state 14 temp
  let temp := entry state 3
  let state := put state 3 (entry state 7)
  let state := put state 7 (entry state 11)
  let state := put state 11 (entry state 15)
  put state 15 temp

/-- The four statements `state[i + 4 * k] = …` of one turn of a loop. -/
def setFour (state : AesState) (i : Nat) (b0 b1 b2 b3 : UInt8) : AesState :=
  let state := put state i b0
  let state := put state (i + 4) b1
  let state := put state (i + 8) b2
  put state (i + 12) b3

/-- One turn of `mix_columns`. -/
def mixColumn (i : Nat) (state : AesState) : AesState :=
  let a0 := entry state i
  let a1 := entry state (i + 4)
  let a2 := entry state (i + 8)
  let a3 := entry state (i + 12)
  setFour state i (gmul a0 2 ^^^ gmul a1 3 ^^^ a2 ^^^ a3) (a0 ^^^ gmul a1 2 ^^^ gmul a2 3 ^^^ a3)
    (a0 ^^^ a1 ^^^ gmul a2 2 ^^^ gmul a3 3) (gmul a0 3 ^^^ a1 ^^^ a2 ^^^ gmul a3 2)

def mixColumns (state : AesState) : AesState := forUpTo mixColumn 4 state

/-- One turn of `inv_mix_columns`. -/
def invMixColumn (i : Nat) (state : AesState) : AesState :=
  let a0 := entry state i
  let a1 := entry state (i + 4)
  let a2 := entry state (i + 8)
  let a3 := entry state (i + 12)
  setFour state i (gmul a0 14 ^^^ gmul a1 11 ^^^ gmul a2 13 ^^^ gmul a3 9)
    (gmul a0 9 ^^^ gmul a1 14 ^^^ gmul a2 11 ^^^ gmul a3 13) (gmul a0 13 ^^^ gmul a1 9 ^^^ gmul a2 14 ^^^ gmul a3 11)
    (gmul a0 11 ^^^ gmul a1 13 ^^^ gmul a2 9 ^^^ gmul a3 14)

def invMixColumns (state : AesState) : AesState := forUpTo invMixColumn 4 state

/-- One turn of `add_round_key`, whose assignments touch four different entries. -/
def addKeyWord (key : Nat → UInt32) (i : Nat) (state : AesState) : AesState :=
  setFour state i (entry state i ^^^ ((key i >>> 24) &&& 0xFF).toUInt8)
    (entry state (i + 4) ^^^ ((key i >>> 16) &&& 0xFF).toUInt8)
    (entry state (i + 8) ^^^ ((key i >>> 8) &&& 0xFF).toUInt8)
    (entry state (i + 12) ^^^ (key i &&& 0xFF).toUInt8)

def addRoundKey (key : Nat → UInt32) (state : AesState) : AesState := forUpTo (addKeyWord key) 4 state

/-! ## Blocks -/

/-- `&ctx->round_keys[round * 4]`. -/
def Aes256Ctx.keyOf (ctx : Aes256Ctx) (round i : Nat) : UInt32 := entry ctx.roundKeys (round * 4 + i)

/-- The loop of `aes256_encrypt_block`: `n` rounds from the first on. -/
def encryptRounds (ctx : Aes256Ctx) (n : Nat) (state : AesState) : AesState :=
  forUpTo (fun i state => addRoundKey (ctx.keyOf (1 + i)) (mixColumns (shiftRows (subBytes state)))) n state

/-- The loop of `aes256_decrypt_block`: `n` rounds from round `nr - 1` down. -/
def decryptRounds (ctx : Aes256Ctx) (n : Nat) (state : AesState) : AesState :=
  forUpTo (fun i state =>
    invMixColumns (addRoundKey (ctx.keyOf (ctx.nr - 1 - i)) (invSubBytes (invShiftRows state)))) n state

/-- The copies of the block into `state` and out of it are left out. -/
def aes256EncryptBlock (ctx : Aes256Ctx) (state : AesState) : AesState :=
  let state := addRoundKey (ctx.keyOf 0) state
  let state := encryptRounds ctx (ctx.nr - 1) state
  addRoundKey (ctx.keyOf ctx.nr) (shiftRows (subBytes state))

def aes256DecryptBlock (ctx : Aes256Ctx) (state : AesState) : AesState :=
  let state := addRoundKey (ctx.keyOf ctx.nr) state
  let state := decryptRounds ctx (ctx.nr - 1) state
  addRoundKey (ctx.keyOf 0) (invSubBytes (invShiftRows state))

end AmqOs.Cryptography
