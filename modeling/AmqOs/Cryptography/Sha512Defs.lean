import AmqOs.Cryptography.Fips180

/-!
# SHA-512: the streaming hash

`sha512_init`, `sha512_update`, `sha512_final` and `sha512_hash`. The hash words `state[8]` and the locals `a` to `h` of
`sha512_transform` are a `Hash`; a pointer to the data of a block is the list of its bytes.
-/

set_option autoImplicit false

namespace AmqOs.Cryptography

open Lib
open Fips180 (Hash)

/-- `K`. -/
def kTable : List UInt64 := [
  0x428a2f98d728ae22, 0x7137449123ef65cd, 0xb5c0fbcfec4d3b2f, 0xe9b5dba58189dbbc,
  0x3956c25bf348b538, 0x59f111f1b605d019, 0x923f82a4af194f9b, 0xab1c5ed5da6d8118,
  0xd807aa98a3030242, 0x12835b0145706fbe, 0x243185be4ee4b28c, 0x550c7dc3d5ffb4e2,
  0x72be5d74f27b896f, 0x80deb1fe3b1696b1, 0x9bdc06a725c71235, 0xc19bf174cf692694,
  0xe49b69c19ef14ad2, 0xefbe4786384f25e3, 0x0fc19dc68b8cd5b5, 0x240ca1cc77ac9c65,
  0x2de92c6f592b0275, 0x4a7484aa6ea6e483, 0x5cb0a9dcbd41fbd4, 0x76f988da831153b5,
  0x983e5152ee66dfab, 0xa831c66d2db43210, 0xb00327c898fb213f, 0xbf597fc7beef0ee4,
  0xc6e00bf33da88fc2, 0xd5a79147930aa725, 0x06ca6351e003826f, 0x142929670a0e6e70,
  0x27b70a8546d22ffc, 0x2e1b21385c26c926, 0x4d2c6dfc5ac42aed, 0x53380d139d95b3df,
  0x650a73548baf63de, 0x766a0abb3c77b2a8, 0x81c2c92e47edaee6, 0x92722c851482353b,
  0xa2bfe8a14cf10364, 0xa81a664bbc423001, 0xc24b8b70d0f89791, 0xc76c51a30654be30,
  0xd192e819d6ef5218, 0xd69906245565a910, 0xf40e35855771202a, 0x106aa07032bbd1b8,
  0x19a4c116b8d2d0c8, 0x1e376c085141ab53, 0x2748774cdf8eeb99, 0x34b0bcb5e19b48a8,
  0x391c0cb3c5c95a63, 0x4ed8aa4ae3418acb, 0x5b9cca4f7763e373, 0x682e6ff3d6b2b8a3,
  0x748f82ee5defb2fc, 0x78a5636f43172f60, 0x84c87814a1f0ab72, 0x8cc702081a6439ec,
  0x90befffa23631e28, 0xa4506cebde82bde9, 0xbef9a3f7b2c67915, 0xc67178f2e372532b,
  0xca273eceea26619c, 0xd186b8c721c0c207, 0xeada7dd6cde0eb1e, 0xf57d4f7fee6ed178,
  0x06f067aa72176fba, 0x0a637dc5a2c898a6, 0x113f9804bef90dae, 0x1b710b35131c471b,
  0x28db77f523047d84, 0x32caab7b40c72493, 0x3c9ebe0a15c9bebc, 0x431d67c49c100d4c,
  0x4cc5d4becb3e42b6, 0x597f299cfc657e2a, 0x5fcb6fab3ad6faec, 0x6c44198c4a475817]

/-! ## One block -/

def ror64 (x n : UInt64) : UInt64 := (x >>> n) ||| (x <<< (64 - n))

def CH (x y z : UInt64) : UInt64 := (x &&& y) ^^^ (~~~x &&& z)

def MAJ (x y z : UInt64) : UInt64 := (x &&& y) ^^^ (x &&& z) ^^^ (y &&& z)

def SIGMA0 (x : UInt64) : UInt64 := ror64 x 28 ^^^ ror64 x 34 ^^^ ror64 x 39

def SIGMA1 (x : UInt64) : UInt64 := ror64 x 14 ^^^ ror64 x 18 ^^^ ror64 x 41

def GAMMA0 (x : UInt64) : UInt64 := ror64 x 1 ^^^ ror64 x 8 ^^^ (x >>> 7)

def GAMMA1 (x : UInt64) : UInt64 := ror64 x 19 ^^^ ror64 x 61 ^^^ (x >>> 6)

/-- `data[i]`, as a 64-bit number. -/
def wide (data : List UInt8) (i : Nat) : UInt64 := (data.getD i 0).toUInt64

def loadWord (data : List UInt8) (i : Nat) : UInt64 :=
  (wide data (i * 8 + 0) <<< 56) ||| (wide data (i * 8 + 1) <<< 48) ||| (wide data (i * 8 + 2) <<< 40) |||
    (wide data (i * 8 + 3) <<< 32) ||| (wide data (i * 8 + 4) <<< 24) ||| (wide data (i * 8 + 5) <<< 16) |||
    (wide data (i * 8 + 6) <<< 8) ||| wide data (i * 8 + 7)

/-- The two loops that fill `W`. -/
def fillW (data : List UInt8) (w : Vector UInt64 80) : Vector UInt64 80 :=
  let w := forUpTo (fun i w => put w i (loadWord data i)) 16 w
  forUpTo (fun i w => put w (16 + i)
    (GAMMA1 (entry w (16 + i - 2)) + entry w (16 + i - 7) + GAMMA0 (entry w (16 + i - 15)) + entry w (16 + i - 16))) 64 w

def sha512Round (w : Vector UInt64 80) (i : Nat) (v : Hash) : Hash :=
  let t1 := v.h + SIGMA1 v.e + CH v.e v.f v.g + kTable.getD i 0 + entry w i
  let t2 := SIGMA0 v.a + MAJ v.a v.b v.c
  let h := v.g
  let g := v.f
  let f := v.e
  let e := v.d + t1
  let d := v.c
  let c := v.b
  let b := v.a
  let a := t1 + t2
  ⟨a, b, c, d, e, f, g, h⟩

def sha512Transform (state : Hash) (data : List UInt8) : Hash :=
  let w := fillW data (Vector.replicate 80 0)
  let v := forUpTo (sha512Round w) 80 state
  ⟨state.a + v.a, state.b + v.b, state.c + v.c, state.d + v.d, state.e + v.e, state.f + v.f, state.g + v.g,
    state.h + v.h⟩

/-! ## The stream -/

/-- `sha512_ctx_t`; `count0` is the low word of the bit counter. -/
structure Sha512Ctx where
  state : Hash
  count0 : UInt64
  count1 : UInt64
  buffer : Vector UInt8 128

/-- The words that `sha512_init` stores in `state`. -/
def initState : Hash where
  a := 0x6a09e667f3bcc908
  b := 0xbb67ae8584caa73b
  c := 0x3c6ef372fe94f82b
  d := 0xa54ff53a5f1d36f1
  e := 0x510e527fade682d1
  f := 0x9b05688c2b3e6c1f
  g := 0x1f83d9abfb41bd6b
  h := 0x5be0cd19137e2179

def sha512Init (ctx : Sha512Ctx) : Sha512Ctx := { ctx with state := initState, count0 := 0, count1 := 0 }

/-- `(ctx->count[0] >> 3) % SHA512_BLOCK_SIZE`. -/
def Sha512Ctx.index (ctx : Sha512Ctx) : Nat := ((ctx.count0 >>> 3) % 128).toNat

/-- The bit counter is advanced by `len` bytes. -/
def Sha512Ctx.addCount (ctx : Sha512Ctx) (len : UInt64) : Sha512Ctx :=
  let count0 := ctx.count0 + (len <<< 3)
  let count1 := if count0 < len <<< 3 then ctx.count1 + 1 else ctx.count1
  { ctx with count0 := count0, count1 := count1 + (len >>> 61) }

/-- `n` bytes of `data` from `i` on are copied to `buffer[index]`. -/
def copyIn (buffer : Vector UInt8 128) (index : Nat) (data : List UInt8) (i n : Nat) : Vector UInt8 128 :=
  forUpTo (fun k buffer => put buffer (index + k) (data.getD (i + k) 0)) n buffer

/-- The loop over the blocks of `data`, whose test is made in `size_t`; `none` when it is still running after `fuel`
turns. -/
def transformLoop (data : List UInt8) : Nat → Nat → Hash → Option (Hash × Nat)
  | 0, _, _ => none
  | fuel + 1, i, state =>
    if (i + 128) % 2 ^ 64 ≤ data.length then
      transformLoop data fuel ((i + 128) % 2 ^ 64) (sha512Transform state ((data.drop i).take 128))
    else some (state, i)

/-- `sha512_update`; the loop gets more turns than `data` has blocks. -/
def sha512Update (ctx : Sha512Ctx) (data : List UInt8) : Option Sha512Ctx := do
  let len := data.length
  let index := ctx.index
  let ctx := ctx.addCount (UInt64.ofNat len)
  let partLen := 128 - index
  if partLen ≤ len then
    let buffer := copyIn ctx.buffer index data 0 partLen
    let state := sha512Transform ctx.state buffer.toList
    let (state, i) ← transformLoop data (len / 128 + 1) partLen state
    some { ctx with state := state, buffer := copyIn buffer 0 data i (len - i) }
  else some { ctx with buffer := copyIn ctx.buffer index data 0 len }

/-- The bytes of a word, the highest first. -/
def wordToBytes (w : UInt64) : List UInt8 :=
  (List.range 8).map fun i => ((w >>> UInt64.ofNat (56 - i * 8)) &&& 0xFF).toUInt8

def sha512Final (ctx : Sha512Ctx) : Option (List UInt8) := do
  let bits := wordToBytes ctx.count1 ++ wordToBytes ctx.count0
  let index := ctx.index
  let padLen := if index < 112 then 112 - index else 240 - index
  let padding := 0x80 :: List.replicate (padLen - 1) 0
  let ctx ← sha512Update ctx padding
  let ctx ← sha512Update ctx bits
  some (ctx.state.words.flatMap wordToBytes)

/-- `sha512_update` on one piece after the other. -/
def sha512Updates (ctx : Sha512Ctx) (pieces : List (List UInt8)) : Option Sha512Ctx := pieces.foldlM sha512Update ctx

def sha512Hash (ctx : Sha512Ctx) (data : List UInt8) : Option (List UInt8) := do
  let ctx ← sha512Update (sha512Init ctx) data
  sha512Final ctx

end AmqOs.Cryptography
