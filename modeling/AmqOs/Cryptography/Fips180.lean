import AmqOs.Lib.Blocks
import AmqOs.Lib.Loop

/-!
# SHA-512 as FIPS 180-4 defines it

For messages of whole bytes: the padding, the message schedule, the compression of a block, and the digest. The constants
are not listed but computed, as the first 64 bits of the fractional parts of roots of primes.
-/

set_option autoImplicit false

namespace AmqOs.Fips180

open Lib

/-! ## Functions and constants -/

def rotr (n x : UInt64) : UInt64 := (x >>> n) ||| (x <<< (64 - n))

def ch (x y z : UInt64) : UInt64 := (x &&& y) ^^^ (~~~x &&& z)

def maj (x y z : UInt64) : UInt64 := (x &&& y) ^^^ (x &&& z) ^^^ (y &&& z)

/-- `Σ₀`. -/
def bigSigma0 (x : UInt64) : UInt64 := rotr 28 x ^^^ rotr 34 x ^^^ rotr 39 x

/-- `Σ₁`. -/
def bigSigma1 (x : UInt64) : UInt64 := rotr 14 x ^^^ rotr 18 x ^^^ rotr 41 x

/-- `σ₀`. -/
def sigma0 (x : UInt64) : UInt64 := rotr 1 x ^^^ rotr 8 x ^^^ (x >>> 7)

/-- `σ₁`. -/
def sigma1 (x : UInt64) : UInt64 := rotr 19 x ^^^ rotr 61 x ^^^ (x >>> 6)

/-- The first 80 primes. -/
def primes : List Nat := [
  2, 3, 5, 7, 11, 13, 17, 19, 23, 29, 31, 37, 41, 43, 47, 53, 59, 61, 67, 71,
  73, 79, 83, 89, 97, 101, 103, 107, 109, 113, 127, 131, 137, 139, 149, 151, 157, 163, 167, 173,
  179, 181, 191, 193, 197, 199, 211, 223, 227, 229, 233, 239, 241, 251, 257, 263, 269, 271, 277, 281,
  283, 293, 307, 311, 313, 317, 331, 337, 347, 349, 353, 359, 367, 373, 379, 383, 389, 397, 401, 409]

/-- The first 64 bits of the fractional part of the `e`-th root of `p`. -/
def rootFrac (e p : Nat) : UInt64 := UInt64.ofNat (Nat.nthRoot e (p * 2 ^ (64 * e)))

/-- `Kₜ`: the cube roots of the first 80 primes. -/
def roundConst (t : Nat) : UInt64 := rootFrac 3 (primes.getD t 0)

/-- The eight words of a hash value, and the working variables. -/
structure Hash where
  a : UInt64
  b : UInt64
  c : UInt64
  d : UInt64
  e : UInt64
  f : UInt64
  g : UInt64
  h : UInt64
  deriving DecidableEq, Inhabited

/-- `H⁽⁰⁾`: the square roots of the first eight primes. -/
def initialHash : Hash :=
  let w i := rootFrac 2 (primes.getD i 0)
  ⟨w 0, w 1, w 2, w 3, w 4, w 5, w 6, w 7⟩

/-! ## Padding -/

/-- The low `k` bytes of a number, the highest first. -/
def bytesBE : Nat → Nat → List UInt8
  | 0, _ => []
  | k + 1, n => bytesBE k (n / 256) ++ [UInt8.ofNat n]

/-- The number of zero bytes between `0x80` and the length: the least that fills up to 112 modulo 128. -/
def padZeros (len : Nat) : Nat := (239 - len % 128) % 128

def pad (msg : List UInt8) : List UInt8 :=
  msg ++ 0x80 :: List.replicate (padZeros msg.length) 0 ++ bytesBE 16 (8 * msg.length)

/-! ## Compression -/

def wordBE (l : List UInt8) : UInt64 := l.foldl (fun w b => (w <<< 8) ||| b.toUInt64) 0

/-- `M₀, …, M₁₅`. -/
def blockWords (block : List UInt8) : List UInt64 := (List.range 16).map fun i => wordBE ((block.drop (8 * i)).take 8)

/-- The next word of the schedule, `i` words after `M₁₅`. -/
def nextWord (w : List UInt64) (i : Nat) : UInt64 :=
  sigma1 (w.getD (i + 14) 0) + w.getD (i + 9) 0 + sigma0 (w.getD (i + 1) 0) + w.getD i 0

/-- `W₀, …, W₇₉`. -/
def schedule (block : List UInt8) : List UInt64 := forUpTo (fun i w => w ++ [nextWord w i]) 64 (blockWords block)

/-- One turn of the main loop, with `Kₜ` and `Wₜ`. -/
def step (k w : UInt64) (v : Hash) : Hash :=
  let t1 := v.h + bigSigma1 v.e + ch v.e v.f v.g + k + w
  let t2 := bigSigma0 v.a + maj v.a v.b v.c
  ⟨t1 + t2, v.a, v.b, v.c, v.d + t1, v.e, v.f, v.g⟩

def compress (hash : Hash) (block : List UInt8) : Hash :=
  let w := schedule block
  let v := forUpTo (fun t v => step (roundConst t) (w.getD t 0) v) 80 hash
  ⟨v.a + hash.a, v.b + hash.b, v.c + hash.c, v.d + hash.d, v.e + hash.e, v.f + hash.f, v.g + hash.g, v.h + hash.h⟩

def Hash.words (v : Hash) : List UInt64 := [v.a, v.b, v.c, v.d, v.e, v.f, v.g, v.h]

def sha512 (msg : List UInt8) : List UInt8 :=
  (absorb 128 compress initialHash (pad msg)).words.flatMap fun w => bytesBE 8 w.toNat

end AmqOs.Fips180
