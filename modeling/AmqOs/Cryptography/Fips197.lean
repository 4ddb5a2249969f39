import AmqOs.Lib.Gf256
import AmqOs.Lib.Loop

/-!
# AES-256 as FIPS-197 defines it

Words are four bytes and the state is four words, its columns, filled one after the other. The algorithms `KeyExpansion`
and `Cipher` are written for `Nk = 8` and `Nr = 14`.

The same transformations of words are also applied to the rows of a state (`rowCipher`): this is no part of the standard.
-/

set_option autoImplicit false

namespace AmqOs.Fips197

open Lib Lib.Gf256

/-! ## Words -/

@[ext] structure Word where
  b0 : UInt8
  b1 : UInt8
  b2 : UInt8
  b3 : UInt8
  deriving DecidableEq, Inhabited

instance : XorOp Word where
  xor v w := ⟨v.b0 ^^^ w.b0, v.b1 ^^^ w.b1, v.b2 ^^^ w.b2, v.b3 ^^^ w.b3⟩

theorem Word.xor_def (v w : Word) : v ^^^ w = ⟨v.b0 ^^^ w.b0, v.b1 ^^^ w.b1, v.b2 ^^^ w.b2, v.b3 ^^^ w.b3⟩ := rfl

instance : Finite Word := by
  apply Finite.of_injective (fun w : Word => (w.b0, w.b1, w.b2, w.b3))
  intro v w h
  simp only [Prod.mk.injEq] at h
  exact Word.ext h.1 h.2.1 h.2.2.1 h.2.2.2

def Word.map (f : UInt8 → UInt8) (w : Word) : Word := ⟨f w.b0, f w.b1, f w.b2, f w.b3⟩

/-- The word of the bytes `i, i + d, i + 2 * d, i + 3 * d` of a block. -/
def wordAt {n : Nat} (b : Vector UInt8 n) (i d : Nat) : Word :=
  ⟨entry b i, entry b (i + d), entry b (i + 2 * d), entry b (i + 3 * d)⟩

/-- `ROTWORD`. -/
def rotWord (w : Word) : Word := ⟨w.b1, w.b2, w.b3, w.b0⟩

/-! ## The S-box -/

/-- Bit `i` of the sum of the affine transformation: `bᵢ + bᵢ₊₄ + bᵢ₊₅ + bᵢ₊₆ + bᵢ₊₇ + cᵢ`. -/
def affineBit (b i : Nat) : Bool :=
  b.testBit i ^^ b.testBit ((i + 4) % 8) ^^ b.testBit ((i + 5) % 8) ^^ b.testBit ((i + 6) % 8) ^^
    b.testBit ((i + 7) % 8) ^^ Nat.testBit 0x63 i

def affine (b : Nat) : Nat := (List.range 8).foldr (fun i n => (affineBit b i).toNat + 2 * n) 0

/-- The inverse in GF(2⁸), then the affine transformation. -/
def sBox (b : UInt8) : UInt8 := UInt8.ofNat (affine (inverse b).toNat)

/-- `SUBWORD`. -/
def subWord (w : Word) : Word := w.map sBox

/-! ## Key expansion -/

/-- `Rcon[j] = [xʲ⁻¹, 0, 0, 0]`. -/
def rcon (j : Nat) : Word := ⟨xtime^[j - 1] 1, 0, 0, 0⟩

/-- `w[i]` for `i ≥ Nk`. -/
def nextWord (w : Vector Word 60) (i : Nat) : Word :=
  let temp := entry w (i - 1)
  entry w (i - 8) ^^^
    (if i % 8 = 0 then subWord (rotWord temp) ^^^ rcon (i / 8)
    else if i % 8 = 4 then subWord temp
    else temp)

/-- The first loop of `KEYEXPANSION`. -/
def loadKey (key : Vector UInt8 32) : Vector Word 60 :=
  forUpTo (fun i w => put w i (wordAt key (4 * i) 1)) 8 (Vector.replicate 60 default)

/-- `KEYEXPANSION`. -/
def keyExpansion (key : Vector UInt8 32) : Vector Word 60 :=
  forUpTo (fun i w => put w (8 + i) (nextWord w (8 + i))) 52 (loadKey key)

/-! ## The cipher -/

/-- The four columns. -/
structure State where
  c0 : Word
  c1 : Word
  c2 : Word
  c3 : Word
  deriving DecidableEq

def State.map (f : Word → Word) (s : State) : State := ⟨f s.c0, f s.c1, f s.c2, f s.c3⟩

def subBytes (s : State) : State := s.map (Word.map sBox)

/-- Row `r` is shifted `r` places to the left. -/
def shiftRows (s : State) : State where
  c0 := ⟨s.c0.b0, s.c1.b1, s.c2.b2, s.c3.b3⟩
  c1 := ⟨s.c1.b0, s.c2.b1, s.c3.b2, s.c0.b3⟩
  c2 := ⟨s.c2.b0, s.c3.b1, s.c0.b2, s.c1.b3⟩
  c3 := ⟨s.c3.b0, s.c0.b1, s.c1.b2, s.c2.b3⟩

/-- The product of a word with the matrix of `MIXCOLUMNS`. -/
def mixWord (w : Word) : Word where
  b0 := mul w.b0 2 ^^^ mul w.b1 3 ^^^ w.b2 ^^^ w.b3
  b1 := w.b0 ^^^ mul w.b1 2 ^^^ mul w.b2 3 ^^^ w.b3
  b2 := w.b0 ^^^ w.b1 ^^^ mul w.b2 2 ^^^ mul w.b3 3
  b3 := mul w.b0 3 ^^^ w.b1 ^^^ w.b2 ^^^ mul w.b3 2

def mixColumns (s : State) : State := s.map mixWord

/-- The words of a round are added to the columns. -/
def addRoundKey (w : Vector Word 60) (round : Nat) (s : State) : State :=
  ⟨s.c0 ^^^ entry w (round * 4), s.c1 ^^^ entry w (round * 4 + 1), s.c2 ^^^ entry w (round * 4 + 2),
    s.c3 ^^^ entry w (round * 4 + 3)⟩

/-- `CIPHER`, on the state. -/
def cipherState (w : Vector Word 60) (s : State) : State :=
  let s := addRoundKey w 0 s
  let s := forUpTo (fun i s => addRoundKey w (1 + i) (mixColumns (shiftRows (subBytes s)))) 13 s
  addRoundKey w 14 (shiftRows (subBytes s))

def State.ofBlock (b : Vector UInt8 16) : State := ⟨wordAt b 0 1, wordAt b 4 1, wordAt b 8 1, wordAt b 12 1⟩

def Word.toList (w : Word) : List UInt8 := [w.b0, w.b1, w.b2, w.b3]

def State.toBlock (s : State) : Vector UInt8 16 where
  toArray := (s.c0.toList ++ s.c1.toList ++ s.c2.toList ++ s.c3.toList).toArray
  size_toArray := rfl

/-- The ciphertext of a block. -/
def cipher (key : Vector UInt8 32) (b : Vector UInt8 16) : Vector UInt8 16 :=
  (cipherState (keyExpansion key) (State.ofBlock b)).toBlock

/-! ## Ciphers of rows -/

/-- One round of `rowCipher`, without its key. -/
def shiftSub (r : Nat) (q : Word) : Word := rotWord^[r] (subWord q)

/-- The steps of `CIPHER` on the word in row `r` alone: the matrix is applied to the row, and word `r` of the round is added
to it. -/
def rowCipher (w : Vector Word 60) (r : Nat) (q : Word) : Word :=
  let q := q ^^^ entry w r
  let q := forUpTo (fun i q => mixWord (shiftSub r q) ^^^ entry w ((1 + i) * 4 + r)) 13 q
  shiftSub r q ^^^ entry w (14 * 4 + r)

end AmqOs.Fips197
