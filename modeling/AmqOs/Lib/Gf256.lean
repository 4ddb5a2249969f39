import Mathlib

/-!
# Bytes as elements of GF(2⁸)

A byte is a polynomial over GF(2) modulo `x⁸ + x⁴ + x³ + x + 1`, and the sum of two bytes is their exclusive or.

- `xtime a`: the product with `x`, and `mul a b`: the sum of the `xⁱ • a` over the bits `i` of `b`;
- `mul` distributes over sums on the left (`mul_xor`), so an identity between sums of products is one identity for each
  variable, which is decided over the 256 bytes (`forall_byte`);
- `mulLoop`: the product as a loop that halves `b` and doubles `a` (`mulLoop_eq`), on bytes and on numbers (`toNat_mul`).
-/

set_option autoImplicit false

namespace AmqOs.Lib

/-- A decidable property of bytes is decided by its 256 cases. -/
theorem forall_byte {P : UInt8 → Prop} (h : ∀ n < 256, P (UInt8.ofNat n)) (b : UInt8) : P b := by
  have hb := h b.toNat b.toNat_lt
  rwa [UInt8.ofNat_toNat] at hb

namespace Gf256

/-- `x • a`. -/
def xtime (a : UInt8) : UInt8 := if a &&& 0x80 ≠ 0 then (a <<< 1) ^^^ 0x1b else a <<< 1

/-- The sum of the `xⁱ • a` over the bits `i < n` of `b`. -/
def mulBits (a b : UInt8) : Nat → UInt8
  | 0 => 0
  | n + 1 => mulBits a b n ^^^ (if b.toNat.testBit n then xtime^[n] a else 0)

/-- `a • b`. -/
def mul (a b : UInt8) : UInt8 := mulBits a b 8

/-- `a²⁵⁴ = a² • a⁴ • … • a¹²⁸`, which is the inverse of `a`, and `0` for `0`. -/
def inverse (a : UInt8) : UInt8 :=
  let a2 := mul a a
  let a4 := mul a2 a2
  let a8 := mul a4 a4
  let a16 := mul a8 a8
  let a32 := mul a16 a16
  let a64 := mul a32 a32
  let a128 := mul a64 a64
  mul a2 (mul a4 (mul a8 (mul a16 (mul a32 (mul a64 a128)))))

/-! ## Products of sums -/

theorem high_bit (a : UInt8) : a &&& 0x80 = 0 ∨ a &&& 0x80 = 0x80 := by
  revert a
  apply forall_byte
  decide +kernel

theorem high_ne_zero : (0x80 : UInt8) ≠ 0 := by decide

theorem xtime_xor (a b : UInt8) : xtime (a ^^^ b) = xtime a ^^^ xtime b := by
  have hand : (a ^^^ b) &&& 0x80 = (a &&& 0x80) ^^^ (b &&& 0x80) := by
    apply UInt8.toNat_inj.mp
    simp only [UInt8.toNat_and, UInt8.toNat_xor, Nat.and_xor_distrib_right]
  have hshift : (a ^^^ b) <<< 1 = (a <<< 1) ^^^ (b <<< 1) := UInt8.shiftLeft_xor
  unfold xtime
  rw [hand, hshift]
  rcases high_bit a with ha | ha <;> rcases high_bit b with hb | hb <;>
    simp only [ha, hb, UInt8.xor_self, UInt8.xor_zero, UInt8.zero_xor, ne_eq, not_true_eq_false, if_false, high_ne_zero,
      not_false_eq_true, if_true]
  · ac_rfl
  · ac_rfl
  -- The two carries cancel.
  · rw [← UInt8.xor_zero (a := (a <<< 1) ^^^ (b <<< 1)), ← UInt8.xor_self (a := 0x1b)]
    ac_rfl

theorem iterate_xtime_xor (n : Nat) (a b : UInt8) : xtime^[n] (a ^^^ b) = xtime^[n] a ^^^ xtime^[n] b := by
  induction n generalizing a b with
  | zero => rfl
  | succ n ih => rw [Function.iterate_succ_apply, xtime_xor, ih, Function.iterate_succ_apply, Function.iterate_succ_apply]

theorem mulBits_xor (a b c : UInt8) (n : Nat) : mulBits (a ^^^ b) c n = mulBits a c n ^^^ mulBits b c n := by
  induction n with
  | zero => exact UInt8.xor_self.symm
  | succ n ih =>
    simp only [mulBits, ih, iterate_xtime_xor]
    split
    · ac_rfl
    · simp

@[simp] theorem mul_xor (a b c : UInt8) : mul (a ^^^ b) c = mul a c ^^^ mul b c := mulBits_xor a b c 8

/-! ## The product as a loop -/

/-- `n` turns of a loop that adds `a` where `b` is odd, doubles `a` and halves `b`. -/
def mulLoop : Nat → UInt8 → UInt8 → UInt8 → UInt8
  | 0, p, _, _ => p
  | n + 1, p, a, b => mulLoop n (if b &&& 1 ≠ 0 then p ^^^ a else p) (xtime a) (b >>> 1)

theorem odd_iff (b : UInt8) : b &&& 1 ≠ 0 ↔ b.toNat.testBit 0 = true := by
  revert b
  apply forall_byte
  decide +kernel

theorem mulBits_succ (a b : UInt8) (n : Nat) :
    mulBits a b (n + 1) = (if b &&& 1 ≠ 0 then a else 0) ^^^ mulBits (xtime a) (b >>> 1) n := by
  induction n with
  | zero => simp [mulBits, odd_iff]
  | succ n ih =>
    have hbit : b.toNat.testBit (n + 1) = (b >>> 1).toNat.testBit n := by
      rw [UInt8.toNat_shiftRight, Nat.testBit_shiftRight, Nat.add_comm]
      rfl
    rw [mulBits, ih, mulBits, UInt8.xor_assoc, hbit, Function.iterate_succ_apply]

theorem mulLoop_eq (n : Nat) (p a b : UInt8) : mulLoop n p a b = p ^^^ mulBits a b n := by
  induction n generalizing p a b with
  | zero => simp [mulLoop, mulBits]
  | succ n ih =>
    rw [mulLoop, ih, mulBits_succ]
    split
    · rw [UInt8.xor_assoc]
    · rw [UInt8.zero_xor]

theorem mul_eq (a b : UInt8) : mul a b = mulLoop 8 0 a b := by
  rw [mulLoop_eq, UInt8.zero_xor, mul]

/-! ## Products of numbers

The same loop on natural numbers, which evaluates faster: a fact about all 256 bytes is decided on the numbers below 256.
-/

def xtimeNat (a : Nat) : Nat := bif Nat.ble 128 a then (2 * a) ^^^ 0x11b else 2 * a

def mulLoopNat : Nat → Nat → Nat → Nat → Nat
  | 0, p, _, _ => p
  | n + 1, p, a, b => mulLoopNat n (bif Nat.beq (b % 2) 1 then p ^^^ a else p) (xtimeNat a) (b / 2)

def mulNat (a b : Nat) : Nat := mulLoopNat 8 0 a b

def inverseNat (a : Nat) : Nat :=
  let a2 := mulNat a a
  let a4 := mulNat a2 a2
  let a8 := mulNat a4 a4
  let a16 := mulNat a8 a8
  let a32 := mulNat a16 a16
  let a64 := mulNat a32 a32
  let a128 := mulNat a64 a64
  mulNat a2 (mulNat a4 (mulNat a8 (mulNat a16 (mulNat a32 (mulNat a64 a128)))))

theorem toNat_xtime (a : UInt8) : (xtime a).toNat = xtimeNat a.toNat := by
  revert a
  apply forall_byte
  decide +kernel

theorem toNat_mulLoop (n : Nat) (p a b : UInt8) :
    (mulLoop n p a b).toNat = mulLoopNat n p.toNat a.toNat b.toNat := by
  induction n generalizing p a b with
  | zero => rfl
  | succ n ih =>
    have hhalf : (b >>> 1).toNat = b.toNat / 2 := by
      rw [UInt8.toNat_shiftRight, Nat.shiftRight_eq_div_pow]
      rfl
    have hodd : b &&& 1 ≠ 0 ↔ b.toNat % 2 = 1 := by
      rw [odd_iff, Nat.testBit_zero, decide_eq_true_eq]
    rw [mulLoop, mulLoopNat, ih, toNat_xtime, hhalf]
    by_cases hb : b.toNat % 2 = 1
    · rw [if_pos (hodd.mpr hb), hb, Nat.beq_refl, cond_true, UInt8.toNat_xor]
    · have hbeq : Nat.beq (b.toNat % 2) 1 = false := Bool.eq_false_iff.mpr fun h => hb (Nat.eq_of_beq_eq_true h)
      rw [if_neg (fun h => hb (hodd.mp h)), hbeq, cond_false]

theorem toNat_mul (a b : UInt8) : (mul a b).toNat = mulNat a.toNat b.toNat := by
  rw [mul_eq, toNat_mulLoop]
  rfl

theorem toNat_inverse (a : UInt8) : (inverse a).toNat = inverseNat a.toNat := by
  simp only [inverse, inverseNat, toNat_mul]

end Gf256

end AmqOs.Lib
