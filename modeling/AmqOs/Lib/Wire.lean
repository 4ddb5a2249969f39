import AmqOs.Lib.ByteMem

/-!
# Words on the wire

`slice m a n` is the list of the `n` bytes at `a`. A slice that is a concatenation is cut by `slice_eq_append`, and a word
is read off the slice of its bytes (`load16_of_slice`, `load32_of_slice`). `swap16` and `swap32` change the byte order;
`swap16` undoes itself.
-/

set_option autoImplicit false

namespace AmqOs.Lib

/-! ## Byte order -/

/-- The two bytes of a word in the other order. -/
def swap16 (n : UInt16) : UInt16 := ((n &&& 0xFF) <<< 8) ||| ((n >>> 8) &&& 0xFF)

/-- The four bytes of a word in the other order. -/
def swap32 (n : UInt32) : UInt32 :=
  ((n &&& 0xFF) <<< 24) ||| ((n &&& 0xFF00) <<< 8) ||| ((n >>> 8) &&& (0xFF00 : UInt32)) ||| ((n >>> 24) &&& (0xFF : UInt32))

theorem toNat_swap16 (n : UInt16) : (swap16 n).toNat = n.toNat % 256 * 256 + n.toNat / 256 := by
  have hn := n.toNat_lt
  have hlow : n.toNat &&& 255 = n.toNat % 256 := Nat.and_two_pow_sub_one_eq_mod n.toNat 8
  have hhigh : n.toNat >>> 8 &&& 255 = n.toNat / 256 := by
    rw [Nat.shiftRight_eq_div_pow, show 255 = 2 ^ 8 - 1 from rfl, Nat.and_two_pow_sub_one_eq_mod]
    omega
  have hshift : (n.toNat % 256) <<< 8 % 2 ^ 16 = (n.toNat % 256) <<< 8 := by
    rw [Nat.shiftLeft_eq]
    omega
  simp only [swap16, UInt16.toNat_or, UInt16.toNat_shiftLeft, UInt16.toNat_shiftRight, UInt16.toNat_and,
    UInt16.reduceToNat, Nat.reduceMod]
  rw [hlow, hhigh, hshift, ← Nat.shiftLeft_add_eq_or_of_lt (by omega), Nat.shiftLeft_eq]

theorem swap16_swap16 (n : UInt16) : swap16 (swap16 n) = n := by
  apply UInt16.toNat_inj.mp
  have hn := n.toNat_lt
  rw [toNat_swap16, toNat_swap16]
  omega

/-- The bytes of a word, the low one first. -/
def bytes16 (v : UInt16) : List UInt8 := [v.toUInt8, (v >>> 8).toUInt8]

/-- The bytes of a word, the low one first. -/
def bytes32 (v : UInt32) : List UInt8 := [v.toUInt8, (v >>> 8).toUInt8, (v >>> 16).toUInt8, (v >>> 24).toUInt8]

namespace Mem

/-! ## Slices of memory -/

variable {m : Mem} {a n : Nat}

/-- The `n` bytes at `a`. -/
def slice (m : Mem) : Nat → Nat → List UInt8
  | _, 0 => []
  | a, n + 1 => m a :: slice m (a + 1) n

/-- The bytes of a buffer, as a memory of their own. -/
def ofList (l : List UInt8) : Mem := fun a => l.getD a 0

/-- The 16-bit word at `a`. -/
def load16 (m : Mem) (a : Nat) : UInt16 := UInt16.ofNat (loadLE m a 2)

@[simp] theorem length_slice : (slice m a n).length = n := by
  induction n generalizing a with
  | zero => rfl
  | succ n ih => simp [slice, ih]

theorem slice_add {k : Nat} : slice m a (k + n) = slice m a k ++ slice m (a + k) n := by
  induction k generalizing a with
  | zero => simp [slice]
  | succ k ih =>
    rw [Nat.add_right_comm, slice, ih, slice, List.cons_append, Nat.add_assoc a 1 k, Nat.add_comm 1 k]

theorem slice_update {k : Nat} {b : UInt8} (h : a + n ≤ k) : slice (Function.update m k b) a n = slice m a n := by
  induction n generalizing a with
  | zero => rfl
  | succ n ih => rw [slice, slice, ih (by omega), Function.update_of_ne (by omega)]

theorem slice_eq_append {l₁ l₂ : List UInt8} :
    slice m a (l₁ ++ l₂).length = l₁ ++ l₂ ↔ slice m a l₁.length = l₁ ∧ slice m (a + l₁.length) l₂.length = l₂ := by
  rw [List.length_append, slice_add]
  constructor
  · intro h
    exact List.append_inj h length_slice
  · rintro ⟨h₁, h₂⟩
    rw [h₁, h₂]

theorem slice_ofList {l : List UInt8} : slice (ofList l) 0 l.length = l := by
  have hslice : ∀ (r pre : List UInt8), slice (ofList (pre ++ r)) pre.length r.length = r := by
    intro r
    induction r with
    | nil =>
      intro pre
      rfl
    | cons b r ih =>
      intro pre
      have hrest := ih (pre ++ [b])
      rw [List.append_assoc, List.length_append] at hrest
      rw [List.length_cons, slice]
      exact List.cons_eq_cons.mpr ⟨by simp [ofList], hrest⟩
  exact hslice l []

/-! ## Words -/

theorem load16_of_slice {v : UInt16} (h : slice m a 2 = bytes16 v) : load16 m a = v := by
  simp only [slice, bytes16, List.cons.injEq, and_true] at h
  obtain ⟨h₀, h₁⟩ := h
  apply UInt16.toNat_inj.mp
  have hv := v.toNat_lt
  simp only [load16, loadLE, h₀, h₁, UInt16.toNat_toUInt8, UInt16.toNat_shiftRight, UInt16.reduceToNat, Nat.reduceMod,
    Nat.shiftRight_eq_div_pow, UInt16.toNat_ofNat']
  omega

theorem load32_of_slice {v : UInt32} (h : slice m a 4 = bytes32 v) : load32 m a = v := by
  simp only [slice, bytes32, List.cons.injEq, and_true] at h
  obtain ⟨h₀, h₁, h₂, h₃⟩ := h
  apply UInt32.toNat_inj.mp
  have hv := v.toNat_lt
  simp only [load32, loadLE, h₀, h₁, h₂, h₃, UInt32.toNat_toUInt8, UInt32.toNat_shiftRight, UInt32.reduceToNat,
    Nat.reduceMod, Nat.shiftRight_eq_div_pow, UInt32.toNat_ofNat']
  omega

end Mem

end AmqOs.Lib
