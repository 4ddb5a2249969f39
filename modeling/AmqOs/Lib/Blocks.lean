import Mathlib

/-!
# Streams cut into blocks

A function `f` takes a state and a block of `n` items. `absorb n f s l` is what the complete blocks of `l` make of `s`, and
`rest n l` the items after them. A stream may be absorbed in pieces if the rest of one piece is put in front of the next
(`absorb_append`, `rest_append`).
-/

set_option autoImplicit false

namespace AmqOs.Lib

variable {α σ : Type}

/-- The first `k` blocks of `l`, one after the other. -/
def absorbBlocks (n : Nat) (f : σ → List α → σ) : Nat → σ → List α → σ
  | 0, s, _ => s
  | k + 1, s, l => absorbBlocks n f k (f s (l.take n)) (l.drop n)

/-- The complete blocks of `l`, one after the other. -/
def absorb (n : Nat) (f : σ → List α → σ) (s : σ) (l : List α) : σ := absorbBlocks n f (l.length / n) s l

/-- The items after the last complete block. -/
def rest (n : Nat) (l : List α) : List α := l.drop (l.length / n * n)

variable {n : Nat} {f : σ → List α → σ} {s : σ} {l m b : List α}

theorem length_rest : (rest n l).length = l.length % n := by
  rw [rest, List.length_drop, Nat.mod_eq_sub_div_mul]

theorem absorb_of_lt (h : l.length < n) : absorb n f s l = s := by
  rw [absorb, Nat.div_eq_of_lt h, absorbBlocks]

theorem rest_of_lt (h : l.length < n) : rest n l = l := by
  rw [rest, Nat.div_eq_of_lt h, Nat.zero_mul, List.drop_zero]

theorem length_block_div (hn : 0 < n) (hb : b.length = n) : (b ++ m).length / n = m.length / n + 1 := by
  rw [List.length_append, hb, Nat.add_comm, Nat.add_div_right _ hn]

theorem absorb_block (hn : 0 < n) (hb : b.length = n) : absorb n f s (b ++ m) = absorb n f (f s b) m := by
  rw [absorb, length_block_div hn hb, absorbBlocks, List.take_left' hb, List.drop_left' hb, absorb]

theorem rest_block (hn : 0 < n) (hb : b.length = n) : rest n (b ++ m) = rest n m := by
  rw [rest, length_block_div hn hb, Nat.succ_mul, Nat.add_comm, ← List.drop_drop, List.drop_left' hb, rest]

/-- Induction on the blocks of a stream. -/
theorem block_induction (hn : 0 < n) {P : List α → Prop} (hlt : ∀ l, l.length < n → P l)
    (hblock : ∀ b m, b.length = n → P m → P (b ++ m)) (l : List α) : P l := by
  induction hk : l.length / n generalizing l with
  | zero => exact hlt l ((Nat.div_eq_zero_iff_lt hn).mp hk)
  | succ k ih =>
    have hle : n ≤ l.length := by
      by_contra h
      rw [Nat.div_eq_of_lt (by omega)] at hk
      omega
    obtain ⟨r, hr⟩ := Nat.exists_eq_add_of_le hle
    rw [hr, Nat.add_div_left _ hn] at hk
    rw [← List.take_append_drop n l]
    apply hblock _ _ (List.length_take_of_le hle)
    apply ih
    rw [List.length_drop, hr, Nat.add_sub_cancel_left]
    omega

theorem absorb_append (hn : 0 < n) (l m : List α) (s : σ) :
    absorb n f s (l ++ m) = absorb n f (absorb n f s l) (rest n l ++ m) := by
  induction l using block_induction hn generalizing s with
  | hlt l h => rw [absorb_of_lt h, rest_of_lt h]
  | hblock b l hb ih => rw [List.append_assoc, absorb_block hn hb, ih, absorb_block hn hb, rest_block hn hb]

theorem absorb_congr (hn : 0 < n) {g : σ → List α → σ} (h : ∀ s b, b.length = n → f s b = g s b) (l : List α) (s : σ) :
    absorb n f s l = absorb n g s l := by
  induction l using block_induction hn generalizing s with
  | hlt l hl => rw [absorb_of_lt hl, absorb_of_lt hl]
  | hblock b l hb ih => rw [absorb_block hn hb, absorb_block hn hb, h s b hb, ih]

theorem rest_append (hn : 0 < n) (l m : List α) : rest n (l ++ m) = rest n (rest n l ++ m) := by
  induction l using block_induction hn with
  | hlt l h => rw [rest_of_lt h]
  | hblock b l hb ih => rw [List.append_assoc, rest_block hn hb, ih, rest_block hn hb]

end AmqOs.Lib
