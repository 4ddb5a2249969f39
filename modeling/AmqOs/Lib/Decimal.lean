import AmqOs.Lib.CString

/-!
# Decimal numbers in C strings

`decimal s` is the number that the digits `s` stand for, `digitChar d` the character of a digit. The digits that repeated
division yields, last one first, are those of the number (`decimal_reverse_digitsOf`).
-/

set_option autoImplicit false

namespace AmqOs.Lib

namespace CString

def isDigit (c : CChar) : Bool := 48 ≤ c.val && c.val ≤ 57

/-- `c - '0'`. -/
def digitVal (c : CChar) : Nat := c.val.toNat - 48

/-- The number that digits stand for, after the digits of `n`. -/
def decimalFrom (n : Nat) (s : CString) : Nat := s.foldl (fun n c => n * 10 + digitVal c) n

def decimal (s : CString) : Nat := decimalFrom 0 s

def digitChar (d : Fin 10) : CChar := ⟨48 + UInt8.ofNat d, by revert d; decide⟩

theorem mod_ten_lt (num : Nat) : num % 10 < 10 := Nat.mod_lt num (by decide)

/-- The digits of a number, the last one first. -/
def digitsOf : Nat → Nat → CString
  | 0, _ => []
  | fuel + 1, num => if num = 0 then [] else digitChar ⟨num % 10, mod_ten_lt num⟩ :: digitsOf fuel (num / 10)

@[simp] theorem isDigit_digitChar (d : Fin 10) : isDigit (digitChar d) = true := by
  revert d
  decide

@[simp] theorem digitVal_digitChar (d : Fin 10) : digitVal (digitChar d) = d := by
  revert d
  decide

@[simp] theorem decimal_append_singleton (s : CString) (c : CChar) : decimal (s ++ [c]) = decimal s * 10 + digitVal c := by
  simp [decimal, decimalFrom]

theorem isDigit_of_mem_digitsOf {fuel num : Nat} {c : CChar} (h : c ∈ digitsOf fuel num) : isDigit c = true := by
  induction fuel generalizing num with
  | zero => cases h
  | succ fuel ih =>
    unfold digitsOf at h
    split at h
    · cases h
    · rcases List.mem_cons.mp h with rfl | h
      · exact isDigit_digitChar _
      · exact ih h

/-- The digits of a number that has no more of them than there is fuel. -/
theorem decimal_reverse_digitsOf {fuel num : Nat} (h : num < 10 ^ fuel) : decimal (digitsOf fuel num).reverse = num := by
  induction fuel generalizing num with
  | zero =>
    have : num = 0 := by simpa using h
    subst this
    rfl
  | succ fuel ih =>
    unfold digitsOf
    split
    · rename_i h0
      subst h0
      rfl
    · rw [Nat.pow_succ] at h
      rw [List.reverse_cons, decimal_append_singleton, ih (by omega), digitVal_digitChar]
      exact Nat.div_add_mod' num 10

end CString

end AmqOs.Lib
