import Mathlib

/-!
# C strings

The characters of a C string are its bytes before the terminator, so none of them is zero; `CChar` carries that
fact and every list of them is a string. `ofBytes` reads a string out of an array, `strcmp` compares two strings
(`strcmp_eq_zero`), `strcpy` writes a string into an array, cut so that the terminator fits (`ofBytes_strcpy`).
-/

set_option autoImplicit false

namespace AmqOs.Lib

/-- A character of a C string: a byte that is not the terminator. -/
abbrev CChar := { b : UInt8 // b ≠ 0 }

/-- The characters of a C string, without its terminator. -/
abbrev CString := List CChar

namespace CString

/-- The string at the start of a byte array: everything before the first zero. -/
def ofBytes : List UInt8 → CString
  | [] => []
  | b :: bs => if h : b = 0 then [] else ⟨b, h⟩ :: ofBytes bs

/-- Compares up to the first difference; the result is the difference of the bytes there. -/
def strcmp : CString → CString → Int
  | [], [] => 0
  | [], b :: _ => 0 - (b.val.toNat : Int)
  | a :: _, [] => (a.val.toNat : Int) - 0
  | a :: s, b :: t => if a = b then strcmp s t else (a.val.toNat : Int) - (b.val.toNat : Int)

/-- Copies a string into an array of `n + 1` bytes: at most `n` characters and the terminator. The bytes after the
terminator keep what they were. -/
def strcpy {n : Nat} (dest : Vector UInt8 (n + 1)) (src : CString) : Vector UInt8 (n + 1) :=
  Vector.ofFn fun i =>
    if h : i.val < src.length ∧ i.val < n then (src.get ⟨i.val, h.1⟩).val
    else if i.val = min src.length n then 0
    else dest.get i

theorem toNat_ne_zero (a : CChar) : a.val.toNat ≠ 0 := by
  intro h
  exact a.property (UInt8.toNat_inj.mp (by simpa using h))

/-- The comparison is zero exactly for equal strings. -/
theorem strcmp_eq_zero {s t : CString} : strcmp s t = 0 ↔ s = t := by
  induction s generalizing t with
  | nil =>
    cases t with
    | nil => simp [strcmp]
    | cons b t =>
      have hb := toNat_ne_zero b
      simp only [strcmp, reduceCtorEq, iff_false]
      omega
  | cons a s ih =>
    cases t with
    | nil =>
      have ha := toNat_ne_zero a
      simp only [strcmp, reduceCtorEq, iff_false]
      omega
    | cons b t =>
      unfold strcmp
      split
      · rename_i hab
        rw [ih, hab]
        simp
      · rename_i hab
        simp only [List.cons.injEq, hab, false_and, iff_false]
        intro h
        apply hab
        apply Subtype.ext
        apply UInt8.toNat_inj.mp
        omega

theorem length_ofBytes_le (l : List UInt8) : (ofBytes l).length ≤ l.length := by
  induction l with
  | nil => exact Nat.le_refl _
  | cons b l ih =>
    unfold ofBytes
    split
    · exact Nat.zero_le _
    · simpa using ih

/-- The string of an array that holds the characters of `s` and then a zero. -/
theorem ofBytes_eq {l : List UInt8} {s : CString} (hs : ∀ (i : Nat) (h : i < s.length), l[i]? = some (s[i]).val)
    (h0 : l[s.length]? = some 0) : ofBytes l = s := by
  induction s generalizing l with
  | nil =>
    cases l with
    | nil => simp at h0
    | cons b l =>
      have hb : b = 0 := by simpa using h0
      simp [ofBytes, hb]
  | cons a s ih =>
    cases l with
    | nil => simp at h0
    | cons b l =>
      have hb : b = a.val := Option.some.inj (hs 0 (by simp))
      have htail : ofBytes l = s := by
        apply ih
        · intro i hi
          exact hs (i + 1) (by simpa using hi)
        · exact h0
      subst hb
      simp [ofBytes, a.property, htail]

/-- The characters for which there is room. -/
theorem getElem?_strcpy {n : Nat} (dest : Vector UInt8 (n + 1)) (src : CString) {i : Nat} (hi : i < (src.take n).length) :
    (strcpy dest src)[i]? = some ((src.take n)[i]).val := by
  simp only [List.length_take] at hi
  have h1 : i < src.length ∧ i < n := by omega
  simp [strcpy, h1, show i < n + 1 by omega]

/-- What a copied string reads back as: the string, cut to the space there is. -/
theorem ofBytes_strcpy {n : Nat} (dest : Vector UInt8 (n + 1)) (src : CString) :
    ofBytes (strcpy dest src).toList = src.take n := by
  apply ofBytes_eq
  · intro i hi
    rw [Vector.getElem?_toList]
    exact getElem?_strcpy dest src hi
  · have h1 : ¬ ((src.take n).length < src.length ∧ (src.take n).length < n) := by
      rw [List.length_take]
      omega
    have h2 : (src.take n).length < n + 1 := by
      rw [List.length_take]
      omega
    rw [strcpy, Vector.getElem?_toList, Vector.getElem?_eq_getElem h2, Vector.getElem_ofFn, dif_neg h1, if_pos]
    simp [Nat.min_comm]

end CString

end AmqOs.Lib
