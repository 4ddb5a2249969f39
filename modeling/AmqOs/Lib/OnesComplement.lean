import AmqOs.Lib.Wire

/-!
# One's complement sums

RFC 1071 sums 16-bit words with an end-around carry and takes the complement (`Rfc1071.checksum`). Such a sum is its plain sum
modulo 65535, with 65535 in the place of zero unless all words are zero (`onesSum_eq`, `endAround`). Swapping the two bytes
of a word multiplies it by 256 modulo 65535, so the sum of the swapped words is the swapped sum (`swapBytes_endAround`): the
checksum may be taken over little-endian words as well, and stored in that order.
-/

set_option autoImplicit false

namespace AmqOs.Rfc1071

/-! ## The checksum -/

/-- The sum of two words, with the carry added at the low end. -/
def onesAdd (a b : Nat) : Nat := if a + b > 65535 then a + b - 65535 else a + b

def onesSum (ws : List Nat) : Nat := ws.foldr onesAdd 0

/-- The words of a text in network byte order; a last single byte gets a zero byte. -/
def words : List UInt8 → List Nat
  | [] => []
  | [b] => [256 * b.toNat]
  | b :: c :: rest => (256 * b.toNat + c.toNat) :: words rest

def checksum (l : List UInt8) : Nat := 65535 - onesSum (words l)

end AmqOs.Rfc1071

namespace AmqOs.Lib

open Rfc1071

variable {a b s t v : Nat} {l : List UInt8}

/-! ## Sums modulo 65535 -/

/-- The word that a sum becomes when its carries are added to it. -/
def endAround (s : Nat) : Nat := if s = 0 then 0 else (s - 1) % 65535 + 1

theorem endAround_le (s : Nat) : endAround s ≤ 65535 := by
  unfold endAround
  split <;> omega

theorem endAround_of_le (h : s ≤ 65535) : endAround s = s := by
  unfold endAround
  split <;> omega

/-- The word is determined by the sum modulo 65535 and by whether it is zero. -/
theorem endAround_unique (hv : v ≤ 65535) (hmod : v % 65535 = s % 65535) (hzero : v = 0 ↔ s = 0) : v = endAround s := by
  unfold endAround
  split <;> omega

theorem endAround_congr (hmod : s % 65535 = t % 65535) (hzero : s = 0 ↔ t = 0) : endAround s = endAround t := by
  unfold endAround
  split <;> split <;> omega

/-- The carries of a sum may be added before the rest of it. -/
theorem onesAdd_endAround (ha : a ≤ 65535) : onesAdd a (endAround s) = endAround (a + s) := by
  have hle := endAround_le s
  apply endAround_unique
  · unfold onesAdd
    split <;> omega
  · unfold onesAdd endAround
    split <;> split <;> omega
  · unfold onesAdd endAround
    split <;> split <;> omega

theorem onesSum_eq {ws : List Nat} (h : ∀ w ∈ ws, w ≤ 65535) : onesSum ws = endAround ws.sum := by
  induction ws with
  | nil => rfl
  | cons w ws ih =>
    have hrest := ih fun w' hw' => h w' (List.mem_cons_of_mem w hw')
    rw [onesSum, List.foldr_cons, ← onesSum, hrest, List.sum_cons, onesAdd_endAround (h w List.mem_cons_self)]

/-- Adding the complement of the word gives all ones. -/
theorem endAround_complement (s : Nat) : endAround (s + (65535 - endAround s)) = 65535 := by
  unfold endAround
  split <;> split <;> omega

/-! ## Little-endian words -/

/-- The sum of the words of a text that is read in the other byte order. -/
def sumLE : List UInt8 → Nat
  | [] => 0
  | [b] => b.toNat
  | b :: c :: rest => b.toNat + 256 * c.toNat + sumLE rest

theorem words_le (l : List UInt8) : ∀ w ∈ words l, w ≤ 65535 := by
  induction l using words.induct with
  | case1 => simp [words]
  | case2 b =>
    have hb := b.toNat_lt
    simp only [words, List.mem_singleton]
    rintro w rfl
    omega
  | case3 b c rest ih =>
    have hb := b.toNat_lt
    have hc := c.toNat_lt
    simp only [words, List.mem_cons]
    rintro w (rfl | hw)
    · omega
    · exact ih w hw

theorem sumLE_le (l : List UInt8) : sumLE l ≤ 65535 * ((l.length + 1) / 2) := by
  induction l using sumLE.induct with
  | case1 => simp [sumLE]
  | case2 b =>
    have hb := b.toNat_lt
    simp only [sumLE, List.length_singleton]
    omega
  | case3 b c rest ih =>
    have hb := b.toNat_lt
    have hc := c.toNat_lt
    simp only [sumLE, List.length_cons]
    omega

/-- The sums in the two orders. -/
theorem sum_words (l : List UInt8) :
    (words l).sum % 65535 = 256 * sumLE l % 65535 ∧ ((words l).sum = 0 ↔ sumLE l = 0) := by
  induction l using words.induct with
  | case1 => simp [words, sumLE]
  | case2 b =>
    rw [words, sumLE, List.sum_singleton]
    exact ⟨rfl, by omega⟩
  | case3 b c rest ih =>
    simp only [words, sumLE, List.sum_cons]
    omega

/-- The parts of a text may be summed one after the other, as long as the first has whole words. -/
theorem sumLE_append {m : List UInt8} (h : l.length % 2 = 0) : sumLE (l ++ m) = sumLE l + sumLE m := by
  induction l using sumLE.induct with
  | case1 => simp [sumLE]
  | case2 b => simp at h
  | case3 b c rest ih =>
    rw [List.length_cons, List.length_cons] at h
    rw [List.cons_append, List.cons_append, sumLE, sumLE, ih (by omega)]
    omega

/-! ## Byte order -/

/-- The word with its bytes swapped. -/
def swapBytes (v : Nat) : Nat := v % 256 * 256 + v / 256

theorem swapBytes_endAround (s : Nat) : swapBytes (endAround s) = endAround (256 * s) := by
  have hle := endAround_le s
  apply endAround_unique
  · unfold swapBytes
    omega
  · unfold swapBytes endAround
    split <;> omega
  · unfold swapBytes endAround
    split <;> omega

theorem swapBytes_complement (h : v ≤ 65535) : swapBytes (65535 - v) = 65535 - swapBytes v := by
  unfold swapBytes
  omega

theorem swapBytes_div (h : v ≤ 65535) : swapBytes v / 256 = v % 256 := by
  rw [swapBytes, Nat.mul_comm, Nat.mul_add_div (by norm_num), Nat.div_eq_of_lt (by omega), Nat.add_zero]

theorem swapBytes_mod (h : v ≤ 65535) : swapBytes v % 256 = v / 256 := by
  rw [swapBytes, Nat.mul_comm, Nat.mul_add_mod, Nat.mod_eq_of_lt (by omega)]

/-- The checksum from the sum of the words in the other byte order. -/
theorem checksum_eq (l : List UInt8) : checksum l = swapBytes (65535 - endAround (sumLE l)) := by
  obtain ⟨hmod, hzero⟩ := sum_words l
  have hswap : endAround (words l).sum = endAround (256 * sumLE l) := endAround_congr hmod (by omega)
  rw [checksum, onesSum_eq (words_le l), hswap, swapBytes_complement (endAround_le _), swapBytes_endAround]

end AmqOs.Lib
