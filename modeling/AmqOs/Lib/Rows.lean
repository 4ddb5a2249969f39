import Mathlib
import AmqOs.Lib.CString

/-!
# Strings in the rows of an array

`Rows n w` is `char lines[n][w]`. Accesses are checked: `m[i]?` and `writeAt` give nothing outside of the array, and so do
the loops over them. `Holds r s` says that the row `r` starts with the string `s` and its terminator, `RowAt m k s` that
row `k` does, and `Shows m ls` that the first rows hold the strings `ls`.

- `strlen` and the copy loop of `strcpy` and `strcat` (`copyFrom_spec`);
- a gap opened in a row, closed in a row (`openGap_spec`, `closeGap_spec`), and the copy of a row's tail;
- rows copied one down or one up (`shiftDown_spec`, `shiftUp_spec`);
- a line split in two and two lines joined (`Shows.split`, `Shows.join`).
-/

set_option autoImplicit false

namespace AmqOs.Lib

/-! ## Checked accesses and loops -/

section Loops

variable {α σ : Type} {n : Nat}

/-- The statement `v[i] = x`. -/
def writeAt (v : Vector α n) (i : Nat) (x : α) : Option (Vector α n) := if h : i < n then some (v.set i x) else none

theorem writeAt_of_lt (v : Vector α n) {i : Nat} (h : i < n) (x : α) : writeAt v i x = some (v.set i x) := dif_pos h

/-- `for (i = lo; i < lo + k; i++) s = f(i, s);` -/
def loopUp (f : Nat → σ → Option σ) : Nat → Nat → σ → Option σ
  | _, 0, s => some s
  | lo, k + 1, s => (f lo s).bind (loopUp f (lo + 1) k)

/-- `for (i = lo + k - 1; i >= lo; i--) s = f(i, s);` -/
def loopDown (f : Nat → σ → Option σ) (lo : Nat) : Nat → σ → Option σ
  | 0, s => some s
  | k + 1, s => (f (lo + k) s).bind (loopDown f lo k)

/-- `P i` holds before turn `i`. -/
theorem loopUp_inv {f : Nat → σ → Option σ} (P : Nat → σ → Prop) {a k : Nat} {s : σ} (h0 : P a s)
    (hs : ∀ i t, a ≤ i → i < a + k → P i t → ∃ t', f i t = some t' ∧ P (i + 1) t') :
    ∃ t, loopUp f a k s = some t ∧ P (a + k) t := by
  induction k generalizing a s with
  | zero => exact ⟨s, rfl, h0⟩
  | succ k ih =>
    obtain ⟨t, ht, hP⟩ := hs a s (le_refl _) (by omega) h0
    obtain ⟨u, hu, hPu⟩ := ih hP fun i t hi hi' => hs i t (by omega) (by omega)
    refine ⟨u, ?_, by rwa [show a + (k + 1) = a + 1 + k by omega]⟩
    rw [loopUp, ht, Option.bind_some, hu]

/-- `P i` holds after turn `i`. -/
theorem loopDown_inv {f : Nat → σ → Option σ} (P : Nat → σ → Prop) {a k : Nat} {s : σ} (h0 : P (a + k) s)
    (hs : ∀ i t, a ≤ i → i < a + k → P (i + 1) t → ∃ t', f i t = some t' ∧ P i t') :
    ∃ t, loopDown f a k s = some t ∧ P a t := by
  induction k generalizing s with
  | zero => exact ⟨s, rfl, h0⟩
  | succ k ih =>
    obtain ⟨t, ht, hP⟩ := hs (a + k) s (by omega) (by omega) h0
    obtain ⟨u, hu, hPu⟩ := ih hP fun i t hi hi' => hs i t hi (by omega)
    exact ⟨u, by rw [loopDown, ht, Option.bind_some, hu], hPu⟩

end Loops

/-! ## One row -/

/-- `char row[w]`. -/
abbrev Row (w : Nat) := Vector UInt8 w

/-- `char lines[n][w]`. -/
abbrev Rows (n w : Nat) := Vector (Row w) n

/-- The bytes of a string and its terminator. -/
def byte (s : CString) (i : Nat) : UInt8 := (s[i]?.map Subtype.val).getD 0

theorem byte_of_le {s : CString} {i : Nat} (h : s.length ≤ i) : byte s i = 0 := by
  simp [byte, List.getElem?_eq_none h]

theorem byte_ne_zero {s : CString} {i : Nat} (h : i < s.length) : byte s i ≠ 0 := by
  simpa [byte, List.getElem?_eq_getElem h] using s[i].property

theorem byte_take {s : CString} {c i : Nat} (h : i < c) : byte (s.take c) i = byte s i := by
  simp [byte, h]

theorem byte_drop (s : CString) (c i : Nat) : byte (s.drop c) i = byte s (c + i) := by
  simp [byte, List.getElem?_drop]

theorem byte_append_left {s t : CString} {i : Nat} (h : i < s.length) : byte (s ++ t) i = byte s i := by
  simp [byte, List.getElem?_append_left h]

theorem byte_append_right {s t : CString} {i : Nat} (h : s.length ≤ i) : byte (s ++ t) i = byte t (i - s.length) := by
  simp [byte, List.getElem?_append_right h]

theorem byte_insertIdx {s : CString} {c : Nat} (x : CChar) (h : c ≤ s.length) (i : Nat) :
    byte (s.insertIdx c x) i = if i < c then byte s i else if i = c then x.val else byte s (i - 1) := by
  rw [byte, List.getElem?_insertIdx]
  split
  · rfl
  · split
    · rename_i hi
      simp [hi, h]
    · rfl

theorem byte_eraseIdx (s : CString) (c i : Nat) : byte (s.eraseIdx c) i = if i < c then byte s i else byte s (i + 1) := by
  rw [byte, List.getElem?_eraseIdx]
  split <;> rfl

section OneRow

variable {w : Nat} {r : Row w} {s : CString}

/-- The row starts with the string and its terminator. -/
def Holds (r : Row w) (s : CString) : Prop := s.length < w ∧ ∀ i ≤ s.length, r[i]? = some (byte s i)

/-- The string in a row. -/
def text (r : Row w) : CString := CString.ofBytes r.toList

theorem Holds.text (h : Holds r s) : text r = s := by
  apply CString.ofBytes_eq
  · intro i hi
    rw [Vector.getElem?_toList, h.2 i (by omega)]
    simp [byte, List.getElem?_eq_getElem hi]
  · rw [Vector.getElem?_toList, h.2 _ (le_refl _), byte_of_le (le_refl _)]

theorem ofBytes_getElem? (l : List UInt8) {i : Nat} (h : i ≤ (CString.ofBytes l).length)
    (hl : (CString.ofBytes l).length < l.length) : l[i]? = some (byte (CString.ofBytes l) i) := by
  induction l generalizing i with
  | nil => simp at hl
  | cons b l ih =>
    unfold CString.ofBytes at h hl ⊢
    split at h
    · rename_i hb
      simp [hb, Nat.le_zero.mp (by simpa using h), byte]
    · rename_i hb
      simp only [hb, dite_false, List.length_cons] at h hl ⊢
      cases i with
      | zero => simp [byte]
      | succ i => simpa [byte] using ih (by omega) (by omega)

/-- A row with a terminator holds its string. -/
theorem holds_text (h : (Lib.text r).length < w) : Holds r (Lib.text r) := by
  refine ⟨h, fun i hi => ?_⟩
  rw [← Vector.getElem?_toList]
  exact ofBytes_getElem? _ hi (by rwa [Vector.length_toList])

/-- `while (_tmp[_len]) _len++;` with `k` bytes left in the row. -/
def strlenFrom (r : Row w) : Nat → Nat → Option Nat
  | 0, _ => none
  | k + 1, i => r[i]?.bind fun b => if b = 0 then some i else strlenFrom r k (i + 1)

def strlen (r : Row w) : Option Nat := strlenFrom r w 0

theorem Holds.strlenFrom (h : Holds r s) {k i : Nat} (hi : i ≤ s.length) (hk : s.length < i + k) :
    strlenFrom r k i = some s.length := by
  induction k generalizing i with
  | zero => omega
  | succ k ih =>
    rw [Lib.strlenFrom, h.2 i hi, Option.bind_some]
    by_cases hs : i = s.length
    · rw [hs, byte_of_le (le_refl _), if_pos rfl]
    · rw [if_neg (byte_ne_zero (by omega)), ih (by omega) (by omega)]

theorem Holds.strlen (h : Holds r s) : strlen r = some s.length :=
  h.strlenFrom (Nat.zero_le _) (by simpa using h.1)

/-- `while ((*d++ = *s++));` from `src[j]` to `dest[i]`, with `k` bytes left in the source row. -/
def copyFrom (src : Row w) : Nat → Row w → Nat → Nat → Option (Row w)
  | 0, _, _, _ => none
  | k + 1, dest, i, j => src[j]?.bind fun b =>
    (writeAt dest i b).bind fun dest' => if b = 0 then some dest' else copyFrom src k dest' (i + 1) (j + 1)

/-- `strcpy(&dest[i], &src[j])`. -/
def strcpyAt (dest : Row w) (i : Nat) (src : Row w) (j : Nat) : Option (Row w) := copyFrom src (w - j) dest i j

theorem copyFrom_spec {src d : Row w} {t : CString} (hsrc : Holds src t) {k i j : Nat} (hj : j ≤ t.length)
    (hk : t.length < j + k) (hroom : i + (t.length - j) < w) :
    ∃ r', copyFrom src k d i j = some r' ∧
      ∀ x, r'[x]? = if i ≤ x ∧ x ≤ i + (t.length - j) then some (byte t (j + (x - i))) else d[x]? := by
  induction k generalizing d i j with
  | zero => omega
  | succ k ih =>
    rw [copyFrom, hsrc.2 j hj, Option.bind_some, writeAt_of_lt d (by omega), Option.bind_some]
    by_cases hend : j = t.length
    · rw [if_pos (byte_of_le (le_of_eq hend.symm))]
      refine ⟨_, rfl, fun x => ?_⟩
      rw [Vector.getElem?_set]
      by_cases hx : i = x
      · subst hx
        rw [if_pos rfl, if_pos (by omega), Nat.sub_self, Nat.add_zero]
      · rw [if_neg hx, if_neg (by omega)]
    · rw [if_neg (byte_ne_zero (by omega))]
      obtain ⟨r', hr', hx'⟩ := ih (d := d.set i (byte t j)) (i := i + 1) (j := j + 1) (by omega) (by omega)
        (by omega)
      refine ⟨r', hr', fun x => ?_⟩
      rw [hx', Vector.getElem?_set]
      by_cases hx : i = x
      · subst hx
        rw [if_neg (by omega), if_pos rfl, if_pos (by omega), Nat.sub_self, Nat.add_zero]
      · by_cases hin : i + 1 ≤ x ∧ x ≤ i + 1 + (t.length - (j + 1))
        · rw [if_pos hin, if_pos (by omega), show j + 1 + (x - (i + 1)) = j + (x - i) by omega]
        · rw [if_neg hin, if_neg hx, if_neg (by omega)]

/-- A string copied behind the first `i` characters of the destination. -/
theorem strcpyAt_spec {src d : Row w} {t : CString} (hsrc : Holds src t) {i j : Nat} (hi : i ≤ s.length)
    (hd : ∀ x < i, d[x]? = some (byte s x)) (hj : j ≤ t.length) (hroom : i + (t.length - j) < w) :
    ∃ r', strcpyAt d i src j = some r' ∧ Holds r' (s.take i ++ t.drop j) := by
  have hw := hsrc.1
  obtain ⟨r', hr', hx⟩ := copyFrom_spec (d := d) (k := w - j) hsrc hj (by omega) hroom
  have hlen : (s.take i).length = i := by rw [List.length_take]; omega
  refine ⟨r', hr', by rw [List.length_append, hlen, List.length_drop]; exact hroom, fun x hle => ?_⟩
  rw [List.length_append, hlen, List.length_drop] at hle
  rw [hx]
  by_cases hxi : x < i
  · rw [if_neg (by omega), hd x hxi, byte_append_left (by omega), byte_take hxi]
  · rw [if_pos (by omega), byte_append_right (by omega), byte_drop, hlen]

/-- `strcpy` of a whole row. -/
theorem strcpyAt_zero {src d : Row w} (hsrc : Holds src s) : ∃ r', strcpyAt d 0 src 0 = some r' ∧ Holds r' s :=
  strcpyAt_spec (s := s) hsrc (Nat.zero_le _) (fun x hx => absurd hx (Nat.not_lt_zero x)) (Nat.zero_le _) (by have := hsrc.1; omega)

/-! ### Gaps -/

/-- `for (i = c + k; i > c; i--) row[i] = row[i - 1];` -/
def openGap (r : Row w) (c k : Nat) : Option (Row w) :=
  loopDown (fun i t => t[i]?.bind fun b => writeAt t (i + 1) b) c k r

theorem openGap_spec (r : Row w) {c k : Nat} (h : c + k < w) : ∃ r', openGap r c k = some r' ∧
    ∀ x, r'[x]? = if c < x ∧ x ≤ c + k then r[x - 1]? else r[x]? := by
  apply loopDown_inv (fun i (t : Row w) => ∀ x, t[x]? = if i < x ∧ x ≤ c + k then r[x - 1]? else r[x]?)
  · intro x
    rw [if_neg (by omega)]
  · intro i t hi hik ht
    obtain ⟨b, hb⟩ : ∃ b, r[i]? = some b := ⟨_, Vector.getElem?_eq_getElem (by omega)⟩
    refine ⟨t.set (i + 1) b, ?_, fun x => ?_⟩
    · rw [ht i, if_neg (by omega), hb, Option.bind_some, writeAt_of_lt]
    · rw [Vector.getElem?_set, ht x]
      by_cases hx : i + 1 = x
      · subst hx
        rw [if_pos rfl, if_pos (by omega), Nat.add_sub_cancel, hb]
      · rw [if_neg hx]
        by_cases hx' : i + 1 < x ∧ x ≤ c + k
        · rw [if_pos hx', if_pos (by omega)]
        · rw [if_neg hx', if_neg (by omega)]

/-- `for (i = c; i < c + k; i++) row[i] = row[i + 1];` -/
def closeGap (r : Row w) (c k : Nat) : Option (Row w) :=
  loopUp (fun i t => t[i + 1]?.bind fun b => writeAt t i b) c k r

theorem closeGap_spec (r : Row w) {c k : Nat} (h : c + k < w) : ∃ r', closeGap r c k = some r' ∧
    ∀ x, r'[x]? = if c ≤ x ∧ x < c + k then r[x + 1]? else r[x]? := by
  apply loopUp_inv (fun i (t : Row w) => ∀ x, t[x]? = if c ≤ x ∧ x < i then r[x + 1]? else r[x]?)
  · intro x
    rw [if_neg (by omega)]
  · intro i t hi hik ht
    obtain ⟨b, hb⟩ : ∃ b, r[i + 1]? = some b := ⟨_, Vector.getElem?_eq_getElem (by omega)⟩
    have hi' : i < w := by omega
    refine ⟨t.set i b, ?_, fun x => ?_⟩
    · rw [ht (i + 1), if_neg (by omega), hb, Option.bind_some, writeAt_of_lt]
    · rw [Vector.getElem?_set, ht x]
      by_cases hx : i = x
      · subst hx
        rw [if_pos rfl, if_pos (by omega), hb]
      · rw [if_neg hx]
        by_cases hx' : c ≤ x ∧ x < i
        · rw [if_pos hx', if_pos (by omega)]
        · rw [if_neg hx', if_neg (by omega)]

/-- A character inserted: the gap is opened up to the terminator and the character put in. -/
theorem Holds.insert (h : Holds r s) {c : Nat} (hc : c ≤ s.length) (x : CChar) (hw : s.length + 1 < w) {r' : Row w}
    (hr' : ∀ i ≤ s.length + 1, r'[i]? = if i < c then r[i]? else if i = c then some x.val else r[i - 1]?) :
    Holds r' (s.insertIdx c x) := by
  have hlen : (s.insertIdx c x).length = s.length + 1 := List.length_insertIdx_of_le_length hc x
  refine ⟨by omega, fun i hi => ?_⟩
  rw [hlen] at hi
  rw [hr' i hi, byte_insertIdx x hc]
  split
  · exact h.2 i (by omega)
  · split
    · rfl
    · exact h.2 (i - 1) (by omega)

/-- A character deleted: the gap is closed from the terminator on. -/
theorem Holds.erase (h : Holds r s) {c : Nat} (hc : c < s.length) {r' : Row w}
    (hr' : ∀ i < s.length, r'[i]? = if i < c then r[i]? else r[i + 1]?) : Holds r' (s.eraseIdx c) := by
  have hw := h.1
  have hlen : (s.eraseIdx c).length = s.length - 1 := List.length_eraseIdx_of_lt hc
  refine ⟨by omega, fun i hi => ?_⟩
  rw [hr' i (by omega), byte_eraseIdx]
  split
  · exact h.2 i (by omega)
  · exact h.2 (i + 1) (by omega)

/-- A terminator put into a row. -/
theorem Holds.cut (h : Holds r s) {c : Nat} (hc : c ≤ s.length) :
    ∃ r', writeAt r c 0 = some r' ∧ Holds r' (s.take c) := by
  have hw := h.1
  have hlen : (s.take c).length = c := by rw [List.length_take]; omega
  refine ⟨_, writeAt_of_lt r (by omega) 0, by omega, fun i hi => ?_⟩
  rw [hlen] at hi
  rw [Vector.getElem?_set]
  split
  · rename_i hci
    rw [byte_of_le (by omega)]
  · rw [h.2 i (by omega), byte_take (by omega)]

/-- `for (i = c; i < c + k; i++) dest[i - c] = src[i];` -/
def copyTail (src dest : Row w) (c k : Nat) : Option (Row w) :=
  loopUp (fun i t => src[i]?.bind fun b => writeAt t (i - c) b) c k dest

/-- The tail of a row copied with its terminator. -/
theorem copyTail_spec {src d : Row w} (h : Holds src s) {c : Nat} (hc : c ≤ s.length) :
    ∃ r', copyTail src d c (s.length + 1 - c) = some r' ∧ Holds r' (s.drop c) := by
  have hw := h.1
  obtain ⟨r', hr', hx⟩ := loopUp_inv (f := fun i (t : Row w) => src[i]?.bind fun b => writeAt t (i - c) b)
    (fun i (t : Row w) => ∀ x, x + c < i → t[x]? = src[x + c]?) (a := c) (k := s.length + 1 - c) (s := d)
    (fun x hx => by omega) (by
      intro i t hi hik ht
      obtain ⟨b, hb⟩ : ∃ b, src[i]? = some b := ⟨_, h.2 i (by omega)⟩
      have hic : i - c < w := by omega
      refine ⟨t.set (i - c) b, ?_, fun x hx => ?_⟩
      · rw [hb, Option.bind_some, writeAt_of_lt]
      · rw [Vector.getElem?_set]
        by_cases hxi : i - c = x
        · rw [if_pos hxi, show x + c = i by omega, hb]
        · rw [if_neg hxi, ht x (by omega)])
  refine ⟨r', hr', by rw [List.length_drop]; omega, fun i hi => ?_⟩
  rw [List.length_drop] at hi
  rw [hx i (by omega), h.2 (i + c) (by omega), byte_drop, Nat.add_comm]

end OneRow

/-! ## The rows of the array -/

section AllRows

variable {n w : Nat} {m m' : Rows n w} {ls : List CString}

/-- Row `k` is there and holds the string. -/
def RowAt (m : Rows n w) (k : Nat) (s : CString) : Prop := ∃ r, m[k]? = some r ∧ Holds r s

/-- The first rows hold the strings. -/
def Shows (m : Rows n w) (ls : List CString) : Prop := ∀ k s, ls[k]? = some s → RowAt m k s

/-- The strings in the first `k` rows. -/
def texts (m : Rows n w) (k : Nat) : List CString := (m.toList.take k).map text

theorem RowAt.lt {k : Nat} {s : CString} (h : RowAt m k s) : k < n := by
  obtain ⟨r, hr, -⟩ := h
  by_contra hk
  rw [Vector.getElem?_eq_none (by omega)] at hr
  cases hr

theorem RowAt.congr {k : Nat} {s : CString} (h : RowAt m k s) (hm : m'[k]? = m[k]?) : RowAt m' k s := by
  obtain ⟨r, hr, hs⟩ := h
  exact ⟨r, hm.trans hr, hs⟩

theorem Shows.length_le (h : Shows m ls) : ls.length ≤ n := by
  by_contra hn
  exact absurd (h n _ (List.getElem?_eq_getElem (by omega))).lt (lt_irrefl n)

theorem Shows.length_lt (h : Shows m ls) {s : CString} (hs : s ∈ ls) : s.length < w := by
  obtain ⟨k, hk⟩ := List.mem_iff_getElem?.mp hs
  obtain ⟨r, -, hr⟩ := h k s hk
  exact hr.1

theorem Shows.texts_eq (h : Shows m ls) : texts m ls.length = ls := by
  apply List.ext_getElem?
  intro k
  rw [texts, List.getElem?_map, List.getElem?_take]
  split
  · rename_i hk
    obtain ⟨r, hr, hs⟩ := h k _ (List.getElem?_eq_getElem hk)
    rw [Vector.getElem?_toList, hr, List.getElem?_eq_getElem hk, Option.map_some, hs.text]
  · rename_i hk
    rw [List.getElem?_eq_none (by omega), Option.map_none]

/-- Rows with terminators show their strings. -/
theorem shows_texts {k : Nat} (h : ∀ s ∈ texts m k, s.length < w) : Shows m (texts m k) := by
  intro i s hi
  have hs := h s (List.mem_iff_getElem?.mpr ⟨i, hi⟩)
  rw [texts, List.getElem?_map, Option.map_eq_some_iff] at hi
  obtain ⟨r, hr, rfl⟩ := hi
  rw [List.getElem?_take] at hr
  split at hr
  · exact ⟨r, by rwa [← Vector.getElem?_toList], holds_text hs⟩
  · cases hr

theorem length_texts {k : Nat} (h : k ≤ n) : (texts m k).length = k := by
  simp [texts, h]

/-- A row replaced. -/
theorem writeRow_spec {k : Nat} (hk : k < n) {r : Row w} {s : CString} (hr : Holds r s) : ∃ m', writeAt m k r = some m' ∧
    RowAt m' k s ∧ ∀ x, x ≠ k → m'[x]? = m[x]? := by
  refine ⟨_, writeAt_of_lt m hk r, ⟨r, by rw [Vector.getElem?_set, if_pos rfl], hr⟩, fun x hx => ?_⟩
  rw [Vector.getElem?_set, if_neg (Ne.symm hx)]

/-- `strcpy(m[k], m[l])`. -/
def copyRow (m : Rows n w) (k l : Nat) : Option (Rows n w) :=
  m[k]?.bind fun dest => m[l]?.bind fun src => (strcpyAt dest 0 src 0).bind (writeAt m k)

theorem copyRow_spec {k l : Nat} {s : CString} (hk : k < n) (hl : RowAt m l s) : ∃ m', copyRow m k l = some m' ∧
    RowAt m' k s ∧ ∀ x, x ≠ k → m'[x]? = m[x]? := by
  obtain ⟨src, hsrc, hs⟩ := hl
  obtain ⟨r', hr', hh⟩ := strcpyAt_zero (d := m[k]) hs
  obtain ⟨m', hm', hspec⟩ := writeRow_spec (m := m) hk hh
  refine ⟨m', ?_, hspec⟩
  rw [copyRow, Vector.getElem?_eq_getElem hk, Option.bind_some, hsrc, Option.bind_some, hr', Option.bind_some, hm']

/-- `for (i = lo + k; i > lo; i--) strcpy(m[i], m[i - 1]);` -/
def shiftDown (m : Rows n w) (lo k : Nat) : Option (Rows n w) := loopDown (fun i t => copyRow t (i + 1) i) lo k m

theorem shiftDown_spec {a k : Nat} {f : Nat → CString} (hn : a + k < n)
    (hf : ∀ i, a ≤ i → i < a + k → RowAt m i (f i)) : ∃ m', shiftDown m a k = some m' ∧
    (∀ i, a ≤ i → i < a + k → RowAt m' (i + 1) (f i)) ∧ ∀ x, (x ≤ a ∨ a + k < x) → m'[x]? = m[x]? := by
  obtain ⟨m', hm', h1, h2⟩ := loopDown_inv (f := fun i t => copyRow t (i + 1) i)
    (fun i (t : Rows n w) => (∀ j, i ≤ j → j < a + k → RowAt t (j + 1) (f j)) ∧
      ∀ x, (x ≤ i ∨ a + k < x) → t[x]? = m[x]?) (a := a) (k := k) (s := m)
    ⟨fun j _ _ => by omega, fun _ _ => rfl⟩ (by
      rintro i t hi hik ⟨h1, h2⟩
      obtain ⟨t', ht', hrow, hother⟩ := copyRow_spec (m := t) (k := i + 1) (by omega)
        ((hf i hi hik).congr (h2 i (by omega)))
      refine ⟨t', ht', fun j hj hjk => ?_, fun x hx => ?_⟩
      · by_cases hji : j = i
        · subst hji
          exact hrow
        · exact (h1 j (by omega) hjk).congr (hother _ (by omega))
      · rw [hother x (by omega), h2 x (by omega)])
  exact ⟨m', hm', h1, h2⟩

/-- `for (i = lo; i < lo + k; i++) strcpy(m[i], m[i + 1]);` -/
def shiftUp (m : Rows n w) (lo k : Nat) : Option (Rows n w) := loopUp (fun i t => copyRow t i (i + 1)) lo k m

theorem shiftUp_spec {a k : Nat} {f : Nat → CString} (hn : a + k < n)
    (hf : ∀ i, a ≤ i → i < a + k → RowAt m (i + 1) (f i)) : ∃ m', shiftUp m a k = some m' ∧
    (∀ i, a ≤ i → i < a + k → RowAt m' i (f i)) ∧ ∀ x, (x < a ∨ a + k ≤ x) → m'[x]? = m[x]? := by
  obtain ⟨m', hm', h1, h2⟩ := loopUp_inv (f := fun i t => copyRow t i (i + 1))
    (fun i (t : Rows n w) => (∀ j, a ≤ j → j < i → RowAt t j (f j)) ∧
      ∀ x, (x < a ∨ i ≤ x) → t[x]? = m[x]?) (a := a) (k := k) (s := m)
    ⟨fun j _ _ => by omega, fun _ _ => rfl⟩ (by
      rintro i t hi hik ⟨h1, h2⟩
      obtain ⟨t', ht', hrow, hother⟩ := copyRow_spec (m := t) (k := i) (by omega)
        ((hf i hi hik).congr (h2 (i + 1) (by omega)))
      refine ⟨t', ht', fun j hj hji => ?_, fun x hx => ?_⟩
      · by_cases hji' : j = i
        · subst hji'
          exact hrow
        · exact (h1 j hj (by omega)).congr (hother _ (by omega))
      · rw [hother x (by omega), h2 x (by omega)])
  exact ⟨m', hm', h1, h2⟩

/-! ### What the rows show afterwards -/

/-- One line changed. -/
theorem Shows.set (h : Shows m ls) {k : Nat} {s : CString} (hk : RowAt m' k s) (ho : ∀ x, x ≠ k → m'[x]? = m[x]?) :
    Shows m' (ls.set k s) := by
  intro i t hi
  rw [List.getElem?_set] at hi
  split at hi
  · rename_i hki
    split at hi
    · obtain rfl := Option.some.inj hi
      exact hki ▸ hk
    · cases hi
  · rename_i hki
    exact (h i t hi).congr (ho i (Ne.symm hki))

/-- A line split in two. -/
theorem Shows.split (h : Shows m ls) {k : Nat} (hk : k < ls.length) {s t : CString} (hs : RowAt m' k s)
    (ht : RowAt m' (k + 1) t) (hafter : ∀ i l, k < i → ls[i]? = some l → RowAt m' (i + 1) l)
    (hbefore : ∀ i < k, m'[i]? = m[i]?) : Shows m' ((ls.set k s).insertIdx (k + 1) t) := by
  intro i l hi
  rw [List.getElem?_insertIdx] at hi
  split at hi
  · rw [List.getElem?_set] at hi
    split at hi
    · rename_i hki
      obtain rfl := Option.some.inj hi
      exact hki ▸ hs
    · exact (h i l hi).congr (hbefore i (by omega))
  · split at hi
    · rename_i hik
      rw [if_pos (by rw [List.length_set]; omega)] at hi
      obtain rfl := Option.some.inj hi
      exact hik ▸ ht
    · rw [List.getElem?_set, if_neg (by omega)] at hi
      rw [show i = i - 1 + 1 by omega]
      exact hafter (i - 1) l (by omega) hi

/-- Two lines joined. -/
theorem Shows.join (h : Shows m ls) {k : Nat} (hk : k + 1 < ls.length) {s : CString} (hs : RowAt m' k s)
    (hafter : ∀ i l, k < i → ls[i + 1]? = some l → RowAt m' i l) (hbefore : ∀ i < k, m'[i]? = m[i]?) :
    Shows m' ((ls.set k s).eraseIdx (k + 1)) := by
  intro i l hi
  rw [List.getElem?_eraseIdx] at hi
  split at hi
  · rw [List.getElem?_set] at hi
    split at hi
    · rename_i hki
      rw [if_pos (by omega)] at hi
      obtain rfl := Option.some.inj hi
      exact hki ▸ hs
    · exact (h i l hi).congr (hbefore i (by omega))
  · rw [List.getElem?_set, if_neg (by omega)] at hi
    exact hafter i l (by omega) hi

/-! ### Rows that hold given strings -/

/-- A row that starts with the string. -/
def rowOf (w : Nat) (s : CString) : Row w := Vector.ofFn fun i => byte s i

/-- Rows that start with the strings. -/
def rowsOf (n w : Nat) (ls : List CString) : Rows n w := Vector.ofFn fun k => rowOf w (ls[k.val]?.getD [])

theorem holds_rowOf {s : CString} (h : s.length < w) : Holds (rowOf w s) s := by
  refine ⟨h, fun i hi => ?_⟩
  rw [rowOf, Vector.getElem?_eq_getElem (by omega), Vector.getElem_ofFn]

theorem shows_rowsOf (hn : ls.length ≤ n) (hw : ∀ s ∈ ls, s.length < w) : Shows (rowsOf n w ls) ls := by
  intro k s hs
  have hk : k < ls.length := (List.getElem?_eq_some_iff.mp hs).1
  refine ⟨rowOf w s, ?_, holds_rowOf (hw s (List.mem_iff_getElem?.mpr ⟨k, hs⟩))⟩
  rw [rowsOf, Vector.getElem?_eq_getElem (by omega), Vector.getElem_ofFn, hs, Option.getD_some]

end AllRows

end AmqOs.Lib
