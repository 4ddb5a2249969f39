import AmqOs.Lib.Loop

/-!
# Scrolling the text screen

`put_pixel` finds pixel `(x, y)` at word `y * pitch + x` of the framebuffer, `auto_scroll_check` at word `y * width + x`.
Scrolling moves the picture up by a line of text when the two are the same (and the words of the screen have 32-bit
numbers), and on no other screen with a column (`autoScrollCheck_movesUp_iff`). For the second half the screen is white:
the words that become black are those of the last rows in either numbering, and eight rows that lie `pitch` apart fill a
gap-free stretch of memory only when they follow each other in order (`pitch_eq_width`).
-/

set_option autoImplicit false

namespace AmqOs.Print

open AmqOs.Lib

def BLACK : UInt32 := 0x000000

def WHITE : UInt32 := 0xFFFFFF

def RED : UInt32 := 0xFF0000

/-- `base i` is the word `base[i]`. The pixels are words: `bytes_per_pixel` is not used. -/
structure Framebuffer where
  base : UInt32 → UInt32
  width : UInt32
  height : UInt32
  pitch : UInt32

structure Cursor where
  x : UInt32
  y : UInt32
  fgColor : UInt32
  bgColor : UInt32

structure Screen where
  fb : Framebuffer
  cursor : Cursor
  scrollOffset : Int

def charHeight : UInt32 := 8

/-- `for (uint32_t y = lo; y < hi; y++) f(y)` -/
def forRange {σ : Type} (lo hi : UInt32) (f : UInt32 → σ → σ) : σ → σ :=
  forUpTo (fun i => f (lo + .ofNat i)) (hi.toNat - lo.toNat)

/-- `fb.base[n] = color` -/
def Framebuffer.write (fb : Framebuffer) (n color : UInt32) : Framebuffer :=
  { fb with base := Function.update fb.base n color }

def putPixel (fb : Framebuffer) (x y color : UInt32) : Framebuffer :=
  if x ≥ fb.width ∨ y ≥ fb.height then fb else fb.write (y * fb.pitch + x) color

/-- The loop over `x` of the rows that move up. -/
def copyRow (width y : UInt32) : (UInt32 → UInt32) → UInt32 → UInt32 :=
  forRange 0 width fun x base => Function.update base ((y - charHeight) * width + x) (base (y * width + x))

/-- The loop over `x` of the rows that become black. -/
def blackRow (width y : UInt32) : (UInt32 → UInt32) → UInt32 → UInt32 :=
  forRange 0 width fun x base => Function.update base (y * width + x) BLACK

def autoScrollCheck (s : Screen) : Screen :=
  if s.cursor.y + charHeight ≥ s.fb.height then
    let up := forRange charHeight s.fb.height (copyRow s.fb.width) s.fb.base
    { fb := { s.fb with base := forRange (s.fb.height - charHeight) s.fb.height (blackRow s.fb.width) up }
      cursor := { s.cursor with y := s.cursor.y - charHeight }
      scrollOffset := s.scrollOffset + 1 }
  else s

/-! ## The picture -/

namespace Framebuffer

/-- The number of the word where `put_pixel` finds a pixel. -/
def index (fb : Framebuffer) (x y : UInt32) : UInt32 := y * fb.pitch + x

def pixel (fb : Framebuffer) (x y : UInt32) : UInt32 := fb.base (fb.index x y)

/-- The picture of `fb` moves up by a line of text, and nothing else changes. -/
structure MovesUp (fb fb' : Framebuffer) : Prop where
  moved : ∀ x y, x < fb.width → y < fb.height - charHeight → fb'.pixel x y = fb.pixel x (y + charHeight)
  cleared : ∀ x y, x < fb.width → fb.height - charHeight ≤ y → y < fb.height → fb'.pixel x y = BLACK
  frame : ∀ n, (∀ x y, x < fb.width → y < fb.height → n ≠ fb.index x y) → fb'.base n = fb.base n

end Framebuffer

theorem putPixel_pixel (fb : Framebuffer) {x y : UInt32} (color : UInt32) (hx : x < fb.width) (hy : y < fb.height) :
    (putPixel fb x y color).pixel x y = color := by
  have h : ¬ (x ≥ fb.width ∨ y ≥ fb.height) := by
    rintro (h | h)
    · exact absurd hx (UInt32.not_lt.mpr h)
    · exact absurd hy (UInt32.not_lt.mpr h)
  rw [putPixel, if_neg h, Framebuffer.pixel, Framebuffer.index, Framebuffer.write]
  exact Function.update_self ..

/-! ## What the loops leave -/

section Loops

variable {σ : Type} {width y : UInt32} {base : UInt32 → UInt32}

theorem forRange_inv {lo hi : UInt32} {f : UInt32 → σ → σ} {s : σ} (P : Nat → σ → Prop) (h0 : P 0 s)
    (hs : ∀ i t, i < hi.toNat - lo.toNat → P i t → P (i + 1) (f (lo + .ofNat i) t)) :
    P (hi.toNat - lo.toNat) (forRange lo hi f s) :=
  forUpTo_inv P h0 hs

theorem forRange_zero_inv {hi : UInt32} {f : UInt32 → σ → σ} {s : σ} (P : Nat → σ → Prop) (h0 : P 0 s)
    (hs : ∀ i t, i < hi.toNat → P i t → P (i + 1) (f (.ofNat i) t)) : P hi.toNat (forRange 0 hi f s) := by
  have h : P (hi.toNat - (0 : UInt32).toNat) (forRange 0 hi f s) := forRange_inv P h0 (by simpa using hs)
  exact h

theorem toNat_index (width : UInt32) {i x : Nat} (h : i * width.toNat + x < 2 ^ 32) :
    (UInt32.ofNat i * width + UInt32.ofNat x).toNat = i * width.toNat + x := by
  simp only [UInt32.toNat_add, UInt32.toNat_mul, UInt32.toNat_ofNat', Nat.mod_mul_mod, Nat.add_mod_mod, Nat.mod_add_mod]
  exact Nat.mod_eq_of_lt h

theorem toNat_below (width : UInt32) {i x : Nat} (h : (i + 8) * width.toNat + x < 2 ^ 32) :
    (UInt32.ofNat i * width + UInt32.ofNat x + 8 * width).toNat = (i + 8) * width.toNat + x := by
  rw [← toNat_index width h]
  congr 1
  have h8 : UInt32.ofNat (i + 8) = UInt32.ofNat i + 8 := by simp
  rw [h8]
  grind

/-- A row is read before it is written: the words still to be read are not below the row. -/
theorem copyRow_word {i : Nat} (hfit : (i + 8) * width.toNat + width.toNat ≤ 2 ^ 32) (n : UInt32) :
    copyRow width (charHeight + .ofNat i) base n =
      if i * width.toNat ≤ n.toNat ∧ n.toNat < i * width.toNat + width.toNat then base (n + 8 * width) else base n := by
  revert n
  refine forRange_zero_inv (fun k (b : UInt32 → UInt32) => ∀ n : UInt32,
    b n = if i * width.toNat ≤ n.toNat ∧ n.toNat < i * width.toNat + k then base (n + 8 * width) else base n) ?_ ?_
  · intro n
    rw [if_neg (by omega)]
  · intro k b hk hb n
    have hmul : (i + 8) * width.toNat = i * width.toNat + 8 * width.toNat := by ring
    have hto := toNat_index width (show i * width.toNat + k < 2 ^ 32 by omega)
    have hfrom := toNat_below width (show (i + 8) * width.toNat + k < 2 ^ 32 by omega)
    have e1 : (charHeight + UInt32.ofNat i - charHeight) * width + UInt32.ofNat k =
        UInt32.ofNat i * width + UInt32.ofNat k := by grind
    have e2 : (charHeight + UInt32.ofNat i) * width + UInt32.ofNat k =
        UInt32.ofNat i * width + UInt32.ofNat k + 8 * width := by unfold charHeight; grind
    rw [e1, e2, Function.update_apply, hb, hb]
    by_cases hn : n = UInt32.ofNat i * width + UInt32.ofNat k
    · rw [if_pos hn, if_neg (by omega), hn, if_pos (by omega)]
    · have hne : n.toNat ≠ i * width.toNat + k := fun h => hn (UInt32.toNat_inj.mp (h.trans hto.symm))
      rw [if_neg hn]
      congr 1
      rw [eq_iff_iff]
      omega

/-- The rows that are copied later do not overlap with those already written. -/
theorem copyRows_word {height : UInt32} (hfit : width.toNat * height.toNat ≤ 2 ^ 32) (n : UInt32) :
    forRange charHeight height (copyRow width) base n =
      if n.toNat < (height.toNat - 8) * width.toNat then base (n + 8 * width) else base n := by
  revert n
  refine forRange_inv (fun k (b : UInt32 → UInt32) => ∀ n : UInt32,
    b n = if n.toNat < k * width.toNat then base (n + 8 * width) else base n) ?_ ?_
  · intro n
    rw [if_neg (by omega)]
  · intro i b hi hb n
    have hi : i + 9 ≤ height.toNat := by
      have : charHeight.toNat = 8 := rfl
      omega
    have hrow : (i + 9) * width.toNat ≤ 2 ^ 32 :=
      le_trans (Nat.mul_le_mul_right _ hi) (by rwa [Nat.mul_comm] at hfit)
    have hmul : (i + 9) * width.toNat = i * width.toNat + 9 * width.toNat := by ring
    have hmul' : (i + 8) * width.toNat = i * width.toNat + 8 * width.toNat := by ring
    have hsucc : (i + 1) * width.toNat = i * width.toNat + width.toNat := by ring
    rw [copyRow_word (by omega), hb, hb]
    by_cases hn : i * width.toNat ≤ n.toNat ∧ n.toNat < i * width.toNat + width.toNat
    · -- The row below is not written yet.
      have hto : (n + 8 * width).toNat = n.toNat + 8 * width.toNat := by
        rw [UInt32.toNat_add, UInt32.toNat_mul, show UInt32.toNat 8 = 8 from rfl]
        omega
      rw [if_pos hn, if_neg (by omega), if_pos (by omega)]
    · rw [if_neg hn]
      congr 1
      rw [eq_iff_iff]
      omega

/-- A colour that the whole memory has stays. -/
theorem copyRows_const {height c : UInt32} (hbase : ∀ n, base n = c) (n : UInt32) :
    forRange charHeight height (copyRow width) base n = c := by
  revert n
  refine forRange_inv (fun _ (b : UInt32 → UInt32) => ∀ n, b n = c) hbase ?_
  intro i b _ hb
  refine forRange_zero_inv (fun _ (b : UInt32 → UInt32) => ∀ n, b n = c) hb ?_
  intro k b _ hb n
  rw [Function.update_apply]
  split <;> exact hb _

theorem blackRow_word (n : UInt32) :
    blackRow width y base n = if ∃ x < width.toNat, n = y * width + .ofNat x then BLACK else base n := by
  revert n
  refine forRange_zero_inv (fun k (b : UInt32 → UInt32) => ∀ n,
    b n = if ∃ x < k, n = y * width + .ofNat x then BLACK else base n) ?_ ?_
  · intro n
    rw [if_neg (by simp)]
  · intro k b _ hb n
    rw [Function.update_apply, hb]
    simp only [Nat.lt_succ_iff_lt_or_eq, or_and_right, exists_or, exists_eq_left]
    split <;> simp [*]

/-- The words that become black: `8 * width` from the first word of the last rows on. -/
def InLastRows (width height n : UInt32) : Prop := (n - (height - charHeight) * width).toNat < 8 * width.toNat

instance (width height n : UInt32) : Decidable (InLastRows width height n) := Nat.decLt ..

theorem inLastRows_iff {height : UInt32} (n : UInt32) : InLastRows width height n ↔
    ∃ i < 8, ∃ x < width.toNat, n = (height - charHeight + .ofNat i) * width + .ofNat x := by
  constructor
  · intro h
    have hw : 0 < width.toNat := by unfold InLastRows at h; omega
    refine ⟨(n - (height - charHeight) * width).toNat / width.toNat, ?_,
      (n - (height - charHeight) * width).toNat % width.toNat, Nat.mod_lt _ hw, ?_⟩
    · rw [Nat.div_lt_iff_lt_mul hw]
      exact h
    · have hdm := Nat.div_add_mod' (n - (height - charHeight) * width).toNat width.toNat
      have hn : n - (height - charHeight) * width =
          UInt32.ofNat ((n - (height - charHeight) * width).toNat / width.toNat) * width +
            UInt32.ofNat ((n - (height - charHeight) * width).toNat % width.toNat) := by
        apply UInt32.toNat_inj.mp
        rw [toNat_index width (by rw [hdm]; exact UInt32.toNat_lt _), hdm]
      grind
  · rintro ⟨i, hi, x, hx, rfl⟩
    have he : (height - charHeight + UInt32.ofNat i) * width + UInt32.ofNat x - (height - charHeight) * width =
        UInt32.ofNat i * width + UInt32.ofNat x := by grind
    have hix : i * width.toNat + x < 8 * width.toNat := by
      have := Nat.mul_le_mul_right width.toNat (show i + 1 ≤ 8 from hi)
      have hs : (i + 1) * width.toNat = i * width.toNat + width.toNat := by ring
      omega
    unfold InLastRows
    rw [he]
    simp only [UInt32.toNat_add, UInt32.toNat_mul, UInt32.toNat_ofNat', Nat.mod_mul_mod, Nat.add_mod_mod, Nat.mod_add_mod]
    exact lt_of_le_of_lt (Nat.mod_le _ _) hix

theorem blackRows_word {height : UInt32} (h8 : 8 ≤ height.toNat) (n : UInt32) :
    forRange (height - charHeight) height (blackRow width) base n =
      if InLastRows width height n then BLACK else base n := by
  have hrows : height.toNat - (height - charHeight).toNat = 8 := by
    have hle : charHeight ≤ height := UInt32.le_iff_toNat_le.mpr h8
    rw [UInt32.toNat_sub_of_le _ _ hle, show charHeight.toNat = 8 from rfl]
    omega
  simp only [inLastRows_iff]
  rw [← hrows]
  revert n
  refine forRange_inv (fun k (b : UInt32 → UInt32) => ∀ n, b n =
    if ∃ i < k, ∃ x < width.toNat, n = (height - charHeight + .ofNat i) * width + .ofNat x then BLACK else base n) ?_ ?_
  · intro n
    rw [if_neg (by simp)]
  · intro k b _ hb n
    rw [blackRow_word, hb]
    simp only [Nat.lt_succ_iff_lt_or_eq, or_and_right, exists_or, exists_eq_left]
    split <;> simp [*]

end Loops

/-! ## Rows that lie `pitch` apart -/

section Rows

variable {p w h : Nat} {o : Nat → Nat}

/-- Eight rows that start `p` apart on a circle of `N` words start in an arc of less than half of it: they follow each
other in one direction. -/
theorem rows_one_way {N lo len : Nat} (hp : p < N) (hstep : ∀ j < 7, o (j + 1) = (o j + p) % N)
    (ho : ∀ j < 8, lo ≤ o j ∧ o j ≤ lo + len) (hN : lo + len < N) (hlen : 2 * len < N) :
    7 * p ≤ len ∨ 7 * (N - p) ≤ len := by
  have hwrap : ∀ j < 7, o (j + 1) = o j + p ∨ o (j + 1) + (N - p) = o j := by
    intro j hj
    have := ho j (by omega)
    rw [hstep j hj]
    rcases Nat.lt_or_ge (o j + p) N with hlt | hge
    · rw [Nat.mod_eq_of_lt hlt]
      exact .inl rfl
    · rw [Nat.mod_eq_sub_mod hge, Nat.mod_eq_of_lt (by omega)]
      omega
  have h0 := ho 0 (by omega)
  have h7 := ho 7 (by omega)
  by_cases hpl : p ≤ len
  · have hup : ∀ j < 8, o j = o 0 + j * p := by
      intro j hj
      induction j with
      | zero => omega
      | succ j ih =>
        have := ho j (by omega)
        have := ho (j + 1) hj
        rcases hwrap j (by omega) with h | h
        · rw [h, ih (by omega)]
          ring
        · omega
    have := hup 7 (by omega)
    omega
  · have hdown : ∀ j < 8, o j + j * (N - p) = o 0 := by
      intro j hj
      induction j with
      | zero => omega
      | succ j ih =>
        have := ho j (by omega)
        have := ho (j + 1) hj
        rcases hwrap j (by omega) with h | h
        · omega
        · rw [← ih (by omega), ← h]
          ring
    have := hdown 7 (by omega)
    omega

/-- `o y` is how far row `y` starts behind the first of `8 * w` words. The last eight of the `h` rows lie in these and the
others do not: then the rows follow each other without a gap. -/
theorem pitch_eq_width (hw : 0 < w) (hwp : w ≤ p) (hp : p < 2 ^ 32) (hh : 16 ≤ h)
    (hstep : ∀ y, o (y + 1) = (o y + p) % 2 ^ 32) (hlt : ∀ y, o y < 2 ^ 32)
    (hlast : ∀ y, h - 8 ≤ y → y < h → ∀ x < w, (o y + x) % 2 ^ 32 < 8 * w)
    (hfirst : ∀ y < h - 8, ∀ x < w, 8 * w ≤ (o y + x) % 2 ^ 32)
    (hbase : (o (h - 8) + (h - 8) * w) % 2 ^ 32 = (h - 8) * p % 2 ^ 32) : p = w := by
  have htop : ∀ y < h - 8, 8 * w ≤ o y ∧ o y ≤ 2 ^ 32 - w := by
    intro y hy
    have h0 := hfirst y hy 0 hw
    rw [Nat.add_zero, Nat.mod_eq_of_lt (hlt y)] at h0
    refine ⟨h0, ?_⟩
    by_contra hn
    have h1 := hfirst y hy (2 ^ 32 - o y) (by omega)
    rw [Nat.add_sub_cancel' (hlt y).le, Nat.mod_self] at h1
    omega
  have hfree := htop 0 (by omega)
  have hbottom : ∀ y, h - 8 ≤ y → y < h → o y ≤ 7 * w := by
    intro y hy hy'
    have h0 := hlast y hy hy' 0 hw
    rw [Nat.add_zero, Nat.mod_eq_of_lt (hlt y)] at h0
    by_contra hn
    have h1 := hlast y hy hy' (8 * w - o y) (by omega)
    rw [Nat.add_sub_cancel' h0.le, Nat.mod_eq_of_lt (by omega)] at h1
    omega
  -- The rows go up by `w` words, or down by `w` words at most.
  have hway : p = w ∨ 2 ^ 32 - p ≤ w := by
    rcases Nat.lt_or_ge (14 * w) (2 ^ 32) with hN | hN
    · have hj : ∀ j < 8, 0 ≤ o (h - 8 + j) ∧ o (h - 8 + j) ≤ 0 + 7 * w := by
        intro j hj
        have := hbottom (h - 8 + j) (by omega) (by omega)
        omega
      have := rows_one_way (p := p) (o := fun j => o (h - 8 + j)) hp (fun j _ => hstep _) hj (by omega) (by omega)
      omega
    · have hj : ∀ j < 8, 8 * w ≤ o j ∧ o j ≤ 8 * w + (2 ^ 32 - 9 * w) := by
        intro j hj
        have := htop j (by omega)
        omega
      have := rows_one_way (p := p) hp (fun j _ => hstep j) hj (by omega) (by omega)
      omega
  rcases hway with hway | hway
  · exact hway
  · -- Down: by `w` words exactly, so that the last row would lie where row `h - 8` has to lie.
    have hfirst' := htop (h - 9) (by omega)
    have hlast' := hbottom (h - 8) le_rfl (by omega)
    have hnext := hstep (h - 9)
    rw [show h - 9 + 1 = h - 8 by omega, Nat.mod_eq_sub_mod (by omega), Nat.mod_eq_of_lt (by omega)] at hnext
    have hpw : p = 2 ^ 32 - w := by omega
    have ho : o (h - 8) = 7 * w := by omega
    obtain ⟨k, rfl⟩ : ∃ k, h = k + 8 := ⟨h - 8, by omega⟩
    rw [Nat.add_sub_cancel] at hbase ho
    have hsum : (k * p + k * w) % 2 ^ 32 = 0 := by
      rw [← Nat.mul_add, show p + w = 2 ^ 32 by omega, Nat.mul_mod_left]
    have hodd : ((2 * k + 7) * w) % 2 ^ 32 = 0 := by
      rw [Nat.add_mod, ← hbase, ← Nat.add_mod] at hsum
      rw [← hsum, ho]
      congr 1
      ring
    have hcop : Nat.Coprime (2 ^ 32) (2 * k + 7) := by
      apply Nat.Coprime.pow_left
      rw [Nat.coprime_two_left]
      exact ⟨k + 3, by ring⟩
    have hdvd := hcop.dvd_of_dvd_mul_left (Nat.dvd_of_mod_eq_zero hodd)
    have := Nat.le_of_dvd hw hdvd
    omega

end Rows

/-! ## Scrolling -/

section Scroll

variable {s : Screen}

theorem autoScrollCheck_geometry (s : Screen) : (autoScrollCheck s).fb.width = s.fb.width ∧
    (autoScrollCheck s).fb.height = s.fb.height ∧ (autoScrollCheck s).fb.pitch = s.fb.pitch := by
  unfold autoScrollCheck
  split <;> exact ⟨rfl, rfl, rfl⟩

theorem autoScrollCheck_pixel (s : Screen) (x y : UInt32) :
    (autoScrollCheck s).fb.pixel x y = (autoScrollCheck s).fb.base (s.fb.index x y) := by
  rw [Framebuffer.pixel, Framebuffer.index, (autoScrollCheck_geometry s).2.2, Framebuffer.index]

/-- On a screen of one colour, only the last rows change. -/
theorem autoScrollCheck_const {c : UInt32} (hbase : ∀ n, s.fb.base n = c) (h8 : 8 ≤ s.fb.height.toNat)
    (hs : s.fb.height ≤ s.cursor.y + charHeight) (n : UInt32) :
    (autoScrollCheck s).fb.base n = if InLastRows s.fb.width s.fb.height n then BLACK else c := by
  rw [autoScrollCheck, if_pos hs]
  show forRange (s.fb.height - charHeight) s.fb.height (blackRow s.fb.width) _ n = _
  rw [blackRows_word h8, copyRows_const hbase]

theorem autoScrollCheck_word (hfit : s.fb.width.toNat * s.fb.height.toNat ≤ 2 ^ 32) (h8 : 8 ≤ s.fb.height.toNat)
    (hs : s.fb.height ≤ s.cursor.y + charHeight) (n : UInt32) :
    (autoScrollCheck s).fb.base n =
      if InLastRows s.fb.width s.fb.height n then BLACK
      else if n.toNat < (s.fb.height.toNat - 8) * s.fb.width.toNat then s.fb.base (n + 8 * s.fb.width)
      else s.fb.base n := by
  rw [autoScrollCheck, if_pos hs]
  show forRange (s.fb.height - charHeight) s.fb.height (blackRow s.fb.width) _ n = _
  rw [blackRows_word h8, copyRows_word hfit]

theorem toNat_lastRow {height : UInt32} (h8 : 8 ≤ height.toNat) : (height - charHeight).toNat = height.toNat - 8 := by
  have hle : charHeight ≤ height := UInt32.le_iff_toNat_le.mpr h8
  rw [UInt32.toNat_sub_of_le _ _ hle]
  rfl

/-- A screen whose rows follow each other without a gap, with as many words as there are numbers. -/
theorem autoScrollCheck_movesUp (hp : s.fb.pitch = s.fb.width)
    (hfit : s.fb.width.toNat * s.fb.height.toNat ≤ 2 ^ 32) (hh : 16 ≤ s.fb.height.toNat)
    (hs : s.fb.height ≤ s.cursor.y + charHeight) : s.fb.MovesUp (autoScrollCheck s).fb := by
  have hword := autoScrollCheck_word hfit (by omega) hs
  have hlast := toNat_lastRow (show 8 ≤ s.fb.height.toNat by omega)
  have hidx : ∀ x y : UInt32, x < s.fb.width → y < s.fb.height → (s.fb.index x y).toNat =
      y.toNat * s.fb.width.toNat + x.toNat ∧ (y.toNat + 1) * s.fb.width.toNat ≤ s.fb.width.toNat * s.fb.height.toNat := by
    intro x y hx hy
    have hx := UInt32.lt_iff_toNat_lt.mp hx
    have hmul : (y.toNat + 1) * s.fb.width.toNat ≤ s.fb.width.toNat * s.fb.height.toNat := by
      rw [Nat.mul_comm]
      exact Nat.mul_le_mul_left _ (UInt32.lt_iff_toNat_lt.mp hy)
    have hsucc : (y.toNat + 1) * s.fb.width.toNat = y.toNat * s.fb.width.toNat + s.fb.width.toNat := by ring
    have h := toNat_index s.fb.width (show y.toNat * s.fb.width.toNat + x.toNat < 2 ^ 32 by omega)
    rw [UInt32.ofNat_toNat, UInt32.ofNat_toNat] at h
    rw [Framebuffer.index, hp]
    exact ⟨h, hmul⟩
  refine ⟨?moved, ?cleared, ?frame⟩
  case moved =>
    intro x y hx hy
    have hy' := UInt32.lt_iff_toNat_lt.mp hy
    have hyh : y < s.fb.height := UInt32.lt_iff_toNat_lt.mpr (by omega)
    obtain ⟨hi, -⟩ := hidx x y hx hyh
    have hx' := UInt32.lt_iff_toNat_lt.mp hx
    have habove : (s.fb.index x y).toNat < (s.fb.height.toNat - 8) * s.fb.width.toNat := by
      have := Nat.mul_le_mul_right s.fb.width.toNat (show y.toNat + 1 ≤ s.fb.height.toNat - 8 by omega)
      have hsucc : (y.toNat + 1) * s.fb.width.toNat = y.toNat * s.fb.width.toNat + s.fb.width.toNat := by ring
      omega
    have hsplit : (s.fb.height.toNat - 8) * s.fb.width.toNat + 8 * s.fb.width.toNat =
        s.fb.width.toNat * s.fb.height.toNat := by
      rw [← Nat.add_mul, Nat.sub_add_cancel (by omega), Nat.mul_comm]
    have hnot : ¬ InLastRows s.fb.width s.fb.height (s.fb.index x y) := by
      unfold InLastRows
      rw [UInt32.toNat_sub, UInt32.toNat_mul, hlast, Nat.mod_eq_of_lt (show _ < 2 ^ 32 by omega), Nat.mod_eq_of_lt (by omega)]
      omega
    rw [autoScrollCheck_pixel, hword, if_neg hnot, if_pos habove, Framebuffer.pixel]
    congr 1
    rw [Framebuffer.index, Framebuffer.index, hp, charHeight]
    grind
  case cleared =>
    intro x y hx hlo hhi
    rw [autoScrollCheck_pixel, hword, if_pos]
    have hlo' := UInt32.le_iff_toNat_le.mp hlo
    have hhi' := UInt32.lt_iff_toNat_lt.mp hhi
    refine (inLastRows_iff _).mpr ⟨y.toNat - (s.fb.height.toNat - 8), by omega, x.toNat, UInt32.lt_iff_toNat_lt.mp hx, ?_⟩
    have hy : s.fb.height - charHeight + UInt32.ofNat (y.toNat - (s.fb.height.toNat - 8)) = y := by
      apply UInt32.toNat_inj.mp
      rw [UInt32.toNat_add, UInt32.toNat_ofNat', hlast]
      have := y.toNat_lt
      omega
    rw [hy, UInt32.ofNat_toNat, Framebuffer.index, hp]
  case frame =>
    intro n hn
    have hrows : ∀ i < s.fb.height.toNat, ∀ x < s.fb.width.toNat, n ≠ UInt32.ofNat i * s.fb.width + UInt32.ofNat x := by
      intro i hi x hx
      have hx32 := s.fb.width.toNat_lt
      have hi32 := s.fb.height.toNat_lt
      have h := hn (UInt32.ofNat x) (UInt32.ofNat i)
      rw [Framebuffer.index, hp] at h
      apply h
      · rw [UInt32.lt_iff_toNat_lt, UInt32.toNat_ofNat', Nat.mod_eq_of_lt (by omega)]
        exact hx
      · rw [UInt32.lt_iff_toNat_lt, UInt32.toNat_ofNat', Nat.mod_eq_of_lt (by omega)]
        exact hi
    have hnot : ¬ InLastRows s.fb.width s.fb.height n := by
      rw [inLastRows_iff]
      rintro ⟨i, hi, x, hx, he⟩
      apply hrows (s.fb.height.toNat - 8 + i) (by omega) x hx
      rw [he, UInt32.ofNat_add, ← hlast, UInt32.ofNat_toNat]
    have hout : ¬ n.toNat < (s.fb.height.toNat - 8) * s.fb.width.toNat := by
      intro hlt
      have hw : 0 < s.fb.width.toNat := by
        rcases Nat.eq_zero_or_pos s.fb.width.toNat with h0 | h0
        · rw [h0] at hlt
          omega
        · exact h0
      have hq := (Nat.div_lt_iff_lt_mul hw).mpr hlt
      apply hrows (n.toNat / s.fb.width.toNat) (by omega) (n.toNat % s.fb.width.toNat) (Nat.mod_lt _ hw)
      have hdm := Nat.div_add_mod' n.toNat s.fb.width.toNat
      apply UInt32.toNat_inj.mp
      rw [toNat_index s.fb.width (by rw [hdm]; exact n.toNat_lt), hdm]
    rw [hword, if_neg hnot, if_neg hout]

end Scroll

/-! ## The screens that scroll -/

/-- A white screen, with the cursor on its last line of text. -/
def whiteScreen (width height pitch : UInt32) : Screen where
  fb := ⟨fun _ => WHITE, width, height, pitch⟩
  cursor := ⟨0, height - charHeight, WHITE, RED⟩
  scrollOffset := 0

section White

variable {width height pitch : UInt32}

theorem whiteScreen_scrolls :
    (whiteScreen width height pitch).fb.height ≤ (whiteScreen width height pitch).cursor.y + charHeight := by
  show height ≤ height - charHeight + charHeight
  rw [UInt32.sub_add_cancel]
  exact UInt32.le_refl _

/-- The white screens show which pixels lie among the words that become black: those of the last rows. -/
theorem inLastRows_iff_of_movesUp (hh : 16 ≤ height.toNat)
    (hup : (whiteScreen width height pitch).fb.MovesUp (autoScrollCheck (whiteScreen width height pitch)).fb) {x y : UInt32}
    (hx : x < width) (hy : y < height) : InLastRows width height (y * pitch + x) ↔ height - charHeight ≤ y := by
  have hcolor : (autoScrollCheck (whiteScreen width height pitch)).fb.pixel x y =
      if InLastRows width height (y * pitch + x) then BLACK else WHITE := by
    rw [autoScrollCheck_pixel]
    exact autoScrollCheck_const (fun _ => rfl) (show 8 ≤ height.toNat by omega) whiteScreen_scrolls _
  rcases UInt32.lt_or_le y (height - charHeight) with hlt | hge
  · have hw : (autoScrollCheck (whiteScreen width height pitch)).fb.pixel x y = WHITE := hup.moved x y hx hlt
    rw [hcolor] at hw
    constructor
    · intro h
      rw [if_pos h] at hw
      exact absurd hw (by decide)
    · intro h
      exact absurd hlt (UInt32.not_lt.mpr h)
  · have hb : (autoScrollCheck (whiteScreen width height pitch)).fb.pixel x y = BLACK := hup.cleared x y hx hge hy
    rw [hcolor] at hb
    refine iff_of_true ?_ hge
    by_contra h
    rw [if_neg h] at hb
    exact absurd hb (by decide)

theorem pitch_eq_of_movesUp (hwp : width ≤ pitch) (hh : 16 ≤ height.toNat) (hw : 0 < width.toNat)
    (hup : (whiteScreen width height pitch).fb.MovesUp (autoScrollCheck (whiteScreen width height pitch)).fb) :
    pitch = width := by
  have hlast := toNat_lastRow (show 8 ≤ height.toNat by omega)
  have hpix : ∀ y < height.toNat, ∀ x < width.toNat,
      ((UInt32.ofNat y * pitch - (height - charHeight) * width).toNat + x) % 2 ^ 32 < 8 * width.toNat ↔
        height.toNat - 8 ≤ y := by
    intro y hy x hx
    have hh32 := height.toNat_lt
    have hw32 := width.toNat_lt
    have hx' : UInt32.ofNat x < width := by
      rw [UInt32.lt_iff_toNat_lt, UInt32.toNat_ofNat', Nat.mod_eq_of_lt (by omega)]
      exact hx
    have hy' : UInt32.ofNat y < height := by
      rw [UInt32.lt_iff_toNat_lt, UInt32.toNat_ofNat', Nat.mod_eq_of_lt (by omega)]
      exact hy
    have h := inLastRows_iff_of_movesUp hh hup hx' hy'
    have he : UInt32.ofNat y * pitch + UInt32.ofNat x - (height - charHeight) * width =
        UInt32.ofNat y * pitch - (height - charHeight) * width + UInt32.ofNat x := by grind
    rw [InLastRows, he, UInt32.toNat_add, UInt32.toNat_ofNat', Nat.add_mod_mod, UInt32.le_iff_toNat_le, hlast,
      UInt32.toNat_ofNat', Nat.mod_eq_of_lt (show y < 2 ^ 32 by omega)] at h
    exact h
  apply UInt32.toNat_inj.mp
  apply pitch_eq_width (h := height.toNat) (o := fun y => (UInt32.ofNat y * pitch - (height - charHeight) * width).toNat) hw
    (UInt32.le_iff_toNat_le.mp hwp) pitch.toNat_lt hh
  case hstep =>
    intro y
    rw [← UInt32.toNat_add]
    congr 1
    rw [UInt32.ofNat_add]
    grind
  case hlt => exact fun y => UInt32.toNat_lt _
  case hlast => exact fun y hlo hhi x hx => (hpix y hhi x hx).mpr hlo
  case hfirst =>
    intro y hy x hx
    by_contra h
    have := (hpix y (by omega) x hx).mp (by omega)
    omega
  case hbase =>
    have hsum : UInt32.ofNat (height.toNat - 8) * pitch - (height - charHeight) * width + (height - charHeight) * width =
        (height - charHeight) * pitch := by
      rw [← hlast, UInt32.ofNat_toNat, UInt32.sub_add_cancel]
    have h := congrArg UInt32.toNat hsum
    rwa [UInt32.toNat_add, UInt32.toNat_mul, UInt32.toNat_mul, hlast, Nat.add_mod_mod] at h

/-- With more words than numbers, the last pixel has the number of one in the rows above the last. -/
theorem fits_of_movesUp (hh : 16 ≤ height.toNat) (hw : 0 < width.toNat)
    (hup : (whiteScreen width height width).fb.MovesUp (autoScrollCheck (whiteScreen width height width)).fb) :
    width.toNat * height.toNat ≤ 2 ^ 32 := by
  have hlast := toNat_lastRow (show 8 ≤ height.toNat by omega)
  have hfree : 8 * width.toNat < 2 ^ 32 := by
    by_contra hn
    have hx : (0 : UInt32) < width := UInt32.lt_iff_toNat_lt.mpr hw
    have hy : (0 : UInt32) < height := UInt32.lt_iff_toNat_lt.mpr (lt_of_lt_of_le (by decide) hh)
    have h := (inLastRows_iff_of_movesUp hh hup hx hy).mp (lt_of_lt_of_le (UInt32.toNat_lt _) (by omega))
    rw [UInt32.le_iff_toNat_le, hlast, UInt32.toNat_zero] at h
    omega
  by_contra hn
  have hsplit : (height.toNat - 8) * width.toNat + 8 * width.toNat = width.toNat * height.toNat := by
    rw [← Nat.add_mul, Nat.sub_add_cancel (by omega), Nat.mul_comm]
  generalize hm : width.toNat * height.toNat - 1 - 2 ^ 32 = m
  have hm' : m < (height.toNat - 8) * width.toNat := by omega
  have hq : m / width.toNat < height.toNat - 8 := (Nat.div_lt_iff_lt_mul hw).mpr hm'
  have hr := Nat.mod_lt m hw
  have hh32 := height.toNat_lt
  have hw32 := width.toNat_lt
  have hx : UInt32.ofNat (m % width.toNat) < width := by
    rw [UInt32.lt_iff_toNat_lt, UInt32.toNat_ofNat', Nat.mod_eq_of_lt (by omega)]
    exact hr
  have hy : UInt32.ofNat (m / width.toNat) < height := by
    rw [UInt32.lt_iff_toNat_lt, UInt32.toNat_ofNat', Nat.mod_eq_of_lt (by omega)]
    omega
  have hin : InLastRows width height (UInt32.ofNat (m / width.toNat) * width + UInt32.ofNat (m % width.toNat)) := by
    refine (inLastRows_iff _).mpr ⟨7, by omega, width.toNat - 1, by omega, ?_⟩
    have hdm := Nat.div_add_mod' m width.toNat
    apply UInt32.toNat_inj.mp
    have h7 : height - charHeight + UInt32.ofNat 7 = UInt32.ofNat (height.toNat - 1) := by
      apply UInt32.toNat_inj.mp
      rw [UInt32.toNat_add, hlast, UInt32.toNat_ofNat', UInt32.toNat_ofNat']
      omega
    have hend : (height.toNat - 1) * width.toNat + width.toNat = width.toNat * height.toNat := by
      rw [← Nat.succ_mul, Nat.succ_eq_add_one, Nat.sub_add_cancel (by omega), Nat.mul_comm]
    rw [h7]
    simp only [UInt32.toNat_add, UInt32.toNat_mul, UInt32.toNat_ofNat', Nat.mod_mul_mod, Nat.add_mod_mod, Nat.mod_add_mod]
    rw [hdm, show (height.toNat - 1) * width.toNat + (width.toNat - 1) = m + 2 ^ 32 by omega, Nat.add_mod_right]
  have h := (inLastRows_iff_of_movesUp hh hup hx hy).mp hin
  rw [UInt32.le_iff_toNat_le, hlast, UInt32.toNat_ofNat', Nat.mod_eq_of_lt (by omega)] at h
  omega

end White

/-- Scrolling moves the picture up on the screens without padding whose words have 32-bit numbers, and on no others that
have a column. -/
theorem autoScrollCheck_movesUp_iff (width height pitch : UInt32) (hp : width ≤ pitch) (hh : 16 ≤ height) :
    (∀ (base : UInt32 → UInt32) (cursor : Cursor) (scrollOffset : Int), height ≤ cursor.y + charHeight →
      Framebuffer.MovesUp ⟨base, width, height, pitch⟩
        (autoScrollCheck ⟨⟨base, width, height, pitch⟩, cursor, scrollOffset⟩).fb) ↔
      width = 0 ∨ (pitch = width ∧ width.toNat * height.toNat ≤ 2 ^ 32) := by
  have hh : 16 ≤ height.toNat := UInt32.le_iff_toNat_le.mp hh
  constructor
  · intro h
    have hup : (whiteScreen width height pitch).fb.MovesUp (autoScrollCheck (whiteScreen width height pitch)).fb :=
      h (fun _ => WHITE) ⟨0, height - charHeight, WHITE, RED⟩ 0
        (by rw [UInt32.sub_add_cancel]; exact UInt32.le_refl _)
    rcases Nat.eq_zero_or_pos width.toNat with hw | hw
    · exact .inl (UInt32.toNat_inj.mp hw)
    · obtain rfl := pitch_eq_of_movesUp hp hh hw hup
      exact .inr ⟨rfl, fits_of_movesUp hh hw hup⟩
  · rintro (rfl | ⟨rfl, hfit⟩) base cursor scrollOffset hs
    · have hrow : ∀ x : UInt32, ¬ x < 0 := fun x => UInt32.not_lt_zero
      refine ⟨fun x y hx => absurd hx (hrow x), fun x y hx => absurd hx (hrow x), fun n _ => ?_⟩
      have hword := autoScrollCheck_word (s := ⟨⟨base, 0, height, pitch⟩, cursor, scrollOffset⟩) (by simp)
        (show 8 ≤ height.toNat by omega) hs n
      rwa [if_neg (by simp [InLastRows]), if_neg (by simp)] at hword
    · exact autoScrollCheck_movesUp (s := ⟨⟨base, _, height, _⟩, cursor, scrollOffset⟩) rfl hfit hh hs

/-- A screen of 1024 × 768. -/
theorem autoScrollCheck_movesUp_iff_xga :
    ((1024 : UInt32) ≤ 1024 ∧ (16 : UInt32) ≤ 768) ∧
    ((∀ (base : UInt32 → UInt32) (cursor : Cursor) (scrollOffset : Int), 768 ≤ cursor.y + charHeight →
      Framebuffer.MovesUp ⟨base, 1024, 768, 1024⟩ (autoScrollCheck ⟨⟨base, 1024, 768, 1024⟩, cursor, scrollOffset⟩).fb) ↔
      (1024 : UInt32) = 0 ∨ ((1024 : UInt32) = 1024 ∧ (1024 : UInt32).toNat * (768 : UInt32).toNat ≤ 2 ^ 32)) :=
  ⟨⟨by decide, by decide⟩, autoScrollCheck_movesUp_iff 1024 768 1024 (by decide) (by decide)⟩

/-- On 1366 × 768 with ten words of padding the last rows do not become black. -/
theorem padding_not_movesUp :
    (1366 : UInt32) ≤ 1376 ∧ (16 : UInt32) ≤ 768 ∧
      (whiteScreen 1366 768 1376).fb.height ≤ (whiteScreen 1366 768 1376).cursor.y + charHeight ∧
      ¬ (whiteScreen 1366 768 1376).fb.MovesUp (autoScrollCheck (whiteScreen 1366 768 1376)).fb :=
  ⟨by decide, by decide, whiteScreen_scrolls, fun h =>
    absurd (pitch_eq_of_movesUp (by decide) (by decide) (by decide) h) (by decide)⟩

end AmqOs.Print
