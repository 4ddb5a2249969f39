import AmqOs.Print.AutoScroll

/-!
# Drawing

What `put_pixel` and the loops around it do to the picture. On a screen that fits into the words with 32-bit numbers
(`Framebuffer.Fits`) a pixel has a word of its own, so `put_pixel` changes one pixel and nothing else (`pixel_putPixel`),
and a loop over a rectangle of pixels, which may hang over the edges of the screen, paints the rectangle
(`pixel_fillRect`). `Framebuffer.Draws` is what all drawing has in common: the screen has the same shape, and memory
behind its pixels stays as it is.
-/

set_option autoImplicit false

namespace AmqOs.Print

open AmqOs.Lib

namespace Framebuffer

/-- Every pixel has a word, and the words have 32-bit numbers. -/
structure Fits (fb : Framebuffer) : Prop where
  width_le : fb.width ≤ fb.pitch
  words : fb.pitch.toNat * fb.height.toNat ≤ 2 ^ 32

/-- The rows follow each other without a gap. -/
structure Flat (fb : Framebuffer) : Prop where
  pitch : fb.pitch = fb.width
  words : fb.width.toNat * fb.height.toNat ≤ 2 ^ 32

/-- The screen has the same shape, and only its pixels change. -/
structure Draws (fb fb' : Framebuffer) : Prop where
  width : fb'.width = fb.width
  height : fb'.height = fb.height
  pitch : fb'.pitch = fb.pitch
  frame : ∀ n, (∀ x y, x < fb.width → y < fb.height → n ≠ fb.index x y) → fb'.base n = fb.base n

variable {fb fb' fb'' : Framebuffer} {x y x' y' : UInt32}

theorem Flat.fits (h : fb.Flat) : fb.Fits :=
  ⟨by rw [h.pitch]; exact UInt32.le_refl _, by rw [h.pitch]; exact h.words⟩

theorem Draws.refl (fb : Framebuffer) : fb.Draws fb := ⟨rfl, rfl, rfl, fun _ _ => rfl⟩

theorem Draws.index (h : fb.Draws fb') (x y : UInt32) : fb'.index x y = fb.index x y := by
  rw [Framebuffer.index, h.pitch, Framebuffer.index]

theorem Draws.trans (h : fb.Draws fb') (h' : fb'.Draws fb'') : fb.Draws fb'' := by
  refine ⟨h'.width.trans h.width, h'.height.trans h.height, h'.pitch.trans h.pitch, fun n hn => ?_⟩
  have hn' : ∀ x y, x < fb'.width → y < fb'.height → n ≠ fb'.index x y := by
    intro x y hx hy
    rw [h.index]
    exact hn x y (h.width ▸ hx) (h.height ▸ hy)
  rw [h'.frame n hn', h.frame n hn]

theorem Draws.fits (h : fb.Draws fb') (hfit : fb.Fits) : fb'.Fits :=
  ⟨by rw [h.width, h.pitch]; exact hfit.width_le, by rw [h.height, h.pitch]; exact hfit.words⟩

theorem Draws.flat (h : fb.Draws fb') (hflat : fb.Flat) : fb'.Flat :=
  ⟨by rw [h.width, h.pitch]; exact hflat.pitch, by rw [h.height, h.width]; exact hflat.words⟩

theorem toNat_index (hfit : fb.Fits) (hx : x < fb.width) (hy : y < fb.height) :
    (fb.index x y).toNat = y.toNat * fb.pitch.toNat + x.toNat := by
  have hx' : x.toNat < fb.pitch.toNat :=
    lt_of_lt_of_le (UInt32.lt_iff_toNat_lt.mp hx) (UInt32.le_iff_toNat_le.mp hfit.width_le)
  have hrow : (y.toNat + 1) * fb.pitch.toNat ≤ fb.pitch.toNat * fb.height.toNat := by
    rw [Nat.mul_comm]
    exact Nat.mul_le_mul_left _ (UInt32.lt_iff_toNat_lt.mp hy)
  have hsucc : (y.toNat + 1) * fb.pitch.toNat = y.toNat * fb.pitch.toNat + fb.pitch.toNat := by ring
  have hwords := hfit.words
  have h := AmqOs.Print.toNat_index fb.pitch (show y.toNat * fb.pitch.toNat + x.toNat < 2 ^ 32 by omega)
  rwa [UInt32.ofNat_toNat, UInt32.ofNat_toNat] at h

/-- Two pixels do not share a word. -/
theorem index_inj (hfit : fb.Fits) (hx : x < fb.width) (hy : y < fb.height) (hx' : x' < fb.width) (hy' : y' < fb.height)
    (h : fb.index x y = fb.index x' y') : x = x' ∧ y = y' := by
  have hlt : x.toNat < fb.pitch.toNat :=
    lt_of_lt_of_le (UInt32.lt_iff_toNat_lt.mp hx) (UInt32.le_iff_toNat_le.mp hfit.width_le)
  have hlt' : x'.toNat < fb.pitch.toNat :=
    lt_of_lt_of_le (UInt32.lt_iff_toNat_lt.mp hx') (UInt32.le_iff_toNat_le.mp hfit.width_le)
  have heq : y.toNat * fb.pitch.toNat + x.toNat = y'.toNat * fb.pitch.toNat + x'.toNat := by
    rw [← toNat_index hfit hx hy, ← toNat_index hfit hx' hy', h]
  have hmod := congrArg (· % fb.pitch.toNat) heq
  have hdiv := congrArg (· / fb.pitch.toNat) heq
  simp only [Nat.mul_add_mod', Nat.mod_eq_of_lt hlt, Nat.mod_eq_of_lt hlt'] at hmod
  have hpos : 0 < fb.pitch.toNat := by omega
  simp only [Nat.add_comm (_ * _), Nat.add_mul_div_right _ _ hpos, Nat.div_eq_of_lt hlt, Nat.div_eq_of_lt hlt',
    Nat.zero_add] at hdiv
  exact ⟨UInt32.toNat_inj.mp hmod, UInt32.toNat_inj.mp hdiv⟩

end Framebuffer

/-! ## One pixel -/

section Pixel

variable {fb : Framebuffer} {x y : UInt32}

theorem putPixel_draws (fb : Framebuffer) (x y color : UInt32) : fb.Draws (putPixel fb x y color) := by
  unfold putPixel
  split
  · exact .refl fb
  · rename_i hin
    rw [not_or, UInt32.not_le, UInt32.not_le] at hin
    refine ⟨rfl, rfl, rfl, fun n hn => Function.update_of_ne (hn x y hin.1 hin.2) _ _⟩

theorem pixel_putPixel (hfit : fb.Fits) (x₀ y₀ color : UInt32) (hx : x < fb.width) (hy : y < fb.height) :
    (putPixel fb x₀ y₀ color).pixel x y = if x = x₀ ∧ y = y₀ then color else fb.pixel x y := by
  split
  · rename_i h
    obtain ⟨rfl, rfl⟩ := h
    exact putPixel_pixel fb color hx hy
  · rename_i h
    unfold putPixel
    split
    · rfl
    · rename_i hin
      rw [not_or, UInt32.not_le, UInt32.not_le] at hin
      have hne : fb.index x y ≠ fb.index x₀ y₀ := fun he => h (Framebuffer.index_inj hfit hx hy hin.1 hin.2 he)
      exact Function.update_of_ne hne _ _

end Pixel

/-! ## Rectangles -/

/-- `for (dy = 0; dy < h; dy++) for (dx = 0; dx < w; dx++) put_pixel(x + dx, y + dy, color(dx, dy))` -/
def fillRect (x y : UInt32) (w h : Nat) (color : Nat → Nat → UInt32) : Framebuffer → Framebuffer :=
  forUpTo (fun dy => forUpTo (fun dx fb => putPixel fb (x + .ofNat dx) (y + .ofNat dy) (color dx dy)) w) h

section Rect

variable {fb : Framebuffer} {x y x₀ y₀ : UInt32} {w h : Nat} {color : Nat → Nat → UInt32}

/-- Loops whose turns draw. -/
theorem forUpTo_draws {f : Nat → Framebuffer → Framebuffer} {n : Nat} (hf : ∀ i < n, ∀ fb : Framebuffer, fb.Draws (f i fb))
    (fb : Framebuffer) : fb.Draws (forUpTo f n fb) :=
  forUpTo_inv (fun _ fb' => fb.Draws fb') (.refl fb) fun i fb' hi hd => hd.trans (hf i hi fb')

theorem fillRect_draws (x₀ y₀ : UInt32) (w h : Nat) (color : Nat → Nat → UInt32) (fb : Framebuffer) :
    fb.Draws (fillRect x₀ y₀ w h color fb) :=
  forUpTo_draws (fun _ _ => forUpTo_draws fun _ _ fb => putPixel_draws fb _ _ _) fb

/-- The offsets that lead from `a` to `b`, below the number of words. -/
theorem eq_add_ofNat_iff {a b : UInt32} {i : Nat} (hi : i < 2 ^ 32) : b = a + .ofNat i ↔ (b - a).toNat = i := by
  constructor
  · rintro rfl
    rw [UInt32.add_comm, UInt32.add_sub_cancel, UInt32.toNat_ofNat', Nat.mod_eq_of_lt hi]
  · rintro rfl
    rw [UInt32.ofNat_toNat]
    exact (UInt32.add_comm a (b - a) ▸ UInt32.sub_add_cancel b a).symm

/-- One row of a rectangle. -/
theorem pixel_fillRow (hfit : fb.Fits) (hw : w ≤ 2 ^ 32) (row : UInt32) (c : Nat → UInt32) (hx : x < fb.width)
    (hy : y < fb.height) :
    (forUpTo (fun dx fb => putPixel fb (x₀ + .ofNat dx) row (c dx)) w fb).pixel x y =
      if (x - x₀).toNat < w ∧ y = row then c (x - x₀).toNat else fb.pixel x y := by
  refine (forUpTo_inv (fun i (fb' : Framebuffer) => fb.Draws fb' ∧
    fb'.pixel x y = if (x - x₀).toNat < i ∧ y = row then c (x - x₀).toNat else fb.pixel x y) ?_ ?_).2
  · exact ⟨.refl fb, by rw [if_neg (by omega)]⟩
  · rintro i fb' hi ⟨hd, hpix⟩
    refine ⟨hd.trans (putPixel_draws _ _ _ _), ?_⟩
    rw [pixel_putPixel (hd.fits hfit) _ _ _ (hd.width ▸ hx) (hd.height ▸ hy), hpix]
    simp only [eq_add_ofNat_iff (show i < 2 ^ 32 by omega)]
    by_cases hrow : y = row
    · by_cases hcol : (x - x₀).toNat = i
      · rw [if_pos ⟨hcol, hrow⟩, if_pos ⟨by omega, hrow⟩, hcol]
      · rw [if_neg (fun h => hcol h.1)]
        simp only [hrow, and_true]
        congr 1
        rw [eq_iff_iff]
        omega
    · rw [if_neg (fun h => hrow h.2), if_neg (fun h => hrow h.2), if_neg (fun h => hrow h.2)]

/-- The part of the rectangle that is on the screen is painted, the rest of the picture stays. -/
theorem pixel_fillRect (hfit : fb.Fits) (hw : w ≤ 2 ^ 32) (hh : h ≤ 2 ^ 32) (hx : x < fb.width) (hy : y < fb.height) :
    (fillRect x₀ y₀ w h color fb).pixel x y =
      if (x - x₀).toNat < w ∧ (y - y₀).toNat < h then color (x - x₀).toNat (y - y₀).toNat else fb.pixel x y := by
  refine (forUpTo_inv (fun i (fb' : Framebuffer) => fb.Draws fb' ∧ fb'.pixel x y =
    if (x - x₀).toNat < w ∧ (y - y₀).toNat < i then color (x - x₀).toNat (y - y₀).toNat else fb.pixel x y) ?_ ?_).2
  · exact ⟨.refl fb, by rw [if_neg (by omega)]⟩
  · rintro i fb' hi ⟨hd, hpix⟩
    refine ⟨hd.trans (forUpTo_draws (fun _ _ fb => putPixel_draws fb _ _ _) fb'), ?_⟩
    rw [pixel_fillRow (hd.fits hfit) hw _ _ (hd.width ▸ hx) (hd.height ▸ hy), hpix]
    simp only [eq_add_ofNat_iff (show i < 2 ^ 32 by omega)]
    by_cases hcol : (x - x₀).toNat < w
    · by_cases hrow : (y - y₀).toNat = i
      · rw [if_pos ⟨hcol, hrow⟩, if_pos ⟨hcol, by omega⟩, hrow]
      · rw [if_neg (fun h => hrow h.2)]
        congr 1
        rw [eq_iff_iff]
        omega
    · rw [if_neg (fun h => hcol h.1), if_neg (fun h => hcol h.1), if_neg (fun h => hcol h.1)]

end Rect

end AmqOs.Print
