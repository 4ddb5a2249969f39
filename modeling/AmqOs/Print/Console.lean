import AmqOs.Lib.CString
import AmqOs.Print.Picture

/-!
# The text console

`printc` draws characters into the framebuffer and scrolls it. What it is for is the `Page`: text on paper without end, on
which characters are typed at the pen. A line is as long as the screen is wide, and the paper does not move; a window on it,
as high as the screen, follows the pen downwards. `Shows` says that the screen is the window, pixel by pixel, and it is kept
by all that is printed (`Shows.printc`), on a screen whose rows follow each other without a gap and that has room for a
character and two lines.

The last line of the screen stays empty: `auto_scroll_check` moves the window before the pen gets there.
-/

set_option autoImplicit false

namespace AmqOs.Print

open AmqOs.Lib

/-! ## Characters -/

/-- `font8x8_basic` -/
def font8x8Basic : List (List UInt8) := [
  [0x00, 0x00, 0x00, 0x00, 0x00, 0x00, 0x00, 0x00], [0x00, 0x00, 0x00, 0x00, 0x00, 0x00, 0x00, 0x00],
  [0x00, 0x00, 0x00, 0x00, 0x00, 0x00, 0x00, 0x00], [0x00, 0x00, 0x00, 0x00, 0x00, 0x00, 0x00, 0x00],
  [0x00, 0x00, 0x00, 0x00, 0x00, 0x00, 0x00, 0x00], [0x00, 0x00, 0x00, 0x00, 0x00, 0x00, 0x00, 0x00],
  [0x00, 0x00, 0x00, 0x00, 0x00, 0x00, 0x00, 0x00], [0x00, 0x00, 0x00, 0x00, 0x00, 0x00, 0x00, 0x00],
  [0x00, 0x00, 0x00, 0x00, 0x00, 0x00, 0x00, 0x00], [0x00, 0x00, 0x00, 0x00, 0x00, 0x00, 0x00, 0x00],
  [0x00, 0x00, 0x00, 0x00, 0x00, 0x00, 0x00, 0x00], [0x00, 0x00, 0x00, 0x00, 0x00, 0x00, 0x00, 0x00],
  [0x00, 0x00, 0x00, 0x00, 0x00, 0x00, 0x00, 0x00], [0x00, 0x00, 0x00, 0x00, 0x00, 0x00, 0x00, 0x00],
  [0x00, 0x00, 0x00, 0x00, 0x00, 0x00, 0x00, 0x00], [0x00, 0x00, 0x00, 0x00, 0x00, 0x00, 0x00, 0x00],
  [0x00, 0x00, 0x00, 0x00, 0x00, 0x00, 0x00, 0x00], [0x00, 0x00, 0x00, 0x00, 0x00, 0x00, 0x00, 0x00],
  [0x00, 0x00, 0x00, 0x00, 0x00, 0x00, 0x00, 0x00], [0x00, 0x00, 0x00, 0x00, 0x00, 0x00, 0x00, 0x00],
  [0x00, 0x00, 0x00, 0x00, 0x00, 0x00, 0x00, 0x00], [0x00, 0x00, 0x00, 0x00, 0x00, 0x00, 0x00, 0x00],
  [0x00, 0x00, 0x00, 0x00, 0x00, 0x00, 0x00, 0x00], [0x00, 0x00, 0x00, 0x00, 0x00, 0x00, 0x00, 0x00],
  [0x00, 0x00, 0x00, 0x00, 0x00, 0x00, 0x00, 0x00], [0x00, 0x00, 0x00, 0x00, 0x00, 0x00, 0x00, 0x00],
  [0x00, 0x00, 0x00, 0x00, 0x00, 0x00, 0x00, 0x00], [0x00, 0x00, 0x00, 0x00, 0x00, 0x00, 0x00, 0x00],
  [0x00, 0x00, 0x00, 0x00, 0x00, 0x00, 0x00, 0x00], [0x00, 0x00, 0x00, 0x00, 0x00, 0x00, 0x00, 0x00],
  [0x00, 0x00, 0x00, 0x00, 0x00, 0x00, 0x00, 0x00], [0x00, 0x00, 0x00, 0x00, 0x00, 0x00, 0x00, 0x00],
  [0x00, 0x00, 0x00, 0x00, 0x00, 0x00, 0x00, 0x00], [0x18, 0x3C, 0x3C, 0x18, 0x18, 0x00, 0x18, 0x00],
  [0x36, 0x36, 0x00, 0x00, 0x00, 0x00, 0x00, 0x00], [0x36, 0x36, 0x7F, 0x36, 0x7F, 0x36, 0x36, 0x00],
  [0x0C, 0x3E, 0x03, 0x1E, 0x30, 0x1F, 0x0C, 0x00], [0x00, 0x63, 0x33, 0x18, 0x0C, 0x66, 0x63, 0x00],
  [0x1C, 0x36, 0x1C, 0x6E, 0x3B, 0x33, 0x6E, 0x00], [0x06, 0x06, 0x03, 0x00, 0x00, 0x00, 0x00, 0x00],
  [0x18, 0x0C, 0x06, 0x06, 0x06, 0x0C, 0x18, 0x00], [0x06, 0x0C, 0x18, 0x18, 0x18, 0x0C, 0x06, 0x00],
  [0x00, 0x66, 0x3C, 0xFF, 0x3C, 0x66, 0x00, 0x00], [0x00, 0x0C, 0x0C, 0x3F, 0x0C, 0x0C, 0x00, 0x00],
  [0x00, 0x00, 0x00, 0x00, 0x00, 0x0C, 0x0C, 0x06], [0x00, 0x00, 0x00, 0x3F, 0x00, 0x00, 0x00, 0x00],
  [0x00, 0x00, 0x00, 0x00, 0x00, 0x0C, 0x0C, 0x00], [0x60, 0x30, 0x18, 0x0C, 0x06, 0x03, 0x01, 0x00],
  [0x3E, 0x63, 0x73, 0x7B, 0x6F, 0x67, 0x3E, 0x00], [0x0C, 0x0E, 0x0C, 0x0C, 0x0C, 0x0C, 0x3F, 0x00],
  [0x1E, 0x33, 0x30, 0x1C, 0x06, 0x33, 0x3F, 0x00], [0x1E, 0x33, 0x30, 0x1C, 0x30, 0x33, 0x1E, 0x00],
  [0x38, 0x3C, 0x36, 0x33, 0x7F, 0x30, 0x78, 0x00], [0x3F, 0x03, 0x1F, 0x30, 0x30, 0x33, 0x1E, 0x00],
  [0x1C, 0x06, 0x03, 0x1F, 0x33, 0x33, 0x1E, 0x00], [0x3F, 0x33, 0x30, 0x18, 0x0C, 0x0C, 0x0C, 0x00],
  [0x1E, 0x33, 0x33, 0x1E, 0x33, 0x33, 0x1E, 0x00], [0x1E, 0x33, 0x33, 0x3E, 0x30, 0x18, 0x0E, 0x00],
  [0x00, 0x0C, 0x0C, 0x00, 0x00, 0x0C, 0x0C, 0x00], [0x00, 0x0C, 0x0C, 0x00, 0x00, 0x0C, 0x0C, 0x06],
  [0x18, 0x0C, 0x06, 0x03, 0x06, 0x0C, 0x18, 0x00], [0x00, 0x00, 0x3F, 0x00, 0x00, 0x3F, 0x00, 0x00],
  [0x06, 0x0C, 0x18, 0x30, 0x18, 0x0C, 0x06, 0x00], [0x1E, 0x33, 0x30, 0x18, 0x0C, 0x00, 0x0C, 0x00],
  [0x3E, 0x63, 0x7B, 0x7B, 0x7B, 0x03, 0x1E, 0x00], [0x0C, 0x1E, 0x33, 0x33, 0x3F, 0x33, 0x33, 0x00],
  [0x3F, 0x66, 0x66, 0x3E, 0x66, 0x66, 0x3F, 0x00], [0x3C, 0x66, 0x03, 0x03, 0x03, 0x66, 0x3C, 0x00],
  [0x1F, 0x36, 0x66, 0x66, 0x66, 0x36, 0x1F, 0x00], [0x7F, 0x46, 0x16, 0x1E, 0x16, 0x46, 0x7F, 0x00],
  [0x7F, 0x46, 0x16, 0x1E, 0x16, 0x06, 0x0F, 0x00], [0x3C, 0x66, 0x03, 0x03, 0x73, 0x66, 0x7C, 0x00],
  [0x33, 0x33, 0x33, 0x3F, 0x33, 0x33, 0x33, 0x00], [0x1E, 0x0C, 0x0C, 0x0C, 0x0C, 0x0C, 0x1E, 0x00],
  [0x78, 0x30, 0x30, 0x30, 0x33, 0x33, 0x1E, 0x00], [0x67, 0x66, 0x36, 0x1E, 0x36, 0x66, 0x67, 0x00],
  [0x0F, 0x06, 0x06, 0x06, 0x46, 0x66, 0x7F, 0x00], [0x63, 0x77, 0x7F, 0x7F, 0x6B, 0x63, 0x63, 0x00],
  [0x63, 0x67, 0x6F, 0x7B, 0x73, 0x63, 0x63, 0x00], [0x1C, 0x36, 0x63, 0x63, 0x63, 0x36, 0x1C, 0x00],
  [0x3F, 0x66, 0x66, 0x3E, 0x06, 0x06, 0x0F, 0x00], [0x1E, 0x33, 0x33, 0x33, 0x3B, 0x1E, 0x38, 0x00],
  [0x3F, 0x66, 0x66, 0x3E, 0x36, 0x66, 0x67, 0x00], [0x1E, 0x33, 0x07, 0x0E, 0x38, 0x33, 0x1E, 0x00],
  [0x3F, 0x2D, 0x0C, 0x0C, 0x0C, 0x0C, 0x1E, 0x00], [0x33, 0x33, 0x33, 0x33, 0x33, 0x33, 0x3F, 0x00],
  [0x33, 0x33, 0x33, 0x33, 0x33, 0x1E, 0x0C, 0x00], [0x63, 0x63, 0x63, 0x6B, 0x7F, 0x77, 0x63, 0x00],
  [0x63, 0x63, 0x36, 0x1C, 0x1C, 0x36, 0x63, 0x00], [0x33, 0x33, 0x33, 0x1E, 0x0C, 0x0C, 0x1E, 0x00],
  [0x7F, 0x63, 0x31, 0x18, 0x4C, 0x66, 0x7F, 0x00], [0x1E, 0x06, 0x06, 0x06, 0x06, 0x06, 0x1E, 0x00],
  [0x03, 0x06, 0x0C, 0x18, 0x30, 0x60, 0x40, 0x00], [0x1E, 0x18, 0x18, 0x18, 0x18, 0x18, 0x1E, 0x00],
  [0x08, 0x1C, 0x36, 0x63, 0x00, 0x00, 0x00, 0x00], [0x00, 0x00, 0x00, 0x00, 0x00, 0x00, 0x00, 0xFF],
  [0x0C, 0x0C, 0x18, 0x00, 0x00, 0x00, 0x00, 0x00], [0x00, 0x00, 0x1E, 0x30, 0x3E, 0x33, 0x6E, 0x00],
  [0x07, 0x06, 0x06, 0x3E, 0x66, 0x66, 0x3B, 0x00], [0x00, 0x00, 0x1E, 0x33, 0x03, 0x33, 0x1E, 0x00],
  [0x38, 0x30, 0x30, 0x3E, 0x33, 0x33, 0x6E, 0x00], [0x00, 0x00, 0x1E, 0x33, 0x3F, 0x03, 0x1E, 0x00],
  [0x1C, 0x36, 0x06, 0x0F, 0x06, 0x06, 0x0F, 0x00], [0x00, 0x00, 0x6E, 0x33, 0x33, 0x3E, 0x30, 0x1F],
  [0x07, 0x06, 0x36, 0x6E, 0x66, 0x66, 0x67, 0x00], [0x0C, 0x00, 0x0E, 0x0C, 0x0C, 0x0C, 0x1E, 0x00],
  [0x30, 0x00, 0x30, 0x30, 0x30, 0x33, 0x33, 0x1E], [0x07, 0x06, 0x66, 0x36, 0x1E, 0x36, 0x67, 0x00],
  [0x0E, 0x0C, 0x0C, 0x0C, 0x0C, 0x0C, 0x1E, 0x00], [0x00, 0x00, 0x33, 0x7F, 0x7F, 0x6B, 0x63, 0x00],
  [0x00, 0x00, 0x1F, 0x33, 0x33, 0x33, 0x33, 0x00], [0x00, 0x00, 0x1E, 0x33, 0x33, 0x33, 0x1E, 0x00],
  [0x00, 0x00, 0x3B, 0x66, 0x66, 0x3E, 0x06, 0x0F], [0x00, 0x00, 0x6E, 0x33, 0x33, 0x3E, 0x30, 0x78],
  [0x00, 0x00, 0x3B, 0x6E, 0x66, 0x06, 0x0F, 0x00], [0x00, 0x00, 0x3E, 0x03, 0x1E, 0x30, 0x1F, 0x00],
  [0x08, 0x0C, 0x3E, 0x0C, 0x0C, 0x2C, 0x18, 0x00], [0x00, 0x00, 0x33, 0x33, 0x33, 0x33, 0x6E, 0x00],
  [0x00, 0x00, 0x33, 0x33, 0x33, 0x1E, 0x0C, 0x00], [0x00, 0x00, 0x63, 0x6B, 0x7F, 0x7F, 0x36, 0x00],
  [0x00, 0x00, 0x63, 0x36, 0x1C, 0x36, 0x63, 0x00], [0x00, 0x00, 0x33, 0x33, 0x33, 0x3E, 0x30, 0x1F],
  [0x00, 0x00, 0x3F, 0x19, 0x0C, 0x26, 0x3F, 0x00], [0x38, 0x0C, 0x0C, 0x07, 0x0C, 0x0C, 0x38, 0x00],
  [0x18, 0x18, 0x18, 0x00, 0x18, 0x18, 0x18, 0x00], [0x07, 0x0C, 0x0C, 0x38, 0x0C, 0x0C, 0x07, 0x00],
  [0x6E, 0x3B, 0x00, 0x00, 0x00, 0x00, 0x00, 0x00], [0x00, 0x00, 0x00, 0x00, 0x00, 0x00, 0x00, 0x00]]

/-- A row of the glyph of a character; bit 0 is the leftmost pixel. -/
def glyphRow (c : UInt8) (row : Nat) : UInt8 :=
  (font8x8Basic.getD (if c ≥ 128 then 0 else c.toNat) []).getD row 0

def glyphColor (c : UInt8) (fg bg : UInt32) (col row : Nat) : UInt32 :=
  if (glyphRow c row >>> .ofNat col) &&& 1 ≠ 0 then fg else bg

def drawChar (x y : UInt32) (c : UInt8) (fg bg : UInt32) (fb : Framebuffer) : Framebuffer :=
  if x ≥ fb.width ∨ y ≥ fb.height then fb
  else if x + 8 > fb.width ∨ y + 8 > fb.height then fb
  else fillRect x y 8 8 (glyphColor c fg bg) fb

def clearScreen (s : Screen) (color : UInt32) : Screen :=
  { s with
    fb := fillRect 0 0 s.fb.width.toNat s.fb.height.toNat (fun _ _ => color) s.fb
    cursor := { s.cursor with x := 0, y := 0 } }

def setColors (s : Screen) (fg bg : UInt32) : Screen :=
  { s with cursor := { s.cursor with fgColor := fg, bgColor := bg } }

/-- `cursor.x = 0; cursor.y += 8; auto_scroll_check();` -/
def newline (s : Screen) : Screen := autoScrollCheck { s with cursor := { s.cursor with x := 0, y := s.cursor.y + 8 } }

def printc (isgui : Bool) (s : Screen) (c : UInt8) : Screen :=
  if isgui then s
  else if c = 10 then newline s
  else if c = 13 then { s with cursor := { s.cursor with x := 0 } }
  else if c = 9 then
    let s := { s with cursor := { s.cursor with x := (s.cursor.x / 8 + 4) * 8 } }
    if s.cursor.x + 8 > s.fb.width then newline s else s
  else
    let s := if s.cursor.x + 8 > s.fb.width then newline s else s
    { s with
      fb := drawChar s.cursor.x s.cursor.y c s.cursor.fgColor s.cursor.bgColor s.fb
      cursor := { s.cursor with x := s.cursor.x + 8 } }

def printcs (isgui : Bool) (s : Screen) (str : CString) : Screen := (str.map (·.val)).foldl (printc isgui) s

/-! ## The page -/

structure Cell where
  char : UInt8
  fg : UInt32
  bg : UInt32

/-- Paper with the colours `paper` of its rows of pixels, the characters on it, the pen, and the first line of the window. -/
structure Page where
  paper : Nat → UInt32
  cell : Nat → Nat → Option Cell
  line : Nat
  column : Nat
  fg : UInt32
  bg : UInt32
  top : Nat

/-- What a screen has room for: the columns, and the lines that the pen can be on. -/
structure Room where
  columns : Nat
  lines : Nat

namespace Page

/-- Pixel `x` of row `y` of the paper. -/
def pixel (p : Page) (x y : Nat) : UInt32 :=
  match p.cell (y / 8) (x / 8) with
  | some g => glyphColor g.char g.fg g.bg (x % 8) (y % 8)
  | none => p.paper y

/-- A new page. Behind the first screen of it the paper is black. -/
def blank (p : Page) (height : Nat) (color : UInt32) : Page :=
  { p with paper := fun y => if y < height then color else BLACK, cell := fun _ _ => none, line := 0, column := 0, top := 0 }

/-- The pen goes to the next line, and the window with it when it must. -/
def newline (r : Room) (p : Page) : Page :=
  { p with line := p.line + 1, column := 0, top := if p.line + 1 < p.top + r.lines then p.top else p.top + 1 }

/-- A character where the pen is. -/
def mark (p : Page) (g : Cell) : Page :=
  { p with cell := fun l k => if l = p.line ∧ k = p.column then some g else p.cell l k }

/-- The pen writes a character. -/
def put (p : Page) (c : UInt8) : Page := { p.mark ⟨c, p.fg, p.bg⟩ with column := p.column + 1 }

/-- A full line is left when the next character comes. -/
def type (r : Room) (p : Page) (c : UInt8) : Page :=
  if c = 10 then p.newline r
  else if c = 13 then { p with column := 0 }
  else if c = 9 then
    if p.column + 4 < r.columns then { p with column := p.column + 4 } else p.newline r
  else if p.column < r.columns then p.put c
  else (p.newline r).put c

end Page

/-- The room on a screen. -/
def Framebuffer.room (fb : Framebuffer) : Room := ⟨fb.width.toNat / 8, (fb.height.toNat - 1) / 8⟩

/-- The screens on which the console works. -/
structure Framebuffer.Usable (fb : Framebuffer) : Prop where
  flat : fb.Flat
  width : 8 ≤ fb.width.toNat
  height : 16 ≤ fb.height.toNat

/-- The screen shows the window on the page, and its cursor is the pen. -/
structure Shows (p : Page) (s : Screen) : Prop where
  pixel : ∀ x y : UInt32, x < s.fb.width → y < s.fb.height → s.fb.pixel x y = p.pixel x.toNat (8 * p.top + y.toNat)
  x : s.cursor.x.toNat = 8 * p.column
  y : s.cursor.y.toNat = 8 * (p.line - p.top)
  fg : s.cursor.fgColor = p.fg
  bg : s.cursor.bgColor = p.bg
  column : p.column ≤ s.fb.room.columns
  top : p.top ≤ p.line
  line : p.line < p.top + s.fb.room.lines
  cell : ∀ l k, p.cell l k ≠ none → l < p.top + s.fb.room.lines ∧ k < s.fb.room.columns
  paper : ∀ y, s.fb.height.toNat ≤ y → p.paper y = BLACK

/-! ## Bounds -/

section Bounds

variable {fb fb' : Framebuffer}

theorem Framebuffer.Draws.room (h : fb.Draws fb') : fb'.room = fb.room := by
  rw [Framebuffer.room, h.width, h.height, Framebuffer.room]

theorem Framebuffer.Draws.usable (h : fb.Draws fb') (hu : fb.Usable) : fb'.Usable :=
  ⟨h.flat hu.flat, by rw [h.width]; exact hu.width, by rw [h.height]; exact hu.height⟩

theorem Framebuffer.Usable.width_lt (hu : fb.Usable) : fb.width.toNat ≤ 2 ^ 28 := by
  have h := Nat.mul_le_mul_left fb.width.toNat hu.height
  have := hu.flat.words
  omega

theorem Framebuffer.Usable.height_lt (hu : fb.Usable) : fb.height.toNat ≤ 2 ^ 29 := by
  have h := Nat.mul_le_mul_right fb.height.toNat hu.width
  have := hu.flat.words
  omega

theorem Framebuffer.Usable.columns_pos (hu : fb.Usable) : 0 < fb.room.columns := by
  have := hu.width
  show 0 < fb.width.toNat / 8
  omega

theorem Framebuffer.Usable.lines_pos (hu : fb.Usable) : 0 < fb.room.lines := by
  have := hu.height
  show 0 < (fb.height.toNat - 1) / 8
  omega

end Bounds

/-! ## Drawing and scrolling -/

section Steps

variable {p : Page} {s : Screen}

theorem drawChar_draws (x y : UInt32) (c : UInt8) (fg bg : UInt32) (fb : Framebuffer) :
    fb.Draws (drawChar x y c fg bg fb) := by
  unfold drawChar
  split
  · exact .refl fb
  split
  · exact .refl fb
  · exact fillRect_draws ..

theorem autoScrollCheck_draws (hu : s.fb.Usable) : s.fb.Draws (autoScrollCheck s).fb := by
  by_cases h : s.fb.height ≤ s.cursor.y + charHeight
  · have hup := autoScrollCheck_movesUp hu.flat.pitch hu.flat.words hu.height h
    have hframe := hup.frame
    unfold autoScrollCheck at *
    rw [if_pos h] at *
    exact ⟨rfl, rfl, rfl, hframe⟩
  · rw [autoScrollCheck, if_neg h]
    exact .refl _

/-- A distance of less than eight pixels from a cell. -/
theorem sub_lt_eight_iff {x x₀ : UInt32} {k : Nat} (hx₀ : x₀.toNat = 8 * k) (hk : k < 2 ^ 28) :
    (x - x₀).toNat < 8 ↔ x.toNat / 8 = k := by
  have := x.toNat_lt
  rw [UInt32.toNat_sub, hx₀]
  omega

theorem toNat_sub_cell {x x₀ : UInt32} {k : Nat} (hx₀ : x₀.toNat = 8 * k) (hk : x.toNat / 8 = k) :
    (x - x₀).toNat = x.toNat % 8 := by
  have := x.toNat_lt
  rw [UInt32.toNat_sub, hx₀]
  omega

/-- A character that has room on the screen. -/
theorem pixel_drawChar {fb : Framebuffer} (hu : fb.Usable) {x₀ y₀ x y : UInt32} {k l : Nat} (hx₀ : x₀.toNat = 8 * k)
    (hy₀ : y₀.toNat = 8 * l) (hk : k < fb.room.columns) (hl : l < fb.room.lines) (c : UInt8) (fg bg : UInt32)
    (hx : x < fb.width) (hy : y < fb.height) :
    (drawChar x₀ y₀ c fg bg fb).pixel x y =
      if x.toNat / 8 = k ∧ y.toNat / 8 = l then glyphColor c fg bg (x.toNat % 8) (y.toNat % 8) else fb.pixel x y := by
  have hwide := hu.width_lt
  have hhigh := hu.height_lt
  replace hk : k < fb.width.toNat / 8 := hk
  replace hl : l < (fb.height.toNat - 1) / 8 := hl
  have hin : ¬ (x₀ ≥ fb.width ∨ y₀ ≥ fb.height) := by
    rw [ge_iff_le, ge_iff_le, UInt32.le_iff_toNat_le, UInt32.le_iff_toNat_le]
    omega
  have hroom : ¬ (x₀ + 8 > fb.width ∨ y₀ + 8 > fb.height) := by
    rw [gt_iff_lt, gt_iff_lt, UInt32.lt_iff_toNat_lt, UInt32.lt_iff_toNat_lt, UInt32.toNat_add, UInt32.toNat_add,
      show UInt32.toNat 8 = 8 from rfl]
    omega
  rw [drawChar, if_neg hin, if_neg hroom, pixel_fillRect hu.flat.fits (by norm_num) (by norm_num) hx hy]
  simp only [sub_lt_eight_iff hx₀ (show k < 2 ^ 28 by omega), sub_lt_eight_iff hy₀ (show l < 2 ^ 28 by omega)]
  split
  · rename_i h
    rw [toNat_sub_cell hx₀ h.1, toNat_sub_cell hy₀ h.2]
  · rfl

theorem Shows.newline (hu : s.fb.Usable) (h : Shows p s) :
    Shows (p.newline s.fb.room) (newline s) ∧ s.fb.Draws (newline s).fb := by
  have hhigh := hu.height_lt
  have htop := h.top
  have hline : p.line < p.top + (s.fb.height.toNat - 1) / 8 := h.line
  have hy := h.y
  have hy' : (s.cursor.y + 8).toNat = 8 * (p.line - p.top) + 8 := by
    rw [UInt32.toNat_add, hy, show UInt32.toNat 8 = 8 from rfl]
    omega
  have hd : s.fb.Draws (Print.newline s).fb :=
    autoScrollCheck_draws (s := { s with cursor := { s.cursor with x := 0, y := s.cursor.y + 8 } }) hu
  refine ⟨?_, hd⟩
  by_cases hscroll : s.fb.height ≤ s.cursor.y + 8 + charHeight
  · have hup : s.fb.MovesUp (Print.newline s).fb :=
      autoScrollCheck_movesUp (s := { s with cursor := { s.cursor with x := 0, y := s.cursor.y + 8 } })
        hu.flat.pitch hu.flat.words hu.height hscroll
    have hlast : ¬ p.line + 1 < p.top + (s.fb.height.toNat - 1) / 8 := by
      rw [UInt32.le_iff_toNat_le, UInt32.toNat_add, hy', show charHeight.toNat = 8 from rfl] at hscroll
      omega
    have hlast' : ¬ p.line + 1 < p.top + s.fb.room.lines := hlast
    have hcur : (Print.newline s).cursor = { s.cursor with x := 0, y := s.cursor.y + 8 - charHeight } := by
      rw [Print.newline, autoScrollCheck, if_pos hscroll]
    have hcy : s.cursor.y + 8 - charHeight = s.cursor.y := UInt32.add_sub_cancel _ _
    have hheight := @toNat_lastRow s.fb.height (by have := hu.height; omega)
    rw [Page.newline, if_neg hlast']
    constructor
    case pixel =>
      intro x y hx hy
      rw [hd.width] at hx
      rw [hd.height] at hy
      have hylt := UInt32.lt_iff_toNat_lt.mp hy
      rcases UInt32.lt_or_le y (s.fb.height - charHeight) with hlt | hge
      · have hlt' := UInt32.lt_iff_toNat_lt.mp hlt
        have hy8 : (y + charHeight).toNat = y.toNat + 8 := by
          rw [UInt32.toNat_add, show charHeight.toNat = 8 from rfl]
          omega
        rw [hup.moved x y hx hlt, h.pixel x _ hx (UInt32.lt_iff_toNat_lt.mpr (by omega)), hy8,
          show 8 * p.top + (y.toNat + 8) = 8 * (p.top + 1) + y.toNat by ring]
        rfl
      · have hge' := UInt32.le_iff_toNat_le.mp hge
        have hnone : p.cell ((8 * (p.top + 1) + y.toNat) / 8) (x.toNat / 8) = none := by
          by_contra hc
          have hl : (8 * (p.top + 1) + y.toNat) / 8 < p.top + (s.fb.height.toNat - 1) / 8 := (h.cell _ _ hc).1
          omega
        rw [hup.cleared x y hx hge hy]
        show _ = Page.pixel _ _ _
        unfold Page.pixel
        rw [hnone]
        refine (h.paper _ ?_).symm
        show s.fb.height.toNat ≤ 8 * (p.top + 1) + y.toNat
        omega
    case x => rw [hcur]; rfl
    case y =>
      rw [hcur]
      show (s.cursor.y + 8 - charHeight).toNat = 8 * (p.line + 1 - (p.top + 1))
      rw [hcy, hy]
      omega
    case fg => rw [hcur]; exact h.fg
    case bg => rw [hcur]; exact h.bg
    case column => exact Nat.zero_le _
    case top => exact Nat.succ_le_succ htop
    case line =>
      rw [hd.room]
      have := h.line
      show p.line + 1 < p.top + 1 + _
      omega
    case cell =>
      intro l k hc
      rw [hd.room]
      have := h.cell l k hc
      exact ⟨by show l < p.top + 1 + _; omega, this.2⟩
    case paper => rw [hd.height]; exact h.paper
  · have hnot : Print.newline s = { s with cursor := { s.cursor with x := 0, y := s.cursor.y + 8 } } := by
      rw [Print.newline, autoScrollCheck, if_neg hscroll]
    have hroom : p.line + 1 < p.top + s.fb.room.lines := by
      rw [UInt32.le_iff_toNat_le, UInt32.toNat_add, hy', show charHeight.toNat = 8 from rfl] at hscroll
      show p.line + 1 < p.top + (s.fb.height.toNat - 1) / 8
      omega
    rw [Page.newline, if_pos hroom, hnot]
    exact {
      pixel := h.pixel
      x := rfl
      y := by
        show (s.cursor.y + 8).toNat = 8 * (p.line + 1 - p.top)
        rw [hy']
        omega
      fg := h.fg
      bg := h.bg
      column := Nat.zero_le _
      top := htop.trans (Nat.le_succ _)
      line := hroom
      cell := h.cell
      paper := h.paper }

/-- A character where there is room. -/
theorem Shows.mark (hu : s.fb.Usable) (h : Shows p s) (hk : p.column < s.fb.room.columns) (c : UInt8) (fg bg : UInt32) :
    Shows (p.mark ⟨c, fg, bg⟩) { s with fb := drawChar s.cursor.x s.cursor.y c fg bg s.fb } := by
  have hd := drawChar_draws s.cursor.x s.cursor.y c fg bg s.fb
  have htop := h.top
  have hline := h.line
  constructor
  case pixel =>
    intro x y hx hy
    rw [hd.width] at hx
    rw [hd.height] at hy
    show (drawChar _ _ _ _ _ _).pixel x y = Page.pixel _ _ (8 * p.top + y.toNat)
    rw [pixel_drawChar hu h.x h.y hk (by omega) c _ _ hx hy, h.pixel x y hx hy]
    unfold Page.pixel
    have hrow : (8 * p.top + y.toNat) / 8 = p.top + y.toNat / 8 := by omega
    have hmod : (8 * p.top + y.toNat) % 8 = y.toNat % 8 := by omega
    have hsame : x.toNat / 8 = p.column ∧ y.toNat / 8 = p.line - p.top ↔
        p.top + y.toNat / 8 = p.line ∧ x.toNat / 8 = p.column := by omega
    simp only [hrow, hmod, hsame, Page.mark]
    split <;> rfl
  case x => exact h.x
  case y => exact h.y
  case fg => exact h.fg
  case bg => exact h.bg
  case column =>
    rw [hd.room]
    exact h.column
  case top => exact htop
  case line =>
    rw [hd.room]
    exact hline
  case cell =>
    intro l k hc
    rw [hd.room]
    simp only [Page.mark] at hc
    split at hc
    · rename_i hlk
      obtain ⟨rfl, rfl⟩ := hlk
      exact ⟨hline, hk⟩
    · exact h.cell l k hc
  case paper => rw [hd.height]; exact h.paper

/-- The pen goes to another column. -/
theorem Shows.moveTo (h : Shows p s) {x : UInt32} {column : Nat} (hx : x.toNat = 8 * column)
    (hk : column ≤ s.fb.room.columns) : Shows { p with column := column } { s with cursor := { s.cursor with x := x } } :=
  { h with x := hx, column := hk }

theorem Shows.put (hu : s.fb.Usable) (h : Shows p s) (hk : p.column < s.fb.room.columns) (c : UInt8) :
    Shows (p.put c)
      { s with
        fb := drawChar s.cursor.x s.cursor.y c s.cursor.fgColor s.cursor.bgColor s.fb
        cursor := { s.cursor with x := s.cursor.x + 8 } } := by
  have hwide := hu.width_lt
  have hk' : p.column < s.fb.width.toNat / 8 := hk
  have hx : (s.cursor.x + 8).toNat = 8 * (p.column + 1) := by
    rw [UInt32.toNat_add, h.x, show UInt32.toNat 8 = 8 from rfl]
    omega
  have hd := drawChar_draws s.cursor.x s.cursor.y c s.cursor.fgColor s.cursor.bgColor s.fb
  have hmark := h.mark hu hk c s.cursor.fgColor s.cursor.bgColor
  rw [Page.put, ← h.fg, ← h.bg]
  exact hmark.moveTo hx (by rw [hd.room]; exact hk)

/-- The check for the end of the line. -/
theorem Shows.full_iff (hu : s.fb.Usable) (h : Shows p s) :
    s.cursor.x + 8 > s.fb.width ↔ ¬ p.column < s.fb.room.columns := by
  have hwide := hu.width_lt
  have hk : p.column ≤ s.fb.width.toNat / 8 := h.column
  rw [gt_iff_lt, UInt32.lt_iff_toNat_lt, UInt32.toNat_add, h.x, show UInt32.toNat 8 = 8 from rfl]
  show _ ↔ ¬ p.column < s.fb.width.toNat / 8
  omega

theorem Shows.tab (hu : s.fb.Usable) (h : Shows p s) :
    Shows (p.type s.fb.room 9) (Print.printc false s 9) ∧ s.fb.Draws (Print.printc false s 9).fb := by
  have hwide := hu.width_lt
  have hk : p.column ≤ s.fb.width.toNat / 8 := h.column
  have hx : ((s.cursor.x / 8 + 4) * 8).toNat = 8 * (p.column + 4) := by
    rw [UInt32.toNat_mul, UInt32.toNat_add, UInt32.toNat_div, h.x, show UInt32.toNat 8 = 8 from rfl,
      show UInt32.toNat 4 = 4 from rfl]
    omega
  have hfull : (s.cursor.x / 8 + 4) * 8 + 8 > s.fb.width ↔ ¬ p.column + 4 < s.fb.room.columns := by
    rw [gt_iff_lt, UInt32.lt_iff_toNat_lt, UInt32.toNat_add, hx, show UInt32.toNat 8 = 8 from rfl]
    show _ ↔ ¬ p.column + 4 < s.fb.width.toNat / 8
    omega
  have h10 : (9 : UInt8) ≠ 10 := by decide
  have h13 : (9 : UInt8) ≠ 13 := by decide
  unfold Page.type Print.printc
  simp only [Bool.false_eq_true, if_false, h10, h13, hfull, if_true, ite_not]
  split
  · rename_i hroom
    exact ⟨h.moveTo hx hroom.le, .refl _⟩
  · exact h.newline hu

theorem Shows.printc (hu : s.fb.Usable) (h : Shows p s) (c : UInt8) :
    Shows (p.type s.fb.room c) (printc false s c) ∧ s.fb.Draws (printc false s c).fb := by
  by_cases htab : c = 9
  · subst htab
    exact h.tab hu
  unfold Page.type Print.printc
  simp only [Bool.false_eq_true, if_false, htab]
  split
  · exact h.newline hu
  split
  · exact ⟨h.moveTo rfl (Nat.zero_le _), .refl _⟩
  by_cases hroom : p.column < s.fb.room.columns
  · rw [if_pos hroom, if_neg (mt (h.full_iff hu).mp (not_not.mpr hroom))]
    exact ⟨h.put hu hroom c, drawChar_draws ..⟩
  · rw [if_neg hroom, if_pos ((h.full_iff hu).mpr hroom)]
    obtain ⟨hnew, hd⟩ := h.newline hu
    have hput := hnew.put (hd.usable hu) (hd.room ▸ hu.columns_pos) c
    exact ⟨hput, hd.trans (drawChar_draws ..)⟩

theorem Shows.setColors (h : Shows p s) (fg bg : UInt32) :
    Shows { p with fg := fg, bg := bg } (setColors s fg bg) :=
  { h with fg := rfl, bg := rfl }

/-- Whatever is on the screen, it is gone. -/
theorem clearScreen_shows (hu : s.fb.Usable) (color : UInt32) (hfg : s.cursor.fgColor = p.fg) (hbg : s.cursor.bgColor = p.bg) :
    Shows (p.blank s.fb.height.toNat color) (clearScreen s color) ∧ s.fb.Draws (clearScreen s color).fb := by
  have hd : s.fb.Draws (clearScreen s color).fb := fillRect_draws ..
  refine ⟨?_, hd⟩
  constructor
  case pixel =>
    intro x y hx hy
    rw [hd.width] at hx
    rw [hd.height] at hy
    have hx' := UInt32.lt_iff_toNat_lt.mp hx
    have hy' := UInt32.lt_iff_toNat_lt.mp hy
    have hin : (x - 0).toNat < s.fb.width.toNat ∧ (y - 0).toNat < s.fb.height.toNat := by
      rw [UInt32.sub_zero, UInt32.sub_zero]
      exact ⟨hx', hy'⟩
    show (fillRect 0 0 _ _ _ s.fb).pixel x y = _
    rw [pixel_fillRect hu.flat.fits s.fb.width.toNat_lt.le s.fb.height.toNat_lt.le hx hy, if_pos hin]
    show color = if 8 * 0 + y.toNat < s.fb.height.toNat then color else BLACK
    rw [if_pos (by omega)]
  case x => rfl
  case y => rfl
  case fg => exact hfg
  case bg => exact hbg
  case column => exact Nat.zero_le _
  case top => exact Nat.le_refl _
  case line =>
    rw [hd.room]
    show 0 < 0 + s.fb.room.lines
    have := hu.lines_pos
    omega
  case cell => exact fun l k hc => absurd rfl hc
  case paper =>
    intro y hy
    rw [hd.height] at hy
    exact if_neg (by omega)

/-- Text is typed character by character. -/
theorem Shows.foldl_printc (hu : s.fb.Usable) (h : Shows p s) (text : List UInt8) :
    Shows (text.foldl (Page.type s.fb.room) p) (text.foldl (Print.printc false) s) ∧
      s.fb.Draws (text.foldl (Print.printc false) s).fb := by
  induction text generalizing p s with
  | nil => exact ⟨h, .refl _⟩
  | cons c text ih =>
    obtain ⟨hc, hd⟩ := h.printc hu c
    obtain ⟨htext, hd'⟩ := ih (hd.usable hu) hc
    rw [hd.room] at htext
    exact ⟨htext, hd.trans hd'⟩

end Steps

end AmqOs.Print
