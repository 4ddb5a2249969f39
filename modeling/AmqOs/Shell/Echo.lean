import AmqOs.Print.Console
import AmqOs.Shell.LineInput

/-!
# The line on the screen

The keys that edit `input_buffer` also draw: `drawScancode` is what `process_keyboard_buffer` puts on the screen where
`processScancode` changes the line. The positions on the page are numbered line by line; a line of text may go on in the
next lines of the page, and Backspace goes back to the one before. `Echoes` says that the characters from a position on are
those of the line, that the pen is behind them, and that nothing is left of what stood there before.

So what is on the screen is what the shell gets (`echo_shows_line`). The arrow keys put another command in the place of the
line: `clear_current_line` goes back over it in steps of one line of text in the row and of two between rows, so the line
must not have left its first row then.
-/

set_option autoImplicit false

namespace AmqOs.Shell

open AmqOs.Lib AmqOs.Print

attribute [local instance] neZero_inputBufferSize

/-! ## What the keys draw -/

/-- `handle_backspace`, where there is a character to take away. -/
def drawBackspace (s : Screen) : Screen :=
  let s :=
    if s.cursor.x ≥ 8 then { s with cursor := { s.cursor with x := s.cursor.x - 8 } }
    else if s.cursor.y ≥ 8 then { s with cursor := { s.cursor with x := s.fb.width - 8, y := s.cursor.y - 8 } }
    else s
  { s with fb := drawChar s.cursor.x s.cursor.y 32 s.cursor.fgColor s.cursor.bgColor s.fb }

/-- The body of the first loop of `clear_current_line`. -/
def stepBack (s : Screen) : Screen :=
  if s.cursor.x ≥ 8 then { s with cursor := { s.cursor with x := s.cursor.x - 8 } }
  else if s.cursor.y ≥ 16 then { s with cursor := { s.cursor with x := s.fb.width - 8, y := s.cursor.y - 16 } }
  else s

/-- The body of the second loop. -/
def drawBlank (s : Screen) : Screen :=
  let s := { s with
    fb := drawChar s.cursor.x s.cursor.y 32 WHITE BLACK s.fb
    cursor := { s.cursor with x := s.cursor.x + 8 } }
  if s.cursor.x ≥ s.fb.width then { s with cursor := { s.cursor with x := 0, y := s.cursor.y + 16 } } else s

def clearCurrentLine (inputPos : Nat) (s : Screen) : Screen :=
  let s := stepBack^[inputPos] s
  let t := drawBlank^[inputPos] s
  { t with cursor := { t.cursor with x := s.cursor.x, y := s.cursor.y } }

/-- `replace_input_line` -/
def drawInputLine (inputPos : Nat) (newInput : CString) (s : Screen) : Screen :=
  ((newInput.take (inputBufferSize - 1)).map (·.val)).foldl (printc false)
    (setColors (clearCurrentLine inputPos s) WHITE BLACK)

/-- The body of the loop of `process_keyboard_buffer`. -/
def drawScancode (i : Input) (s : Screen) (scancode : UInt8) : Screen :=
  if scancode = 0x2A ∨ scancode = 0x36 then s
  else if scancode = 0xAA ∨ scancode = 0xB6 then s
  else if scancode &&& 0x80 ≠ 0 then s
  else if scancode = 0x48 then
    match historyPrev i.history with
    | (some prev, _) => drawInputLine i.pos prev s
    | (none, _) => s
  else if scancode = 0x50 then
    match historyNext i.history with
    | (some next, _) => drawInputLine i.pos next s
    | (none, _) => drawInputLine i.pos [] s
  else
    let ascii := scancodeToAscii scancode i.shiftPressed
    if ascii = 0 then s
    else if ascii = 8 then if i.pos > 0 then drawBackspace s else s
    else if ascii = 10 then printc false s 10
    else if i.pos.val < inputBufferSize - 1 then printc false (setColors s WHITE BLACK) ascii
    else s

def echoScancode (t : Input × Screen) (scancode : UInt8) : Input × Screen :=
  (processScancode t.1 scancode, drawScancode t.1 t.2 scancode)

/-! ## A line on the page -/

/-- A character that is printed at the pen. -/
def Plain (c : UInt8) : Prop := c ≠ 9 ∧ c ≠ 10 ∧ c ≠ 13

/-- The character at a position of the page. -/
def charAt (columns : Nat) (p : Page) (q : Nat) : Option UInt8 := (p.cell (q / columns) (q % columns)).map Cell.char

/-- The line `text` stands on the page from position `start` on. -/
structure Echoes (columns start : Nat) (text : List UInt8) (p : Page) : Prop where
  pen : p.line * columns + p.column = start + text.length
  chars : ∀ (i : Nat) (h : i < text.length), charAt columns p (start + i) = some text[i]
  blank : ∀ q, start + text.length ≤ q → charAt columns p q = none ∨ charAt columns p q = some 32
  top : p.top * columns ≤ start

section Page

variable {columns start : Nat} {text : List UInt8} {p : Page} {r : Room}

/-- The pen marks its own position. -/
theorem charAt_mark (hk : p.column < columns) (g : Cell) (q : Nat) :
    charAt columns (p.mark g) q = if q = p.line * columns + p.column then some g.char else charAt columns p q := by
  have hpos : q / columns = p.line ∧ q % columns = p.column ↔ q = p.line * columns + p.column := by
    constructor
    · rintro ⟨hdiv, hmod⟩
      rw [← hdiv, ← hmod, Nat.mul_comm, Nat.div_add_mod]
    · rintro rfl
      rw [Nat.mul_comm, Nat.mul_add_div (by omega), Nat.div_eq_of_lt hk, Nat.mul_add_mod, Nat.mod_eq_of_lt hk]
      exact ⟨rfl, rfl⟩
  unfold charAt
  simp only [Page.mark, hpos]
  split <;> rfl

/-- The line grows by a character that the pen writes. -/
theorem Echoes.put (h : Echoes columns start text p) (hk : p.column < columns) (c : UInt8) :
    Echoes columns start (text ++ [c]) (p.put c) := by
  have hpen := h.pen
  have hchar : ∀ q, charAt columns (p.put c) q = if q = start + text.length then some c else charAt columns p q := by
    intro q
    rw [← hpen]
    exact charAt_mark hk ⟨c, p.fg, p.bg⟩ q
  constructor
  case pen =>
    rw [List.length_append, List.length_singleton]
    show p.line * columns + (p.column + 1) = _
    omega
  case chars =>
    intro i hi
    rw [List.length_append, List.length_singleton] at hi
    rw [hchar]
    rcases Nat.lt_or_ge i text.length with hlt | hge
    · rw [if_neg (by omega), List.getElem_append_left hlt]
      exact h.chars i hlt
    · obtain rfl : i = text.length := by omega
      rw [if_pos rfl]
      simp
  case blank =>
    intro q hq
    rw [List.length_append, List.length_singleton] at hq
    rw [hchar, if_neg (by omega)]
    exact h.blank q (by omega)
  case top => exact h.top

/-- At the end of a row of the page the line goes on in the next one. -/
theorem Echoes.newline (h : Echoes r.columns start text p) (hk : p.column = r.columns) (htop : p.top ≤ p.line)
    (hline : p.line < p.top + r.lines) (hroom : text.length ≤ (r.lines - 1) * r.columns) :
    Echoes r.columns start text (p.newline r) := by
  have hpen := h.pen
  have hnext : (p.line + 1) * r.columns = start + text.length := by
    rw [← hpen, hk]
    ring
  refine ⟨hnext, h.chars, h.blank, ?_⟩
  unfold Page.newline
  split
  · exact h.top
  · rename_i hlast
    have hend : p.line + 1 = p.top + 1 + (r.lines - 1) := by omega
    rw [hend, Nat.add_mul] at hnext
    show (p.top + 1) * r.columns ≤ start
    omega

/-- A character that comes where the line has room to grow. -/
theorem Echoes.type (h : Echoes r.columns start text p) (hk : p.column ≤ r.columns) (htop : p.top ≤ p.line)
    (hline : p.line < p.top + r.lines) (hroom : text.length ≤ (r.lines - 1) * r.columns) (hcolumns : 0 < r.columns)
    {c : UInt8} (hc : Plain c) :
    Echoes r.columns start (text ++ [c]) (p.type r c) := by
  unfold Page.type
  rw [if_neg hc.2.1, if_neg hc.2.2, if_neg hc.1]
  split
  · rename_i hlt
    exact h.put hlt c
  · exact (h.newline (by omega) htop hline hroom).put hcolumns c

/-- The pen goes back to a character and blots it out. -/
theorem Echoes.blot (h : Echoes columns start text p) {p' : Page} (hk : p'.column < columns) (hcell : p'.cell = p.cell)
    (htop : p'.top = p.top) (hpos : p'.line * columns + p'.column + 1 = start + text.length)
    (htext : text ≠ []) (fg bg : UInt32) :
    Echoes columns start text.dropLast (p'.mark ⟨32, fg, bg⟩) := by
  have hlen : 0 < text.length := List.length_pos_iff.mpr htext
  have hold : ∀ q, charAt columns p' q = charAt columns p q := fun q => by rw [charAt, hcell, charAt]
  constructor
  case pen =>
    rw [List.length_dropLast]
    show p'.line * columns + p'.column = _
    omega
  case chars =>
    intro i hi
    rw [List.length_dropLast] at hi
    rw [charAt_mark hk, if_neg (by omega), hold, List.getElem_dropLast]
    exact h.chars i (by omega)
  case blank =>
    intro q hq
    rw [List.length_dropLast] at hq
    rw [charAt_mark hk]
    split
    · exact .inr rfl
    · rw [hold]
      exact h.blank q (by omega)
  case top =>
    show p'.top * columns ≤ start
    rw [htop]
    exact h.top

/-- Blanks from the pen on. -/
def blanks (n : Nat) (p : Page) : Page :=
  { p with
    cell := fun l k => if l = p.line ∧ p.column ≤ k ∧ k < p.column + n then some ⟨32, WHITE, BLACK⟩ else p.cell l k
    column := p.column + n }

theorem blanks_zero (p : Page) : blanks 0 p = p := by
  have hcell : ∀ l k, (if l = p.line ∧ p.column ≤ k ∧ k < p.column + 0 then some ⟨32, WHITE, BLACK⟩ else p.cell l k) =
      p.cell l k := fun l k => if_neg (by omega)
  unfold blanks
  simp only [hcell]
  rfl

theorem blanks_succ (n : Nat) (p : Page) :
    blanks (n + 1) p = { (blanks n p).mark ⟨32, WHITE, BLACK⟩ with column := p.column + (n + 1) } := by
  unfold blanks Page.mark
  congr 1
  funext l k
  simp only
  split
  · rename_i h
    split
    · rfl
    · rw [if_pos (by omega)]
  · rename_i h
    rw [if_neg (by omega), if_neg (by omega)]

/-- The pen in the row in which the line starts. -/
theorem Echoes.column_eq (h : Echoes columns start text p) (hcolumn : p.column ≤ columns) (hstart : 0 < start % columns)
    (hrow : start % columns + text.length < columns) : p.column = start % columns + text.length := by
  have hpen := h.pen
  have hdm := Nat.div_add_mod start columns
  have hmod : (p.line * columns + p.column) % columns = start % columns + text.length := by
    rw [hpen, show start + text.length = columns * (start / columns) + (start % columns + text.length) by omega,
      Nat.mul_add_mod, Nat.mod_eq_of_lt hrow]
  rw [Nat.mul_comm, Nat.mul_add_mod] at hmod
  rcases Nat.lt_or_eq_of_le hcolumn with hlt | heq
  · rwa [Nat.mod_eq_of_lt hlt] at hmod
  · rw [heq, Nat.mod_self] at hmod
    omega

theorem charAt_blanks {n : Nat} (hn : p.column + n ≤ columns) (q : Nat) :
    charAt columns (blanks n p) q =
      if p.line * columns + p.column ≤ q ∧ q < p.line * columns + p.column + n then some 32 else charAt columns p q := by
  induction n with
  | zero => rw [blanks_zero, if_neg (by omega)]
  | succ n ih =>
    have hmark := charAt_mark (p := blanks n p) (show p.column + n < columns by omega) ⟨32, WHITE, BLACK⟩ q
    have hsucc : charAt columns (blanks (n + 1) p) q = charAt columns ((blanks n p).mark ⟨32, WHITE, BLACK⟩) q := by
      rw [blanks_succ]
      rfl
    have hpen : (blanks n p).line * columns + (blanks n p).column = p.line * columns + p.column + n :=
      (Nat.add_assoc _ _ _).symm
    rw [hsucc, hmark, hpen, ih (by omega)]
    split
    · rw [if_pos (by omega)]
    · split
      · rw [if_pos (by omega)]
      · rw [if_neg (by omega)]

/-- The line is taken away. -/
theorem Echoes.cleared (h : Echoes columns start text p) (hcolumn : p.column = start % columns + text.length)
    (hle : p.column ≤ columns) :
    Echoes columns start []
      { blanks text.length { p with column := start % columns } with column := start % columns } := by
  have hpen := h.pen
  have hstart : p.line * columns + start % columns = start := by omega
  refine ⟨hstart, fun i hi => absurd hi (Nat.not_lt_zero i), fun q hq => ?_, h.top⟩
  have hchar := @charAt_blanks columns { p with column := start % columns } text.length (hcolumn ▸ hle) q
  simp only [hstart] at hchar
  show charAt columns (blanks text.length { p with column := start % columns }) q = none ∨
    charAt columns (blanks text.length { p with column := start % columns }) q = some 32
  rw [hchar]
  split
  · exact .inr rfl
  · rename_i hout
    replace hq : start ≤ q := hq
    exact h.blank q (by omega)

end Page

/-! ## What the screen shows -/

section Screen

variable {p : Page} {s : Screen}

/-- Where Backspace goes. -/
def back (columns : Nat) (p : Page) : Page :=
  if 0 < p.column then { p with column := p.column - 1 } else { p with line := p.line - 1, column := columns - 1 }

theorem shows_left (h : Shows p s) (hk : 0 < p.column) :
    s.cursor.x ≥ 8 ∧ Shows { p with column := p.column - 1 } { s with cursor := { s.cursor with x := s.cursor.x - 8 } } := by
  have hx := h.x
  have h8 : (8 : UInt32) ≤ s.cursor.x := by
    rw [UInt32.le_iff_toNat_le, hx, show UInt32.toNat 8 = 8 from rfl]
    omega
  have hx' : (s.cursor.x - 8).toNat = 8 * (p.column - 1) := by
    rw [UInt32.toNat_sub_of_le _ _ h8, hx, show UInt32.toNat 8 = 8 from rfl]
    omega
  exact ⟨h8, h.moveTo hx' ((Nat.sub_le _ _).trans h.column)⟩

theorem drawBackspace_shows (hu : s.fb.Usable) (hw : s.fb.width.toNat = 8 * s.fb.room.columns) (h : Shows p s)
    (hback : 0 < p.column ∨ p.top < p.line) :
    Shows ((back s.fb.room.columns p).mark ⟨32, s.cursor.fgColor, s.cursor.bgColor⟩) (drawBackspace s) ∧
      s.fb.Draws (drawBackspace s).fb ∧ (back s.fb.room.columns p).column < s.fb.room.columns := by
  have hcolumns := hu.columns_pos
  have hcolumn := h.column
  unfold drawBackspace back
  by_cases hk : 0 < p.column
  · obtain ⟨h8, hleft⟩ := shows_left h hk
    rw [if_pos h8, if_pos hk]
    have hlt : p.column - 1 < s.fb.room.columns := by omega
    exact ⟨@Shows.mark _ { s with cursor := { s.cursor with x := s.cursor.x - 8 } } hu hleft hlt 32 _ _, drawChar_draws .., hlt⟩
  · have hline : p.top < p.line := hback.resolve_left hk
    have hx : ¬ s.cursor.x ≥ 8 := by
      rw [ge_iff_le, UInt32.le_iff_toNat_le, h.x, show UInt32.toNat 8 = 8 from rfl]
      omega
    have hy : (8 : UInt32) ≤ s.cursor.y := by
      rw [UInt32.le_iff_toNat_le, h.y, show UInt32.toNat 8 = 8 from rfl]
      omega
    have h8 : (8 : UInt32) ≤ s.fb.width := UInt32.le_iff_toNat_le.mpr hu.width
    rw [if_neg hx, if_pos hy, if_neg hk]
    have hup : Shows { p with line := p.line - 1, column := s.fb.room.columns - 1 }
        { s with cursor := { s.cursor with x := s.fb.width - 8, y := s.cursor.y - 8 } } := {
      h with
      x := by
        show (s.fb.width - 8).toNat = 8 * (s.fb.room.columns - 1)
        rw [UInt32.toNat_sub_of_le _ _ h8, hw, show UInt32.toNat 8 = 8 from rfl]
        omega
      y := by
        show (s.cursor.y - 8).toNat = 8 * (p.line - 1 - p.top)
        rw [UInt32.toNat_sub_of_le _ _ hy, h.y, show UInt32.toNat 8 = 8 from rfl]
        omega
      column := Nat.sub_le _ _
      top := by
        show p.top ≤ p.line - 1
        omega
      line := lt_of_le_of_lt (Nat.sub_le _ _) h.line }
    have hlt : s.fb.room.columns - 1 < s.fb.room.columns := by omega
    exact ⟨@Shows.mark _ { s with cursor := { s.cursor with x := s.fb.width - 8, y := s.cursor.y - 8 } } hu hup hlt 32 _ _,
      drawChar_draws .., hlt⟩

/-- The first loop of `clear_current_line` in a row. -/
theorem stepBack_shows (h : Shows p s) {n : Nat} (hn : n ≤ p.column) :
    Shows { p with column := p.column - n } (stepBack^[n] s) ∧ (stepBack^[n] s).fb = s.fb := by
  induction n with
  | zero => exact ⟨h, rfl⟩
  | succ n ih =>
    obtain ⟨hshows, hfb⟩ := ih (by omega)
    obtain ⟨h8, hleft⟩ := shows_left hshows (show 0 < p.column - n by omega)
    rw [Function.iterate_succ_apply', stepBack, if_pos h8]
    exact ⟨hleft, hfb⟩

/-- The second loop, when it ends before the end of the row. -/
theorem drawBlank_shows (hu : s.fb.Usable) (h : Shows p s) {n : Nat} (hn : p.column + n < s.fb.room.columns) :
    Shows (blanks n p) (drawBlank^[n] s) ∧ s.fb.Draws (drawBlank^[n] s).fb ∧ (drawBlank^[n] s).cursor.y = s.cursor.y := by
  induction n with
  | zero =>
    rw [blanks_zero]
    exact ⟨h, .refl _, rfl⟩
  | succ n ih =>
    obtain ⟨hshows, hd, hy⟩ := ih (by omega)
    have hroom := hd.room
    have hlt : (blanks n p).column < (drawBlank^[n] s).fb.room.columns := by
      rw [hroom]
      show p.column + n < _
      omega
    rw [Function.iterate_succ_apply']
    generalize drawBlank^[n] s = t at hshows hd hy hlt hroom
    have hmark := hshows.mark (hd.usable hu) hlt 32 WHITE BLACK
    have hd' := hd.trans (drawChar_draws t.cursor.x t.cursor.y 32 WHITE BLACK t.fb)
    have hwide := (hd.usable hu).width_lt
    have hx : (t.cursor.x + 8).toNat = 8 * (p.column + (n + 1)) := by
      have hk : (blanks n p).column < t.fb.width.toNat / 8 := hlt
      have hx := hshows.x
      have hcol : (blanks n p).column = p.column + n := rfl
      rw [UInt32.toNat_add, hx, show UInt32.toNat 8 = 8 from rfl]
      omega
    have hin : ¬ t.cursor.x + 8 ≥ (drawChar t.cursor.x t.cursor.y 32 WHITE BLACK t.fb).width := by
      rw [ge_iff_le, UInt32.le_iff_toNat_le, hx, hd'.width]
      have hn : p.column + (n + 1) < s.fb.width.toNat / 8 := hn
      omega
    rw [drawBlank]
    simp only [hin, if_false]
    rw [blanks_succ]
    exact ⟨hmark.moveTo hx (by rw [hd'.room]; exact hn.le), hd', hy⟩

theorem clearCurrentLine_shows (hu : s.fb.Usable) (h : Shows p s) {n : Nat} (hn : n ≤ p.column)
    (hk : p.column < s.fb.room.columns) :
    Shows { blanks n { p with column := p.column - n } with column := p.column - n } (clearCurrentLine n s) ∧
      s.fb.Draws (clearCurrentLine n s).fb := by
  obtain ⟨hback, hfb⟩ := stepBack_shows h hn
  have hu' : (stepBack^[n] s).fb.Usable := hfb ▸ hu
  obtain ⟨hblank, hd, hy⟩ := drawBlank_shows hu' hback (n := n) (by rw [hfb]; show p.column - n + n < _; omega)
  have hdraws : s.fb.Draws (drawBlank^[n] (stepBack^[n] s)).fb := hfb ▸ hd
  refine ⟨?_, hdraws⟩
  have hle : p.column - n ≤ (drawBlank^[n] (stepBack^[n] s)).fb.room.columns := by
    rw [hdraws.room]
    omega
  have hmove := hblank.moveTo hback.x hle
  unfold clearCurrentLine
  simp only
  rw [← hy]
  exact hmove

end Screen

/-! ## The line in the buffer -/

section Line

variable {i : Input} {text : CString} {shift : Bool}

/-- What the table has besides Enter and Backspace is printed at the pen. -/
theorem plain_scancodeToAscii {code : UInt8} (h10 : scancodeToAscii code shift ≠ 10) : Plain (scancodeToAscii code shift) := by
  have htable : ∀ e ∈ (if shift then shiftedKeys else plainKeys), e.2.toUInt8 ≠ 9 ∧ e.2.toUInt8 ≠ 13 := by
    cases shift
    · decide
    · decide
  unfold scancodeToAscii at *
  cases hc : (if shift then shiftedKeys else plainKeys).lookup code with
  | none => exact ⟨by decide, by decide, by decide⟩
  | some c =>
    rw [hc] at h10
    obtain ⟨l₁, l₂, hl, -⟩ := List.lookup_eq_some_iff.mp hc
    have he := htable (code, c) (by rw [hl]; simp)
    exact ⟨he.1, h10, he.2⟩

theorem replaceInputLine_shiftPressed (i : Input) (newInput : CString) :
    (replaceInputLine i newInput).shiftPressed = i.shiftPressed := by
  unfold replaceInputLine
  rfl

theorem replaceInputLine_history (i : Input) (newInput : CString) : (replaceInputLine i newInput).history = i.history := by
  unfold replaceInputLine
  rfl

theorem Input.Edits.replace (h : i.Edits shift text) (history : CommandHistory) (newInput : CString) :
    (replaceInputLine { i with history := history } newInput).Edits shift (newInput.take (inputBufferSize - 1)) := by
  unfold replaceInputLine
  constructor
  case shift => simpa only using h.shift
  case ready => simpa only using h.ready
  case pos =>
    have h255 : inputBufferSize - 1 = 255 := rfl
    show min newInput.length 255 = _
    rw [List.length_take, h255]
    exact min_comm _ _
  case chars => exact fun k hk => CString.getElem?_strcpy i.buffer newInput hk

/-- The commands of the history are printed at the pen. -/
def PlainHistory (h : CommandHistory) : Prop := ∀ pos, ∀ c ∈ h.text pos, Plain c.val

theorem historyPrev_spec {h : CommandHistory} (hplain : PlainHistory h) :
    PlainHistory (historyPrev h).2 ∧ ∀ prev, (historyPrev h).1 = some prev → ∀ c ∈ prev, Plain c.val := by
  unfold historyPrev
  split
  · exact ⟨hplain, fun prev hp => nomatch hp⟩
  · refine ⟨hplain, fun prev hp => ?_⟩
    cases hp
    exact hplain _

theorem historyNext_spec {h : CommandHistory} (hplain : PlainHistory h) :
    PlainHistory (historyNext h).2 ∧ ∀ next, (historyNext h).1 = some next → ∀ c ∈ next, Plain c.val := by
  unfold historyNext
  split
  · exact ⟨hplain, fun next hn => nomatch hn⟩
  · simp only
    split
    · refine ⟨hplain, fun next hn => ?_⟩
      cases hn
      exact fun c hc => nomatch hc
    · refine ⟨hplain, fun next hn => ?_⟩
      cases hn
      exact hplain _

end Line

/-! ## One key -/

/-- The line `text` is in the buffer and on the screen, from position `start` of the page on. -/
structure Echoing (columns start : Nat) (text : CString) (p : Page) (t : Input × Screen) : Prop where
  columns_eq : t.2.fb.room.columns = columns
  edits : t.1.Edits t.1.shiftPressed text
  history : PlainHistory t.1.history
  shows : Shows p t.2
  echoes : Echoes columns start (text.map (·.val)) p

/-- The screens with whole characters in their rows and room for a line. -/
structure RoomForLine (fb : Framebuffer) : Prop where
  usable : fb.Usable
  wide : fb.width.toNat = 8 * fb.room.columns
  room : inputBufferSize - 1 ≤ (fb.room.lines - 1) * fb.room.columns

section Keys

variable {columns start : Nat} {text : CString} {p : Page} {t : Input × Screen} {s : Screen}

theorem RoomForLine.draws {fb fb' : Framebuffer} (h : RoomForLine fb) (hd : fb.Draws fb') : RoomForLine fb' :=
  ⟨hd.usable h.usable, by rw [hd.width, hd.room]; exact h.wide, by rw [hd.room]; exact h.room⟩

theorem columns_draws {fb fb' : Framebuffer} (hd : fb.Draws fb') : fb'.room.columns = fb.room.columns := by rw [hd.room]

/-- Characters that are printed where the line ends. -/
theorem echo_print (hfb : RoomForLine s.fb) (hcolumns : s.fb.room.columns = columns) (hs : Shows p s) {line : List UInt8}
    (he : Echoes columns start line p) (cs : List UInt8) (hcs : ∀ c ∈ cs, Plain c)
    (hlen : line.length + cs.length ≤ inputBufferSize - 1) :
    ∃ p', Shows p' (cs.foldl (printc false) s) ∧ s.fb.Draws (cs.foldl (printc false) s).fb ∧
      Echoes columns start (line ++ cs) p' := by
  induction cs generalizing p s line with
  | nil => exact ⟨p, hs, .refl _, by rwa [List.append_nil]⟩
  | cons c cs ih =>
    subst hcolumns
    have hroom := hfb.room
    rw [List.length_cons] at hlen
    obtain ⟨hc, hd⟩ := hs.printc hfb.usable c
    have htype := he.type hs.column hs.top hs.line (by omega) hfb.usable.columns_pos (hcs c List.mem_cons_self)
    obtain ⟨p', hs', hd', he'⟩ := ih (hfb.draws hd) (columns_draws hd) hc htype
      (fun c hc => hcs c (List.mem_cons_of_mem _ hc)) (by rw [List.length_append, List.length_singleton]; omega)
    refine ⟨p', hs', hd.trans hd', ?_⟩
    rwa [List.append_assoc, List.singleton_append] at he'

/-- An arrow key puts another command in the place of the line. -/
theorem Echoing.recall (hfb : RoomForLine t.2.fb) (h : Echoing columns start text p t) (hstart : 0 < start % columns)
    (hrow : start % columns + text.length < columns) {history : CommandHistory} (hhistory : PlainHistory history)
    {newInput : CString} (hnew : ∀ c ∈ newInput, Plain c.val) :
    ∃ text' p', t.2.fb.Draws (drawInputLine t.1.pos newInput t.2).fb ∧ Echoing columns start text' p'
      (replaceInputLine { t.1 with history := history } newInput, drawInputLine t.1.pos newInput t.2) := by
  obtain rfl := h.columns_eq
  have hpos := h.edits.pos
  have hlen : (text.map (·.val)).length = text.length := List.length_map _
  have hcolumn := h.echoes.column_eq h.shows.column hstart (by rwa [hlen])
  rw [hlen] at hcolumn
  obtain ⟨hclear, hd⟩ := clearCurrentLine_shows hfb.usable h.shows (n := t.1.pos.val) (by omega) (by omega)
  have hcleared := h.echoes.cleared (by rw [hlen]; exact hcolumn) h.shows.column
  have hback : p.column - t.1.pos.val = start % t.2.fb.room.columns := by omega
  rw [hlen, ← hpos] at hcleared
  rw [hback] at hclear
  have htake : (newInput.take (inputBufferSize - 1)).length ≤ inputBufferSize - 1 := List.length_take_le _ _
  obtain ⟨p', hshows, hd', hechoes⟩ := echo_print (s := setColors (clearCurrentLine t.1.pos t.2) WHITE BLACK) (hfb.draws hd)
    (columns_draws hd) (hclear.setColors WHITE BLACK)
    ⟨hcleared.pen, hcleared.chars, hcleared.blank, hcleared.top⟩ ((newInput.take (inputBufferSize - 1)).map (·.val))
    (by
      intro c hc
      obtain ⟨d, hmem, rfl⟩ := List.mem_map.mp hc
      exact hnew d (List.mem_of_mem_take hmem))
    (by
      rw [List.length_map, List.length_nil]
      omega)
  refine ⟨newInput.take (inputBufferSize - 1), p', hd.trans hd', columns_draws (hd.trans hd'), ?_, ?_, hshows, hechoes⟩
  · show Input.Edits _ (replaceInputLine _ newInput).shiftPressed _
    rw [replaceInputLine_shiftPressed]
    exact h.edits.replace history newInput
  · show PlainHistory (replaceInputLine _ newInput).history
    rw [replaceInputLine_history]
    exact hhistory

/-- A character is typed. -/
theorem Echoing.char (hfb : RoomForLine t.2.fb) (h : Echoing columns start text p t) {c : CChar} (hc : Plain c.val)
    (hroom : t.1.pos.val < inputBufferSize - 1) :
    ∃ text' p', t.2.fb.Draws (printc false (setColors t.2 WHITE BLACK) c.val).fb ∧ Echoing columns start text' p'
      ({ t.1 with buffer := setAt t.1.buffer t.1.pos c.val, pos := ⟨t.1.pos.val + 1, by omega⟩ },
        printc false (setColors t.2 WHITE BLACK) c.val) := by
  have hpos := h.edits.pos
  obtain ⟨p', hshows, hd, hechoes⟩ := echo_print (s := setColors t.2 WHITE BLACK) hfb h.columns_eq
    (h.shows.setColors WHITE BLACK)
    ⟨h.echoes.pen, h.echoes.chars, h.echoes.blank, h.echoes.top⟩ [c.val]
    (fun d hd => by rw [List.mem_singleton.mp hd]; exact hc)
    (by rw [List.length_map, List.length_singleton]; omega)
  refine ⟨text ++ [c], p', hd, (columns_draws hd).trans h.columns_eq, ⟨rfl, h.edits.ready, ?_, ?_⟩, h.history, hshows, ?_⟩
  · rw [List.length_append, List.length_singleton, ← hpos]
  · intro k hk
    rw [List.length_append, List.length_singleton] at hk
    show (setAt t.1.buffer t.1.pos c.val)[k]? = _
    rw [getElem?_setAt, hpos]
    rcases Nat.lt_or_ge k text.length with hlt | hge
    · rw [if_neg (by omega), List.getElem_append_left hlt]
      exact h.edits.chars k hlt
    · obtain rfl : k = text.length := by omega
      rw [if_pos rfl]
      simp
  · rw [List.map_append]
    exact hechoes

theorem back_pos (hcolumns : 0 < columns) (hback : 0 < p.column ∨ 0 < p.line) :
    (back columns p).line * columns + (back columns p).column + 1 = p.line * columns + p.column := by
  unfold back
  split
  · show p.line * _ + (p.column - 1) + 1 = _
    omega
  · have hline : 0 < p.line := by omega
    show (p.line - 1) * _ + (columns - 1) + 1 = _
    rw [Nat.sub_mul, Nat.one_mul]
    have := Nat.mul_le_mul_right columns hline
    omega

/-- Backspace takes the last character away. -/
theorem Echoing.backspace (hfb : RoomForLine t.2.fb) (h : Echoing columns start text p t) (hpos : t.1.pos > 0) :
    ∃ text' p', t.2.fb.Draws (drawBackspace t.2).fb ∧
      Echoing columns start text' p' (handleBackspace t.1, drawBackspace t.2) := by
  obtain rfl := h.columns_eq
  have hlen := h.edits.pos
  have hpen := h.echoes.pen
  have htop := h.echoes.top
  have hpos' : 0 < t.1.pos.val := hpos
  rw [List.length_map] at hpen
  have htext : text.map (·.val) ≠ [] := by
    intro hnil
    rw [List.map_eq_nil_iff] at hnil
    rw [hnil, List.length_nil] at hlen
    omega
  have hback : 0 < p.column ∨ p.top < p.line := by
    by_contra hno
    rw [not_or, Nat.not_lt, Nat.not_lt] at hno
    have := Nat.mul_le_mul_right t.2.fb.room.columns hno.2
    omega
  obtain ⟨hshows, hd, hlt⟩ := drawBackspace_shows hfb.usable hfb.wide h.shows hback
  have hold : (back t.2.fb.room.columns p).cell = p.cell ∧ (back t.2.fb.room.columns p).top = p.top := by
    unfold back
    split <;> exact ⟨rfl, rfl⟩
  have hechoes := h.echoes.blot hlt hold.1 hold.2
    (by rw [back_pos hfb.usable.columns_pos (hback.imp_right (lt_of_le_of_lt (Nat.zero_le _))), hpen, List.length_map]) htext
    t.2.cursor.fgColor t.2.cursor.bgColor
  have hbuffer : handleBackspace t.1 =
      { t.1 with pos := ⟨t.1.pos.val - 1, by omega⟩, buffer := setAt t.1.buffer ⟨t.1.pos.val - 1, by omega⟩ 0 } := by
    rw [handleBackspace, if_pos hpos]
  rw [hbuffer]
  refine ⟨text.dropLast, _, hd, columns_draws hd, ⟨rfl, h.edits.ready, ?_, ?_⟩, h.history, hshows, ?_⟩
  · rw [List.length_dropLast, ← hlen]
  · intro k hk
    rw [List.length_dropLast] at hk
    show (setAt t.1.buffer ⟨t.1.pos.val - 1, _⟩ 0)[k]? = _
    rw [getElem?_setAt, if_neg (by show ¬ t.1.pos.val - 1 = k; omega), List.getElem_dropLast]
    exact h.edits.chars k (by omega)
  · rw [List.map_dropLast]
    exact hechoes

/-- A scancode that only tells whether Shift is held. -/
theorem Echoing.shift (h : Echoing columns start text p t) (b : Bool) :
    Echoing columns start text p ({ t.1 with shiftPressed := b }, t.2) :=
  ⟨h.columns_eq, ⟨rfl, h.edits.ready, h.edits.pos, h.edits.chars⟩, h.history, h.shows, h.echoes⟩

theorem Echoing.arrowUp (hfb : RoomForLine t.2.fb) (h : Echoing columns start text p t) (hstart : 0 < start % columns)
    (hrow : start % columns + text.length < columns) :
    ∃ text' p', t.2.fb.Draws (drawScancode t.1 t.2 0x48).fb ∧
      Echoing columns start text' p' (handleArrowUp t.1, drawScancode t.1 t.2 0x48) := by
  obtain ⟨hhistory, hnew⟩ := historyPrev_spec h.history
  have hdraw : drawScancode t.1 t.2 0x48 = match historyPrev t.1.history with
      | (some prev, _) => drawInputLine t.1.pos prev t.2
      | (none, _) => t.2 := rfl
  rw [hdraw]
  unfold handleArrowUp
  cases hprev : historyPrev t.1.history with
  | mk prev history =>
    rw [hprev] at hhistory hnew
    cases prev with
    | none =>
      exact ⟨text, p, .refl _, h.columns_eq, ⟨rfl, h.edits.ready, h.edits.pos, h.edits.chars⟩, hhistory, h.shows, h.echoes⟩
    | some prev => exact h.recall hfb hstart hrow hhistory (hnew prev rfl)

theorem Echoing.arrowDown (hfb : RoomForLine t.2.fb) (h : Echoing columns start text p t) (hstart : 0 < start % columns)
    (hrow : start % columns + text.length < columns) :
    ∃ text' p', t.2.fb.Draws (drawScancode t.1 t.2 0x50).fb ∧
      Echoing columns start text' p' (handleArrowDown t.1, drawScancode t.1 t.2 0x50) := by
  obtain ⟨hhistory, hnew⟩ := historyNext_spec h.history
  have hdraw : drawScancode t.1 t.2 0x50 = match historyNext t.1.history with
      | (some next, _) => drawInputLine t.1.pos next t.2
      | (none, _) => drawInputLine t.1.pos [] t.2 := rfl
  rw [hdraw]
  unfold handleArrowDown
  cases hnext : historyNext t.1.history with
  | mk next history =>
    rw [hnext] at hhistory hnew
    cases next with
    | none => exact h.recall hfb hstart hrow hhistory fun c hc => nomatch hc
    | some next => exact h.recall hfb hstart hrow hhistory (hnew next rfl)

/-- Every key but Enter. -/
theorem Echoing.step (hfb : RoomForLine t.2.fb) (h : Echoing columns start text p t) {code : UInt8} (henter : code ≠ 0x1C)
    (harrow : code = 0x48 ∨ code = 0x50 → 0 < start % columns ∧ start % columns + t.1.pos.val < columns) :
    ∃ text' p', t.2.fb.Draws (echoScancode t code).2.fb ∧ Echoing columns start text' p' (echoScancode t code) := by
  have hstay : ∀ b : Bool, ∃ text' p', t.2.fb.Draws t.2.fb ∧
      Echoing columns start text' p' ({ t.1 with shiftPressed := b }, t.2) := fun b => ⟨text, p, .refl _, h.shift b⟩
  rw [h.edits.pos] at harrow
  by_cases hup : code = 0x48
  · subst hup
    obtain ⟨hstart, hrow⟩ := harrow (.inl rfl)
    exact h.arrowUp hfb hstart hrow
  by_cases hdown : code = 0x50
  · subst hdown
    obtain ⟨hstart, hrow⟩ := harrow (.inr rfl)
    exact h.arrowDown hfb hstart hrow
  unfold echoScancode processScancode drawScancode
  simp only [hup, hdown, if_false]
  split
  · exact hstay true
  split
  · exact hstay false
  split
  · exact hstay t.1.shiftPressed
  split
  · exact hstay t.1.shiftPressed
  rename_i hascii
  split
  · by_cases hpos : t.1.pos > 0
    · rw [if_pos hpos]
      exact h.backspace hfb hpos
    · rw [if_neg hpos, handleBackspace, if_neg hpos]
      exact hstay t.1.shiftPressed
  split
  · rename_i h10
    obtain ⟨-, -, -, -, hne⟩ := scancodeToAscii_spec hascii
    exact absurd h10 (hne henter)
  rename_i h10
  by_cases hroom : t.1.pos.val < inputBufferSize - 1
  · rw [dif_pos hroom, if_pos hroom]
    exact h.char (c := ⟨_, hascii⟩) hfb (plain_scancodeToAscii h10) hroom
  · rw [dif_neg hroom, if_neg hroom]
    exact hstay t.1.shiftPressed

end Keys

/-! ## Runs of keys -/

/-- The line is in the row in which it starts whenever an arrow key is pressed. -/
def ArrowsInRow (columns start : Nat) : Input → List UInt8 → Prop
  | _, [] => True
  | i, code :: codes =>
    (code = 0x48 ∨ code = 0x50 → 0 < start % columns ∧ start % columns + i.pos.val < columns) ∧
      ArrowsInRow columns start (processScancode i code) codes

theorem Echoing.run {columns start : Nat} {text : CString} {p : Page} {t : Input × Screen} (hfb : RoomForLine t.2.fb)
    (h : Echoing columns start text p t) {codes : List UInt8} (henter : 0x1C ∉ codes)
    (harrows : ArrowsInRow columns start t.1 codes) :
    ∃ text' p', t.2.fb.Draws (codes.foldl echoScancode t).2.fb ∧
      Echoing columns start text' p' (codes.foldl echoScancode t) := by
  induction codes generalizing t text p with
  | nil => exact ⟨text, p, .refl _, h⟩
  | cons code codes ih =>
    rw [List.mem_cons, not_or] at henter
    obtain ⟨text', p', hd, h'⟩ := h.step hfb (Ne.symm henter.1) harrows.1
    obtain ⟨text'', p'', hd', h''⟩ := ih (hfb.draws hd) h' henter.2 harrows.2
    exact ⟨text'', p'', hd.trans hd', h''⟩

/-- What is on the screen is what the shell gets: whatever keys are pressed after the prompt, the screen shows a page on
which a line stands behind the prompt, with nothing left behind it of what was typed before, and when Enter is pressed next
it is this line that the shell gets. -/
theorem echo_shows_line (s : Screen) (hfb : RoomForLine s.fb) (p : Page) (hshows : Shows p s)
    (hblank : ∀ q, p.line * s.fb.room.columns + p.column ≤ q →
      charAt s.fb.room.columns p q = none ∨ charAt s.fb.room.columns p q = some 32)
    (i : Input) (hpos : i.pos = 0) (hready : i.ready = false) (hhistory : PlainHistory i.history)
    (codes : List UInt8) (henter : 0x1C ∉ codes)
    (harrows : ArrowsInRow s.fb.room.columns (p.line * s.fb.room.columns + p.column) i codes) :
    ∃ (text : CString) (p' : Page), Shows p' (codes.foldl echoScancode (i, s)).2 ∧
      Echoes s.fb.room.columns (p.line * s.fb.room.columns + p.column) (text.map (·.val)) p' ∧
      ((codes.foldl echoScancode (i, s)).1.shiftPressed = false →
        (getInputAndReset (processScancode (codes.foldl echoScancode (i, s)).1 0x1C)).1 = some text) := by
  have hedits : i.Edits i.shiftPressed [] :=
    ⟨rfl, hready, congrArg Fin.val hpos, fun k hk => absurd hk (Nat.not_lt_zero k)⟩
  have htop : p.top * s.fb.room.columns ≤ p.line * s.fb.room.columns + p.column :=
    (Nat.mul_le_mul_right _ hshows.top).trans (Nat.le_add_right _ _)
  have hstart : Echoing s.fb.room.columns (p.line * s.fb.room.columns + p.column) [] p (i, s) :=
    ⟨rfl, hedits, hhistory, hshows, rfl, fun k hk => absurd hk (Nat.not_lt_zero k), hblank, htop⟩
  obtain ⟨text, p', -, h⟩ := hstart.run hfb henter harrows
  refine ⟨text, p', h.shows, h.echoes, fun hshift => ?_⟩
  have hline := @Input.Edits.enter _ _ _ 0x1C h.edits rfl hshift
  rw [getInputAndReset, hline.ready]
  exact congrArg some hline.text

/-- A, B and Backspace on an empty screen of 1024 × 768. -/
theorem echo_shows_line_ab :
    ∃ (text : CString) (p' : Page),
      Shows p' ([0x1E, 0x30, 0x0E].foldl echoScancode (keyboard.input, clearScreen (whiteScreen 1024 768 1024) BLACK)).2 ∧
      Echoes 128 0 (text.map (·.val)) p' ∧
      (([0x1E, 0x30, 0x0E].foldl echoScancode
          (keyboard.input, clearScreen (whiteScreen 1024 768 1024) BLACK)).1.shiftPressed = false →
        (getInputAndReset (processScancode ([0x1E, 0x30, 0x0E].foldl echoScancode
          (keyboard.input, clearScreen (whiteScreen 1024 768 1024) BLACK)).1 0x1C)).1 = some text) := by
  have hu : (whiteScreen 1024 768 1024).fb.Usable := ⟨⟨rfl, by decide⟩, by decide, by decide⟩
  obtain ⟨hshows, hd⟩ := clearScreen_shows (s := whiteScreen 1024 768 1024)
    (p := ⟨fun _ => BLACK, fun _ _ => none, 0, 0, WHITE, RED, 0⟩) hu BLACK rfl rfl
  have hfb : RoomForLine (whiteScreen 1024 768 1024).fb := ⟨hu, by decide, by decide⟩
  have hhistory : PlainHistory keyboard.input.history := by
    have hempty : ∀ pos, keyboard.input.history.text pos = [] := by
      intro pos
      show CString.ofBytes ((Vector.replicate historySize (Vector.replicate (255 + 1) (0 : UInt8))).get pos).toList = []
      rw [get_eq, Vector.getElem_replicate, Vector.toList_replicate, List.replicate_succ]
      rfl
    intro pos c hc
    rw [hempty pos] at hc
    cases hc
  have hcolumns : (clearScreen (whiteScreen 1024 768 1024) BLACK).fb.room.columns = 128 := by
    rw [columns_draws hd]
    rfl
  have harrow : ∀ code : UInt8, code ≠ 0x48 → code ≠ 0x50 → ∀ {P : Prop}, code = 0x48 ∨ code = 0x50 → P :=
    fun code hup hdown _ h => absurd h (not_or.mpr ⟨hup, hdown⟩)
  have h := echo_shows_line _ (hfb.draws hd) _ hshows (fun _ _ => .inl rfl) keyboard.input rfl rfl hhistory
    [0x1E, 0x30, 0x0E] (by decide)
    ⟨harrow _ (by decide) (by decide), harrow _ (by decide) (by decide), harrow _ (by decide) (by decide), trivial⟩
  rw [hcolumns] at h
  exact h

end AmqOs.Shell
