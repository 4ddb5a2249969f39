import AmqOs.Editor.Document
import AmqOs.Lib.Rows

/-!
# The two text editors

`text_editor.c` and the editor of `Anthropic.c`, written separately, each with its own array of lines, its own loops and
its own limits. A function gives nothing when it would access memory outside of its arrays. `int` fields that the code
never makes negative are natural numbers; the scroll offset, which the code compares only, is an integer.
-/

set_option autoImplicit false

namespace AmqOs.Editor

open AmqOs.Lib

/-- The only fault of an editor function. -/
inductive Fault where
  | outOfBounds
  deriving DecidableEq, Repr

/-! ## `text_editor.c` -/

abbrev editorMaxLines : Nat := 1000

abbrev editorMaxLineLength : Nat := 256

/-- `editor_buffer_t`. -/
structure EditorBuffer where
  lines : Rows editorMaxLines editorMaxLineLength
  lineCount : Nat
  cursorLine : Nat
  cursorCol : Nat
  scrollOffset : Int
  filepath : CString
  modified : Bool

/-- The fields of `text_editor_t` that the functions below read. -/
structure TextEditor where
  height : Int
  buffer : EditorBuffer

/-- `(height - EDITOR_TITLE_HEIGHT - EDITOR_TOOLBAR_HEIGHT - 10) / 16`. -/
def TextEditor.visibleLines (e : TextEditor) : Int := (e.height - 30 - 35 - 10).tdiv 16

/-- `STRCAT(dest, src)`. -/
def strcat {w : Nat} (dest src : Row w) : Option (Row w) := do
  let len ← strlen dest
  strcpyAt dest len src 0

/-- `text_editor_insert_char`. -/
def textEditorInsertChar (e : TextEditor) (ch : UInt8) : Option TextEditor := do
  let buf := e.buffer
  if buf.cursorLine ≥ editorMaxLines then some e
  else
    let line ← buf.lines[buf.cursorLine]?
    let len ← strlen line
    if len ≥ editorMaxLineLength - 1 then some e
    else
      -- for (int i = len; i >= buf->cursor_col; i--)
      let line ← openGap line buf.cursorCol (len + 1 - buf.cursorCol)
      let line ← writeAt line buf.cursorCol ch
      let lines ← writeAt buf.lines buf.cursorLine line
      some { e with buffer := { buf with lines, cursorCol := buf.cursorCol + 1, modified := true } }

/-- `text_editor_backspace`. -/
def textEditorBackspace (e : TextEditor) : Option TextEditor := do
  let buf := e.buffer
  if buf.cursorCol > 0 then
    let line ← buf.lines[buf.cursorLine]?
    let len ← strlen line
    -- for (int i = buf->cursor_col - 1; i < len; i++)
    let line ← closeGap line (buf.cursorCol - 1) (len - (buf.cursorCol - 1))
    let lines ← writeAt buf.lines buf.cursorLine line
    some { e with buffer := { buf with lines, cursorCol := buf.cursorCol - 1, modified := true } }
  else if buf.cursorLine > 0 then
    let prev ← buf.lines[buf.cursorLine - 1]?
    let prevLen ← strlen prev
    let curr ← buf.lines[buf.cursorLine]?
    let currLen ← strlen curr
    if prevLen + currLen < editorMaxLineLength - 1 then
      let joined ← strcat prev curr
      let lines ← writeAt buf.lines (buf.cursorLine - 1) joined
      -- for (int i = buf->cursor_line; i < buf->line_count - 1; i++)
      let lines ← shiftUp lines buf.cursorLine (buf.lineCount - 1 - buf.cursorLine)
      let last ← lines[buf.lineCount - 1]?
      let last ← writeAt last 0 0
      let lines ← writeAt lines (buf.lineCount - 1) last
      some { e with
        buffer := { buf with
          lines
          lineCount := buf.lineCount - 1
          cursorLine := buf.cursorLine - 1
          cursorCol := prevLen
          modified := true } }
    else some e
  else some e

/-- `text_editor_newline`. -/
def textEditorNewline (e : TextEditor) : Option TextEditor := do
  let buf := e.buffer
  if buf.lineCount ≥ editorMaxLines then some e
  else
    -- for (int i = buf->line_count; i > buf->cursor_line; i--)
    let lines ← shiftDown buf.lines buf.cursorLine (buf.lineCount - buf.cursorLine)
    let line ← lines[buf.cursorLine]?
    let len ← strlen line
    let next ← lines[buf.cursorLine + 1]?
    -- for (int i = buf->cursor_col; i <= len; i++)
    let next ← copyTail line next buf.cursorCol (len + 1 - buf.cursorCol)
    let lines ← writeAt lines (buf.cursorLine + 1) next
    let line ← writeAt line buf.cursorCol 0
    let lines ← writeAt lines buf.cursorLine line
    let cursorLine := buf.cursorLine + 1
    some { e with
      buffer := { buf with
        lines
        lineCount := buf.lineCount + 1
        cursorLine
        cursorCol := 0
        scrollOffset := if cursorLine ≥ buf.scrollOffset + e.visibleLines then buf.scrollOffset + 1 else buf.scrollOffset
        modified := true } }

/-- `if (cursor_col > len) cursor_col = len;` -/
def clampCol (cursorCol len : Nat) : Nat := if cursorCol > len then len else cursorCol

/-- The scroll offset that shows the line `newLine`. -/
def scrollTo (newLine scrollOffset visibleLines : Int) : Int :=
  if newLine < scrollOffset then newLine
  else if newLine ≥ scrollOffset + visibleLines then newLine - visibleLines + 1
  else scrollOffset

/-- The first half of `text_editor_move_cursor`. -/
def textEditorMoveLine (e : TextEditor) (dy : Int) : Option TextEditor := do
  let buf := e.buffer
  let newLine := buf.cursorLine + dy
  if newLine ≥ 0 ∧ newLine < buf.lineCount then
    let line ← buf.lines[newLine.toNat]?
    let lineLen ← strlen line
    some { e with
      buffer := { buf with
        cursorLine := newLine.toNat
        cursorCol := clampCol buf.cursorCol lineLen
        scrollOffset := scrollTo newLine buf.scrollOffset e.visibleLines } }
  else some e

/-- The second half of `text_editor_move_cursor`. -/
def textEditorMoveCol (e : TextEditor) (dx : Int) : Option TextEditor := do
  let buf := e.buffer
  let newCol := buf.cursorCol + dx
  let line ← buf.lines[buf.cursorLine]?
  let lineLen ← strlen line
  if newCol ≥ 0 ∧ newCol ≤ lineLen then some { e with buffer := { buf with cursorCol := newCol.toNat } }
  else some e

/-- `text_editor_move_cursor`. -/
def textEditorMoveCursor (e : TextEditor) (dx dy : Int) : Option TextEditor :=
  (if dy ≠ 0 then textEditorMoveLine e dy else some e).bind fun e =>
    if dx ≠ 0 then textEditorMoveCol e dx else some e

/-- What `text_editor_handle_key` calls for a key. -/
def textEditorKey (e : TextEditor) : Key → Option TextEditor
  | .char c => textEditorInsertChar e c.val
  | .enter => textEditorNewline e
  | .backspace => textEditorBackspace e
  | .up => textEditorMoveCursor e 0 (-1)
  | .down => textEditorMoveCursor e 0 1
  | .left => textEditorMoveCursor e (-1) 0
  | .right => textEditorMoveCursor e 1 0

/-! ## `Anthropic.c` -/

abbrev maxLines : Nat := 250

abbrev maxLineLength : Nat := 80

/-- The fields of `editor_state_t` that the functions below read. -/
structure EditorState where
  lines : Rows maxLines maxLineLength
  lineCount : Nat
  cursorLine : Nat
  cursorCol : Nat
  scrollOffset : Int
  modified : Bool
  filename : CString
  visibleLines : Int
  needsFullRedraw : Bool

/-- The adjustment after the cursor went up a line. -/
def scrollUp (cursorLine : Nat) (scrollOffset : Int) : Int :=
  if cursorLine < scrollOffset then scrollOffset - 1 else scrollOffset

/-- The adjustment after the cursor went down a line. -/
def scrollDown (cursorLine : Nat) (scrollOffset visibleLines : Int) : Int :=
  if cursorLine ≥ scrollOffset + visibleLines then scrollOffset + 1 else scrollOffset

/-- `scancode == 0x48`. -/
def editorUp (ed : EditorState) : Option EditorState := do
  if ed.cursorLine > 0 then
    let line ← ed.lines[ed.cursorLine - 1]?
    let len ← strlen line
    some { ed with
      cursorLine := ed.cursorLine - 1
      scrollOffset := scrollUp (ed.cursorLine - 1) ed.scrollOffset
      cursorCol := clampCol ed.cursorCol len }
  else some ed

/-- `scancode == 0x50`. -/
def editorDown (ed : EditorState) : Option EditorState := do
  if ed.cursorLine < ed.lineCount - 1 then
    let line ← ed.lines[ed.cursorLine + 1]?
    let len ← strlen line
    some { ed with
      cursorLine := ed.cursorLine + 1
      scrollOffset := scrollDown (ed.cursorLine + 1) ed.scrollOffset ed.visibleLines
      cursorCol := clampCol ed.cursorCol len }
  else some ed

/-- `scancode == 0x4B`. -/
def editorLeft (ed : EditorState) : Option EditorState := do
  if ed.cursorCol > 0 then some { ed with cursorCol := ed.cursorCol - 1 }
  else if ed.cursorLine > 0 then
    let line ← ed.lines[ed.cursorLine - 1]?
    let len ← strlen line
    some { ed with
      cursorLine := ed.cursorLine - 1
      scrollOffset := scrollUp (ed.cursorLine - 1) ed.scrollOffset
      cursorCol := len }
  else some ed

/-- `scancode == 0x4D`. -/
def editorRight (ed : EditorState) : Option EditorState := do
  let line ← ed.lines[ed.cursorLine]?
  let len ← strlen line
  if ed.cursorCol < len then some { ed with cursorCol := ed.cursorCol + 1 }
  else if ed.cursorLine < ed.lineCount - 1 then
    some { ed with
      cursorLine := ed.cursorLine + 1
      scrollOffset := scrollDown (ed.cursorLine + 1) ed.scrollOffset ed.visibleLines
      cursorCol := 0 }
  else some ed

/-- `scancode == 0x0E`. -/
def editorBackspace (ed : EditorState) : Option EditorState := do
  if ed.cursorCol > 0 then
    let line ← ed.lines[ed.cursorLine]?
    let len ← strlen line
    -- for (int i = ed->cursor_col - 1; i < len; i++)
    let line ← closeGap line (ed.cursorCol - 1) (len - (ed.cursorCol - 1))
    let lines ← writeAt ed.lines ed.cursorLine line
    some { ed with lines, cursorCol := ed.cursorCol - 1, modified := true }
  else if ed.cursorLine > 0 then
    let prev ← ed.lines[ed.cursorLine - 1]?
    let prevLen ← strlen prev
    let curr ← ed.lines[ed.cursorLine]?
    let currLen ← strlen curr
    if prevLen + currLen < maxLineLength - 1 then
      let joined ← strcat prev curr
      let lines ← writeAt ed.lines (ed.cursorLine - 1) joined
      -- for (int i = ed->cursor_line; i < ed->line_count - 1; i++)
      let lines ← shiftUp lines ed.cursorLine (ed.lineCount - 1 - ed.cursorLine)
      some { ed with
        lines
        lineCount := ed.lineCount - 1
        cursorLine := ed.cursorLine - 1
        scrollOffset := scrollUp (ed.cursorLine - 1) ed.scrollOffset
        cursorCol := prevLen
        modified := true }
    else some ed
  else some ed

/-- The split in `scancode == 0x1C`; `next` is the row below the line. -/
def splitLine (lines : Rows maxLines maxLineLength) (line next : Row maxLineLength) (row splitPos len : Nat) :
    Option (Rows maxLines maxLineLength) := do
  if splitPos < len then
    let next ← strcpyAt next 0 line splitPos
    let lines ← writeAt lines (row + 1) next
    let line ← writeAt line splitPos 0
    writeAt lines row line
  else
    let next ← writeAt next 0 0
    writeAt lines (row + 1) next

/-- `scancode == 0x1C`. -/
def editorEnter (ed : EditorState) : Option EditorState := do
  if ed.lineCount < maxLines then
    -- for (int i = ed->line_count; i > ed->cursor_line + 1; i--)
    let lines ← shiftDown ed.lines (ed.cursorLine + 1) (ed.lineCount - (ed.cursorLine + 1))
    let line ← lines[ed.cursorLine]?
    let len ← strlen line
    let next ← lines[ed.cursorLine + 1]?
    let lines ← splitLine lines line next ed.cursorLine ed.cursorCol len
    some { ed with
      lines
      lineCount := ed.lineCount + 1
      cursorLine := ed.cursorLine + 1
      scrollOffset := scrollDown (ed.cursorLine + 1) ed.scrollOffset ed.visibleLines
      cursorCol := 0
      modified := true }
  else some ed

/-- The insertion of a character at the end of `editor_handle_key`. -/
def editorInsert (ed : EditorState) (ch : UInt8) : Option EditorState := do
  let line ← ed.lines[ed.cursorLine]?
  let len ← strlen line
  let col := clampCol ed.cursorCol len
  if len < maxLineLength - 1 then
    -- for (int i = len; i > ed->cursor_col; i--)
    let line ← openGap line col (len - col)
    let line ← writeAt line col ch
    let line ← writeAt line (len + 1) 0
    let lines ← writeAt ed.lines ed.cursorLine line
    some { ed with lines, cursorCol := col + 1, modified := true, needsFullRedraw := true }
  else some { ed with cursorCol := col }

/-- The `switch` of `editor_handle_key`: runs of scancodes, from the first one on, with the characters without and with
Shift. -/
def keyRows : List (Nat × String × String) := [
  (0x02, "1234567890-=", "!@#$%^&*()_+"),
  (0x10, "qwertyuiop[]", "QWERTYUIOP\x7b\x7d"),
  (0x1E, "asdfghjkl;'`", "ASDFGHJKL:\"~"),
  (0x2B, "\\zxcvbnm,./", "|ZXCVBNM<>?"),
  (0x39, " ", " ")]

/-- `ch`, when the `switch` has a case for the scancode. -/
def keyChar (scancode : UInt8) (shiftHeld : Bool) : Option UInt8 :=
  keyRows.findSome? fun (first, plain, shifted) =>
    if first ≤ scancode.toNat then
      ((if shiftHeld then shifted else plain).toList[scancode.toNat - first]?).map fun c => c.toNat.toUInt8
    else none

/-- `editor_handle_key`. -/
def editorHandleKey (ed : EditorState) (scancode : UInt8) (shiftHeld : Bool) : Option EditorState :=
  if scancode = 0x48 then editorUp ed
  else if scancode = 0x50 then editorDown ed
  else if scancode = 0x4B then editorLeft ed
  else if scancode = 0x4D then editorRight ed
  else if scancode = 0x0E then editorBackspace ed
  else if scancode = 0x1C then editorEnter ed
  else match keyChar scancode shiftHeld with
    | none => some ed
    | some ch => if ch ≠ 0 then editorInsert ed ch else some ed

end AmqOs.Editor
