import AmqOs.Editor.EditorDefs
import AmqOs.Vfs.VfsCwdDefs

/-!
# Files in the editors

`text_editor_save` writes its lines one by one through an open descriptor. The editor of `Anthropic.c` reads a file through a
buffer of 2048 bytes and cuts it into lines (`editorLoadFile`); to save, it joins its lines in memory, removes the file,
creates it anew and writes it (`editorSaveFile`). An access outside of an array is the fault of the layer below.
-/

set_option autoImplicit false

namespace AmqOs.Editor

open AmqOs.Lib AmqOs.Vfs

/-- An access that gives nothing is outside of its array. -/
def checked {α : Type} : Option α → Except Vfs.Fault α
  | some a => .ok a
  | none => .error .outOfBounds

def newline : UInt8 := 10

def carriageReturn : UInt8 := 13

/-- The bytes of row `i` up to its terminator. -/
def lineBytes {n w : Nat} (lines : Rows n w) (i : Nat) : Option (List UInt8) := do
  let row ← lines[i]?
  let len ← strlen row
  some (row.toList.take len)

/-! ## `text_editor.c` -/

/-- The loop of `text_editor_save` over the `k` lines from `i` on. What `vfs_write` returns is not looked at. -/
def saveLoop (buf : EditorBuffer) (fd : Int) : Nat → Nat → VfsState → Except Vfs.Fault VfsState
  | _, 0, v => .ok v
  | i, k + 1, v => do
    let bytes ← checked (lineBytes buf.lines i)
    let (_, v) ← vfsWrite v fd bytes
    if i < buf.lineCount - 1 then
      let (_, v) ← vfsWrite v fd [newline]
      saveLoop buf fd (i + 1) k v
    else saveLoop buf fd (i + 1) k v

/-- `text_editor_save`. -/
def textEditorSave (mem : Nat → Bool) (e : TextEditor) (v : VfsState) : Except Vfs.Fault (TextEditor × VfsState) :=
  if e.buffer.filepath = [] then .ok (e, v)
  else do
    let (fd, v) ← vfsOpen mem v e.buffer.filepath
    if fd < 0 then .ok (e, v)
    else
      let v ← saveLoop e.buffer fd 0 e.buffer.lineCount v
      .ok ({ e with buffer := { e.buffer with modified := false } }, (vfsClose v fd).2)

/-! ## `Anthropic.c` -/

/-- `fullpath`, an array of 256 characters. -/
def editorPath (cwd : CwdPath) (filename : CString) : Except Vfs.Fault CString :=
  let fullpath := if filename.head? = some slash then filename else cwd.withSlash ++ filename
  if fullpath.length < 256 then .ok fullpath else .error .outOfBounds

/-- `lines[i][j] = b`. -/
def setByte {n w : Nat} (lines : Rows n w) (i j : Nat) (b : UInt8) : Option (Rows n w) := do
  let row ← lines[i]?
  let row ← writeAt row j b
  writeAt lines i row

/-- `for (int i = 0; i < MAX_LINES; i++) ed->lines[i][0] = '\0';` -/
def clearLines (lines : Rows maxLines maxLineLength) : Rows maxLines maxLineLength := lines.map fun row => row.set 0 0

/-- The loop of `editor_load_file` over the bytes of the buffer. -/
def loadLoop : List UInt8 → Rows maxLines maxLineLength → Nat → Nat → Option (Rows maxLines maxLineLength × Nat × Nat)
  | [], lines, line, col => some (lines, line, col)
  | b :: buffer, lines, line, col =>
    if line < maxLines then
      if b = newline then do
        let lines ← setByte lines line col 0
        loadLoop buffer lines (line + 1) 0
      else if b = carriageReturn then loadLoop buffer lines line col
      else if col < maxLineLength - 1 then do
        let lines ← setByte lines line col b
        loadLoop buffer lines line (col + 1)
      else loadLoop buffer lines line col
    else some (lines, line, col)

/-- The lines of the buffer, and `line_count`. -/
def loadLines (buffer : List UInt8) (lines : Rows maxLines maxLineLength) : Option (Rows maxLines maxLineLength × Nat) := do
  let (lines, line, col) ← loadLoop buffer lines 0 0
  if col > 0 ∨ line = 0 then
    let lines ← setByte lines line col 0
    some (lines, line + 1)
  else some (lines, line)

/-- `editor_load_file`; the buffer is `uint8_t buffer[2048]`, and its last byte is for a terminator that nothing reads. -/
def editorLoadFile (mem : Nat → Bool) (cwd : CwdPath) (ed : EditorState) (v : VfsState) :
    Except Vfs.Fault (Int × EditorState × VfsState) := do
  let lines := clearLines ed.lines
  let fullpath ← editorPath cwd ed.filename
  let (fd, v) ← vfsOpen mem v fullpath
  if fd < 0 then .ok (-1, { ed with lines, lineCount := 1, modified := false }, v)
  else
    let ((bytes, buffer), v) ← vfsRead v fd (2048 - 1)
    let v := (vfsClose v fd).2
    if bytes ≤ 0 then .ok (-1, { ed with lines, lineCount := 1 }, v)
    else
      let (lines, lineCount) ← checked (loadLines buffer lines)
      .ok (0, { ed with lines, lineCount, modified := false }, v)

/-- `buffer[buffer_pos++] = b` for some bytes, in a buffer of `MAX_LINES * MAX_LINE_LENGTH`. -/
def pushBytes (buffer bytes : List UInt8) : Option (List UInt8) :=
  if (buffer ++ bytes).length ≤ maxLines * maxLineLength then some (buffer ++ bytes) else none

/-- The loop of `editor_save_file` over the `k` lines from `i` on. -/
def joinLoop (ed : EditorState) : Nat → Nat → List UInt8 → Option (List UInt8)
  | _, 0, buffer => some buffer
  | i, k + 1, buffer => do
    let bytes ← lineBytes ed.lines i
    let buffer ← pushBytes buffer bytes
    if i < ed.lineCount - 1 then
      let buffer ← pushBytes buffer [newline]
      joinLoop ed (i + 1) k buffer
    else joinLoop ed (i + 1) k buffer

/-- The outcomes of the `kmalloc` calls of a save: for its buffer, and for the nodes of the three calls that take the path. -/
structure SaveMemory where
  buffer : Bool
  unlink : Nat → Bool
  create : Nat → Bool
  openFile : Nat → Bool

/-- `editor_save_file`. -/
def editorSaveFile (mem : SaveMemory) (cwd : CwdPath) (ed : EditorState) (v : VfsState) :
    Except Vfs.Fault (Int × EditorState × VfsState) := do
  let fullpath ← editorPath cwd ed.filename
  if ¬ mem.buffer then .ok (-1, ed, v)
  else
    let buffer ← checked (joinLoop ed 0 ed.lineCount [])
    let (_, v) ← vfsUnlink mem.unlink v fullpath
    let (_, v) ← vfsCreate mem.create v fullpath
    let (fd, v) ← vfsOpen mem.openFile v fullpath
    if fd < 0 then .ok (-1, ed, v)
    else
      let (written, v) ← vfsWrite v fd buffer
      let v := (vfsClose v fd).2
      if written ≠ (buffer.length : Int) then .ok (-1, ed, v) else .ok (0, { ed with modified := false }, v)

end AmqOs.Editor
