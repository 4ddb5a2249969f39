import AmqOs.Shell.CommandHistory

/-!
# Lines from the keyboard

Scancodes arrive in a ring; `process_keyboard_buffer` takes them out and edits the line in `input_buffer`, and
`get_input_and_reset` returns the line when Enter has been pressed. What was typed is `Typing`: the keys with Shift
followed, the line so far and the lines before it.

Enter does not stop `process_keyboard_buffer`: what follows in the ring goes on editing the same buffer, before the line has
been fetched. And with Shift held Enter, Backspace and the space bar do nothing. Without these two, every line that is
returned is the line typed (`inputLines_eq`): the invariant over the batches is `Edits`, and `Ready` holds from Enter on.
-/

set_option autoImplicit false

namespace AmqOs.Shell

open AmqOs.Lib

/-- `INPUT_BUFFER_SIZE` -/
abbrev inputBufferSize : Nat := 256

theorem neZero_inputBufferSize : NeZero inputBufferSize := ⟨by decide⟩

attribute [local instance] neZero_inputBufferSize

/-- `scancode_buffer`, `scancode_read_pos` and `scancode_write_pos`. -/
structure ScancodeRing where
  buffer : Vector UInt8 256
  readPos : UInt8
  writePos : UInt8

/-- `input_buffer`, `input_pos`, `input_ready` and `shift_pressed`, with the history that the arrow keys walk through. -/
structure Input where
  buffer : Vector UInt8 inputBufferSize
  pos : Fin inputBufferSize
  ready : Bool
  shiftPressed : Bool
  history : CommandHistory

structure Keyboard where
  ring : ScancodeRing
  input : Input

/-- The keyboard after the start. -/
def keyboard : Keyboard where
  ring := ⟨Vector.replicate _ 0, 0, 0⟩
  input := ⟨Vector.replicate _ 0, 0, false, false, cmdHistory⟩

/-- `scancode_buffer[scancode_write_pos++] = scancode` -/
def keyboardHandler (r : ScancodeRing) (scancode : UInt8) : ScancodeRing :=
  { r with buffer := setAt r.buffer r.writePos.toFin scancode, writePos := r.writePos + 1 }

/-- The cases of `scancode_to_ascii` without Shift. -/
def plainKeys : List (UInt8 × Char) :=
  [(0x02, '1'), (0x03, '2'), (0x04, '3'), (0x05, '4'), (0x06, '5'), (0x07, '6'), (0x08, '7'), (0x09, '8'), (0x0A, '9'),
    (0x0B, '0'), (0x0C, '-'), (0x0D, '='), (0x0E, .ofNat 8), (0x1C, .ofNat 10), (0x39, ' '),
    (0x10, 'q'), (0x11, 'w'), (0x12, 'e'), (0x13, 'r'), (0x14, 't'), (0x15, 'y'), (0x16, 'u'), (0x17, 'i'), (0x18, 'o'),
    (0x19, 'p'), (0x1A, '['), (0x1B, ']'), (0x2B, .ofNat 0x5C), (0x29, .ofNat 0x60), (0x27, ';'), (0x28, .ofNat 0x27),
    (0x1E, 'a'), (0x1F, 's'), (0x20, 'd'), (0x21, 'f'), (0x22, 'g'), (0x23, 'h'), (0x24, 'j'), (0x25, 'k'), (0x26, 'l'),
    (0x2C, 'z'), (0x2D, 'x'), (0x2E, 'c'), (0x2F, 'v'), (0x30, 'b'), (0x31, 'n'), (0x32, 'm'), (0x33, ','), (0x34, '.'),
    (0x35, '/')]

/-- The cases with Shift: none for Enter, Backspace and the space bar. -/
def shiftedKeys : List (UInt8 × Char) :=
  [(0x02, '!'), (0x03, '@'), (0x04, '#'), (0x05, '$'), (0x06, '%'), (0x07, '^'), (0x08, '&'), (0x09, '*'), (0x0A, '('),
    (0x0B, ')'), (0x0C, '_'), (0x0D, '+'),
    (0x10, 'Q'), (0x11, 'W'), (0x12, 'E'), (0x13, 'R'), (0x14, 'T'), (0x15, 'Y'), (0x16, 'U'), (0x17, 'I'), (0x18, 'O'),
    (0x19, 'P'), (0x1A, .ofNat 0x7B), (0x1B, .ofNat 0x7D), (0x2B, '|'), (0x29, '~'), (0x27, ':'), (0x28, .ofNat 0x22),
    (0x1E, 'A'), (0x1F, 'S'), (0x20, 'D'), (0x21, 'F'), (0x22, 'G'), (0x23, 'H'), (0x24, 'J'), (0x25, 'K'), (0x26, 'L'),
    (0x2C, 'Z'), (0x2D, 'X'), (0x2E, 'C'), (0x2F, 'V'), (0x30, 'B'), (0x31, 'N'), (0x32, 'M'), (0x33, '<'), (0x34, '>'),
    (0x35, '?')]

/-- 0 for a scancode that is not in the table. -/
def scancodeToAscii (scancode : UInt8) (shifted : Bool) : UInt8 :=
  match (if shifted then shiftedKeys else plainKeys).lookup scancode with
  | some c => c.toUInt8
  | none => 0

def handleBackspace (s : Input) : Input :=
  if s.pos > 0 then
    let pos : Fin inputBufferSize := ⟨s.pos.val - 1, by omega⟩
    { s with pos := pos, buffer := setAt s.buffer pos 0 }
  else s

def replaceInputLine (s : Input) (newInput : CString) : Input :=
  { s with
    buffer := CString.strcpy (n := 255) s.buffer newInput
    pos := ⟨min newInput.length 255, lt_of_le_of_lt (min_le_right _ _) (by decide)⟩ }

def handleArrowUp (s : Input) : Input :=
  match historyPrev s.history with
  | (some prev, history) => replaceInputLine { s with history := history } prev
  | (none, history) => { s with history := history }

def handleArrowDown (s : Input) : Input :=
  match historyNext s.history with
  | (some next, history) => replaceInputLine { s with history := history } next
  | (none, history) => replaceInputLine { s with history := history } []

/-- The body of the loop of `process_keyboard_buffer`. -/
def processScancode (s : Input) (scancode : UInt8) : Input :=
  if scancode = 0x2A ∨ scancode = 0x36 then { s with shiftPressed := true }
  else if scancode = 0xAA ∨ scancode = 0xB6 then { s with shiftPressed := false }
  else if scancode &&& 0x80 ≠ 0 then s
  else if scancode = 0x48 then handleArrowUp s
  else if scancode = 0x50 then handleArrowDown s
  else
    let ascii := scancodeToAscii scancode s.shiftPressed
    if ascii = 0 then s
    else if ascii = 8 then handleBackspace s
    else if ascii = 10 then { s with buffer := setAt s.buffer s.pos 0, ready := true }
    else if h : s.pos.val < inputBufferSize - 1 then
      { s with buffer := setAt s.buffer s.pos ascii, pos := ⟨s.pos.val + 1, by omega⟩ }
    else s

def processKeyboardBuffer (k : Keyboard) : Keyboard :=
  if k.ring.readPos ≠ k.ring.writePos then
    processKeyboardBuffer {
      ring := { k.ring with readPos := k.ring.readPos + 1 }
      input := processScancode k.input (k.ring.buffer.get k.ring.readPos.toFin) }
  else k
termination_by (k.ring.writePos - k.ring.readPos).toNat
decreasing_by
  rename_i hne
  have hne : k.ring.readPos.toNat ≠ k.ring.writePos.toNat := fun h => hne (UInt8.toNat_inj.mp h)
  have := k.ring.readPos.toNat_lt
  have := k.ring.writePos.toNat_lt
  simp only [UInt8.toNat_sub, UInt8.toNat_add, UInt8.toNat_one]
  omega

/-- The line is what the buffer holds at the return. -/
def getInputAndReset (s : Input) : Option CString × Input :=
  if s.ready then (some (.ofBytes s.buffer.toList), { s with ready := false, pos := 0 }) else (none, s)

/-- Scancodes arrive, and the shell looks for a line. -/
def poll (k : Keyboard) (batch : List UInt8) : Option CString × Keyboard :=
  let k := processKeyboardBuffer { k with ring := batch.foldl keyboardHandler k.ring }
  ((getInputAndReset k.input).1, { k with input := (getInputAndReset k.input).2 })

/-- The lines that the shell gets. -/
def inputLines (k : Keyboard) : List (List UInt8) → List CString
  | [] => []
  | batch :: batches => (poll k batch).1.toList ++ inputLines (poll k batch).2 batches

/-! ## What is typed -/

inductive Key where
  | enter
  | backspace
  | char (c : CChar)
  deriving DecidableEq

/-- Whether Shift is held after a scancode. -/
def shiftAfter (shift : Bool) (scancode : UInt8) : Bool :=
  if scancode = 0x2A ∨ scancode = 0x36 then true
  else if scancode = 0xAA ∨ scancode = 0xB6 then false
  else shift

/-- The key that a scancode means. Enter, Backspace and the space bar are these keys with Shift too. -/
def keyOf (shift : Bool) (scancode : UInt8) : Option Key :=
  if scancode = 0x1C then some .enter
  else if scancode = 0x0E then some .backspace
  else if scancode = 0x39 then some (.char ⟨0x20, by decide⟩)
  else if h : scancodeToAscii scancode shift ≠ 0 then some (.char ⟨_, h⟩)
  else none

structure Typing where
  shift : Bool
  line : CString
  lines : List CString

/-- `cut` is what a line is cut to when it grows. -/
def Typing.key (cut : CString → CString) (t : Typing) : Key → Typing
  | .enter => { t with line := [], lines := t.lines ++ [t.line] }
  | .backspace => { t with line := t.line.dropLast }
  | .char c => { t with line := cut (t.line ++ [c]) }

def Typing.scan (cut : CString → CString) (t : Typing) (scancode : UInt8) : Typing :=
  let t' := match keyOf t.shift scancode with
    | some k => t.key cut k
    | none => t
  { t' with shift := shiftAfter t.shift scancode }

/-- What has been typed with the scancodes. -/
def typed (cut : CString → CString) (codes : List UInt8) : Typing := codes.foldl (Typing.scan cut) ⟨false, [], []⟩

/-- The characters for which there is room. -/
def fit (line : CString) : CString := line.take (inputBufferSize - 1)

/-- The keys of a list of scancodes. -/
def keysOf (shift : Bool) : List UInt8 → List Key
  | [] => []
  | s :: codes => (keyOf shift s).toList ++ keysOf (shiftAfter shift s) codes

/-- Enter, Backspace and the space bar are not pressed with Shift. -/
def Unshifted (shift : Bool) : List UInt8 → Prop
  | [] => True
  | s :: codes => (shift = true → s ≠ 0x1C ∧ s ≠ 0x0E ∧ s ≠ 0x39) ∧ Unshifted (shiftAfter shift s) codes

/-- A batch that can be processed before the next look for a line: there is no key after Enter. -/
def Calm (shift : Bool) (batch : List UInt8) : Prop :=
  .enter ∉ (keysOf shift batch).dropLast ∧ Unshifted shift batch

/-- Every batch is calm. -/
def CalmRun (shift : Bool) : List (List UInt8) → Prop
  | [] => True
  | batch :: batches => Calm shift batch ∧ CalmRun (batch.foldl shiftAfter shift) batches

/-- Backspace is not pressed while a line has more characters than there is room for. -/
def RoomAtBackspace (codes : List UInt8) : Prop :=
  ∀ pre post, codes = pre ++ 0x0E :: post → (typed id pre).line.length ≤ inputBufferSize - 1

/-! ## One scancode -/

/-- The cases of the table are pressed keys, none of them Shift or an arrow, and only Backspace and Enter have a control
character. -/
theorem keys_spec {shift : Bool} {e : UInt8 × Char} (he : e ∈ if shift then shiftedKeys else plainKeys) :
    e.1 ≠ 0x2A ∧ e.1 ≠ 0x36 ∧ e.1 &&& 0x80 = 0 ∧
      (e.1 ≠ 0x0E → e.2.toUInt8 ≠ 8) ∧ (e.1 ≠ 0x1C → e.2.toUInt8 ≠ 10) := by
  cases shift
  · revert e
    decide
  · revert e
    decide

theorem scancodeToAscii_spec {shift : Bool} {s : UInt8} (h : scancodeToAscii s shift ≠ 0) :
    s ≠ 0x2A ∧ s ≠ 0x36 ∧ s &&& 0x80 = 0 ∧
      (s ≠ 0x0E → scancodeToAscii s shift ≠ 8) ∧ (s ≠ 0x1C → scancodeToAscii s shift ≠ 10) := by
  unfold scancodeToAscii at *
  cases hc : (if shift then shiftedKeys else plainKeys).lookup s with
  | none =>
    rw [hc] at h
    exact absurd rfl h
  | some c =>
    obtain ⟨l₁, l₂, hl, -⟩ := List.lookup_eq_some_iff.mp hc
    exact keys_spec (e := (s, c)) (by rw [hl]; simp)

theorem ne_release_of_and {s : UInt8} (h : s &&& 0x80 = 0) : s ≠ 0xAA ∧ s ≠ 0xB6 := by
  constructor <;> rintro rfl <;> exact absurd h (by decide)

section Scancode

variable {s : Input} {shift : Bool} {text : CString} {code : UInt8}

/-- A scancode without a key, and not of an arrow, follows Shift. -/
theorem processScancode_none (hk : keyOf s.shiftPressed code = none) (hup : code ≠ 0x48) (hdown : code ≠ 0x50) :
    processScancode s code = { s with shiftPressed := shiftAfter s.shiftPressed code } := by
  unfold keyOf at hk
  split at hk
  · cases hk
  split at hk
  · cases hk
  split at hk
  · cases hk
  split at hk
  · cases hk
  rename_i hascii
  have hascii : scancodeToAscii code s.shiftPressed = 0 := not_not.mp hascii
  unfold processScancode shiftAfter
  split
  · rfl
  split
  · rfl
  split
  · rfl
  rw [hascii]
  rfl

/-- A key that the table has. -/
theorem processScancode_ascii (h2A : code ≠ 0x2A) (h36 : code ≠ 0x36) (h80 : code &&& 0x80 = 0) (hup : code ≠ 0x48)
    (hdown : code ≠ 0x50) (h0 : scancodeToAscii code s.shiftPressed ≠ 0) :
    processScancode s code =
      if scancodeToAscii code s.shiftPressed = 8 then handleBackspace s
      else if scancodeToAscii code s.shiftPressed = 10 then { s with buffer := setAt s.buffer s.pos 0, ready := true }
      else if h : s.pos.val < inputBufferSize - 1 then
        { s with buffer := setAt s.buffer s.pos (scancodeToAscii code s.shiftPressed), pos := ⟨s.pos.val + 1, by omega⟩ }
      else s := by
  obtain ⟨hAA, hB6⟩ := ne_release_of_and h80
  unfold processScancode
  rw [if_neg (not_or.mpr ⟨h2A, h36⟩), if_neg (not_or.mpr ⟨hAA, hB6⟩), if_neg (not_not.mpr h80), if_neg hup, if_neg hdown]
  exact if_neg h0

theorem eq_of_keyOf_enter (hk : keyOf shift code = some .enter) : code = 0x1C := by
  unfold keyOf at hk
  split at hk
  · assumption
  · exfalso
    split at hk
    · cases hk
    split at hk
    · cases hk
    split at hk <;> cases hk

theorem eq_of_keyOf_backspace (hk : keyOf shift code = some .backspace) : code = 0x0E := by
  unfold keyOf at hk
  split at hk
  · cases hk
  split at hk
  · assumption
  · exfalso
    split at hk
    · cases hk
    split at hk <;> cases hk

theorem shiftAfter_of_key {k : Key} (hk : keyOf shift code = some k) : shiftAfter shift code = shift := by
  have hne : (code ≠ 0x2A ∧ code ≠ 0x36) ∧ code ≠ 0xAA ∧ code ≠ 0xB6 := by
    unfold keyOf at hk
    split at hk
    · subst code
      decide
    split at hk
    · subst code
      decide
    split at hk
    · subst code
      decide
    split at hk
    · rename_i h0
      obtain ⟨h1, h2, h3, -⟩ := scancodeToAscii_spec h0
      exact ⟨⟨h1, h2⟩, ne_release_of_and h3⟩
    · cases hk
  rw [shiftAfter, if_neg (not_or.mpr hne.1), if_neg (not_or.mpr hne.2)]

/-- The line that is being edited. -/
structure Input.Edits (s : Input) (shift : Bool) (text : CString) : Prop where
  shift : s.shiftPressed = shift
  ready : s.ready = false
  pos : s.pos.val = text.length
  chars : ∀ (i : Nat) (h : i < text.length), s.buffer[i]? = some (text[i]).val

/-- The line that has been finished. -/
structure Input.Ready (s : Input) (shift : Bool) (text : CString) : Prop where
  shift : s.shiftPressed = shift
  ready : s.ready = true
  text : CString.ofBytes s.buffer.toList = text

theorem getElem?_setAt {n : Nat} (v : Vector UInt8 n) (i : Fin n) (x : UInt8) (j : Nat) :
    (setAt v i x)[j]? = if i.val = j then some x else v[j]? := by
  rw [setAt, Vector.getElem?_set]

theorem Input.Edits.enter (h : s.Edits shift text) (hk : keyOf shift code = some .enter) (hs : shift = false) :
    (processScancode s code).Ready shift text := by
  have hcode := eq_of_keyOf_enter hk
  have hsp := h.shift
  subst hcode hs
  have hproc : processScancode s 0x1C = { s with buffer := setAt s.buffer s.pos 0, ready := true } := by
    have h10 : scancodeToAscii 0x1C s.shiftPressed = 10 := by rw [hsp]; decide
    rw [processScancode_ascii (by decide) (by decide) (by decide) (by decide) (by decide) (by rw [h10]; decide), h10]
    rfl
  rw [hproc]
  refine ⟨hsp, rfl, CString.ofBytes_eq ?_ ?_⟩
  · intro i hi
    rw [Vector.getElem?_toList, getElem?_setAt, if_neg (by rw [h.pos]; omega)]
    exact h.chars i hi
  · rw [Vector.getElem?_toList, getElem?_setAt, if_pos h.pos]

theorem Input.Edits.backspace (h : s.Edits shift text) (hk : keyOf shift code = some .backspace) (hs : shift = false) :
    (processScancode s code).Edits shift text.dropLast := by
  have hcode := eq_of_keyOf_backspace hk
  have hsp := h.shift
  have hpos := h.pos
  subst hcode hs
  have hproc : processScancode s 0x0E = handleBackspace s := by
    have h8 : scancodeToAscii 0x0E s.shiftPressed = 8 := by rw [hsp]; decide
    rw [processScancode_ascii (by decide) (by decide) (by decide) (by decide) (by decide) (by rw [h8]; decide), h8]
    rfl
  rw [hproc, handleBackspace]
  split
  · refine ⟨hsp, h.ready, ?_, ?_⟩
    · rw [List.length_dropLast]
      show s.pos.val - 1 = _
      rw [hpos]
    · intro i hi
      have hlt : i < text.length - 1 := by rwa [List.length_dropLast] at hi
      rw [getElem?_setAt, if_neg (by show ¬ s.pos.val - 1 = i; omega), List.getElem_dropLast]
      exact h.chars i (by omega)
  · rename_i h0
    have h0 : text.length = 0 := by
      rw [← hpos]
      simpa [Fin.pos_iff_ne_zero] using h0
    rw [List.length_eq_zero_iff.mp h0] at h ⊢
    exact h

theorem Input.Edits.char (h : s.Edits shift text) {c : CChar} (hk : keyOf shift code = some (.char c))
    (hs : shift = true → code ≠ 0x39) (hup : code ≠ 0x48) (hdown : code ≠ 0x50) :
    (processScancode s code).Edits shift (fit (text ++ [c])) := by
  -- The character is that of the table, for the space bar too.
  have hascii : scancodeToAscii code shift = c.val ∧ code ≠ 0x0E ∧ code ≠ 0x1C := by
    unfold keyOf at hk
    split at hk
    · cases hk
    rename_i h1C
    split at hk
    · cases hk
    rename_i h0E
    split at hk
    · rename_i h39
      have hshift : shift = false := by
        cases shift
        · rfl
        · exact absurd h39 (hs rfl)
      obtain rfl := Key.char.inj (Option.some.inj hk)
      subst h39 hshift
      decide
    split at hk
    · obtain rfl := Key.char.inj (Option.some.inj hk)
      exact ⟨rfl, h0E, h1C⟩
    · cases hk
  obtain ⟨hc, h0E, h1C⟩ := hascii
  have hsp := h.shift
  have hpos := h.pos
  obtain ⟨h2A, h36, h80, h8, h10⟩ := scancodeToAscii_spec (show scancodeToAscii code shift ≠ 0 by rw [hc]; exact c.property)
  have h8 := h8 h0E
  have h10 := h10 h1C
  subst hsp
  rw [processScancode_ascii h2A h36 h80 hup hdown (by rw [hc]; exact c.property), if_neg h8, if_neg h10, hc]
  split
  · rename_i hroom
    have hfit : fit (text ++ [c]) = text ++ [c] := by
      apply List.take_of_length_le
      rw [List.length_append, List.length_singleton]
      omega
    rw [hfit]
    refine ⟨rfl, h.ready, by simp [hpos], ?_⟩
    intro i hi
    rw [getElem?_setAt, hpos]
    rcases Nat.lt_or_ge i text.length with hlt | hge
    · rw [if_neg (by omega), List.getElem_append_left hlt]
      exact h.chars i hlt
    · obtain rfl : i = text.length := by simp at hi; omega
      rw [if_pos rfl]
      simp
  · have hfull : text.length = inputBufferSize - 1 := by
      have := s.pos.isLt
      omega
    have hfit : fit (text ++ [c]) = text := by
      rw [fit, List.take_append_of_le_length (by omega), List.take_of_length_le (by omega)]
    rw [hfit]
    exact h

end Scancode

/-! ## One batch -/

section Batch

variable {s : Input} {shift : Bool} {text : CString} {cut : CString → CString}

theorem Typing.scan_none {t : Typing} {code : UInt8} (hk : keyOf t.shift code = none) :
    t.scan cut code = { t with shift := shiftAfter t.shift code } := by
  rw [Typing.scan, hk]

theorem Typing.scan_some {t : Typing} {code : UInt8} {k : Key} (hk : keyOf t.shift code = some k) :
    t.scan cut code = t.key cut k := by
  rw [Typing.scan, hk, shiftAfter_of_key hk]
  cases k <;> rfl

theorem shift_scan (t : Typing) (code : UInt8) : (t.scan cut code).shift = shiftAfter t.shift code := rfl

theorem shift_foldl_scan (codes : List UInt8) (t : Typing) :
    (codes.foldl (Typing.scan cut) t).shift = codes.foldl shiftAfter t.shift := by
  induction codes generalizing t with
  | nil => rfl
  | cons code codes ih => rw [List.foldl_cons, ih, shift_scan, List.foldl_cons]

/-- The lines that are finished do not matter for the next ones. -/
theorem scan_lines (codes : List UInt8) (shift : Bool) (text : CString) (lines : List CString) :
    codes.foldl (Typing.scan cut) ⟨shift, text, lines⟩ =
      { codes.foldl (Typing.scan cut) ⟨shift, text, []⟩ with
        lines := lines ++ (codes.foldl (Typing.scan cut) ⟨shift, text, []⟩).lines } := by
  induction codes generalizing shift text lines with
  | nil => simp
  | cons code codes ih =>
    rw [List.foldl_cons, List.foldl_cons]
    cases hk : keyOf shift code with
    | none => rw [Typing.scan_none hk, Typing.scan_none hk, ih]
    | some k =>
      rw [Typing.scan_some hk, Typing.scan_some hk]
      cases k with
      | enter =>
        simp only [Typing.key, List.nil_append]
        rw [ih _ _ (lines ++ [text]), ih _ _ [text]]
        simp
      | backspace => exact ih ..
      | char c => exact ih ..

/-- A finished line waits for the end of a batch without further keys. -/
theorem Input.Ready.foldl (h : s.Ready shift text) {codes : List UInt8} (hkeys : keysOf shift codes = [])
    (hup : 0x48 ∉ codes) (hdown : 0x50 ∉ codes) (line : CString) (lines : List CString) :
    (codes.foldl (Typing.scan cut) ⟨shift, line, lines⟩).lines = lines ∧
      (codes.foldl (Typing.scan cut) ⟨shift, line, lines⟩).line = line ∧
      (codes.foldl processScancode s).Ready (codes.foldl (Typing.scan cut) ⟨shift, line, lines⟩).shift text := by
  induction codes generalizing s shift with
  | nil => exact ⟨rfl, rfl, h⟩
  | cons code codes ih =>
    rw [keysOf, List.append_eq_nil_iff] at hkeys
    have hk : keyOf shift code = none := by simpa using hkeys.1
    rw [List.mem_cons, not_or] at hup hdown
    rw [List.foldl_cons, List.foldl_cons, Typing.scan_none hk]
    have hsp := h.shift
    subst hsp
    rw [processScancode_none hk (Ne.symm hup.1) (Ne.symm hdown.1)]
    exact ih ⟨rfl, h.ready, h.text⟩ hkeys.2 hup.2 hdown.2

/-- A calm batch edits the line, or finishes it with its last key. -/
theorem Input.Edits.foldl (h : s.Edits shift text) {codes : List UInt8} (hcalm : Calm shift codes)
    (hup : 0x48 ∉ codes) (hdown : 0x50 ∉ codes) :
    (codes.foldl (Typing.scan fit) ⟨shift, text, []⟩).lines = [] ∧
        (codes.foldl processScancode s).Edits (codes.foldl (Typing.scan fit) ⟨shift, text, []⟩).shift
          (codes.foldl (Typing.scan fit) ⟨shift, text, []⟩).line ∨
      ∃ line, (codes.foldl (Typing.scan fit) ⟨shift, text, []⟩).lines = [line] ∧
        (codes.foldl (Typing.scan fit) ⟨shift, text, []⟩).line = [] ∧
        (codes.foldl processScancode s).Ready (codes.foldl (Typing.scan fit) ⟨shift, text, []⟩).shift line := by
  induction codes generalizing s shift text with
  | nil => exact .inl ⟨rfl, h⟩
  | cons code codes ih =>
    obtain ⟨hlast, hshift, hrest⟩ := hcalm
    rw [List.mem_cons, not_or] at hup hdown
    have hup1 := Ne.symm hup.1
    have hdown1 := Ne.symm hdown.1
    rw [keysOf] at hlast
    rw [List.foldl_cons, List.foldl_cons]
    cases hk : keyOf shift code with
    | none =>
      rw [hk] at hlast
      have hsp := h.shift
      subst hsp
      rw [Typing.scan_none hk, processScancode_none hk hup1 hdown1]
      exact ih ⟨rfl, h.ready, h.pos, h.chars⟩ ⟨hlast, hrest⟩ hup.2 hdown.2
    | some k =>
      rw [hk, shiftAfter_of_key hk, Option.toList_some, List.singleton_append] at hlast
      rw [shiftAfter_of_key hk] at hrest
      have hrestLast : .enter ∉ (keysOf shift codes).dropLast := by
        intro hmem
        apply hlast
        cases hks : keysOf shift codes with
        | nil =>
          rw [hks] at hmem
          cases hmem
        | cons k' ks =>
          rw [hks] at hmem
          rw [List.dropLast_cons_cons]
          exact List.mem_cons_of_mem _ hmem
      rw [Typing.scan_some hk]
      cases k with
      | enter =>
        have hfalse : shift = false := by
          cases shift
          · rfl
          · exact absurd (eq_of_keyOf_enter hk) (hshift rfl).1
        -- Enter is the last key of the batch.
        have hnone : keysOf shift codes = [] := by
          cases hks : keysOf shift codes with
          | nil => rfl
          | cons k' ks =>
            rw [hks, List.dropLast_cons_cons] at hlast
            exact absurd List.mem_cons_self hlast
        exact .inr ⟨text, (h.enter hk hfalse).foldl hnone hup.2 hdown.2 [] [text]⟩
      | backspace =>
        have hfalse : shift = false := by
          cases shift
          · rfl
          · exact absurd (eq_of_keyOf_backspace hk) (hshift rfl).2.1
        exact ih (h.backspace hk hfalse) ⟨hrestLast, hrest⟩ hup.2 hdown.2
      | char c => exact ih (h.char hk (fun hs => (hshift hs).2.2) hup1 hdown1) ⟨hrestLast, hrest⟩ hup.2 hdown.2

end Batch

/-! ## The ring -/

section Ring

variable {r : ScancodeRing}

/-- Scancode `i` of a batch lies at place `i` behind the old write position. -/
theorem foldl_keyboardHandler {batch : List UInt8} (hlen : batch.length < 256) :
    (batch.foldl keyboardHandler r).readPos = r.readPos ∧
      (batch.foldl keyboardHandler r).writePos = r.writePos + .ofNat batch.length ∧
      ∀ (i : Nat) (h : i < batch.length),
        (batch.foldl keyboardHandler r).buffer.get (r.writePos + .ofNat i).toFin = batch[i] := by
  induction batch using List.reverseRecOn with
  | nil => exact ⟨rfl, by simp, fun i h => absurd h (Nat.not_lt_zero i)⟩
  | append_singleton batch code ih =>
    rw [List.length_append, List.length_singleton] at hlen
    obtain ⟨hread, hwrite, hget⟩ := ih (by omega)
    rw [List.foldl_append, List.foldl_cons, List.foldl_nil, keyboardHandler]
    refine ⟨hread, ?_, ?_⟩
    · rw [hwrite, List.length_append, List.length_singleton, UInt8.ofNat_add]
      exact UInt8.add_assoc _ _ _
    · intro i hi
      rw [List.length_append, List.length_singleton] at hi
      rw [get_setAt, hwrite]
      by_cases hlast : i = batch.length
      · subst hlast
        rw [if_pos rfl]
        simp
      · have hne : ¬ (r.writePos + UInt8.ofNat batch.length).toFin = (r.writePos + UInt8.ofNat i).toFin := by
          intro he
          have he := congrArg UInt8.toNat (UInt8.toFin_inj.mp he)
          simp only [UInt8.toNat_add, UInt8.toNat_ofNat'] at he
          omega
        rw [if_neg hne, List.getElem_append_left (by omega)]
        exact hget i (by omega)

theorem processKeyboardBuffer_eq {codes : List UInt8} (hlen : codes.length < 256) {k : Keyboard}
    (hwrite : k.ring.writePos = k.ring.readPos + .ofNat codes.length)
    (hget : ∀ (i : Nat) (h : i < codes.length), k.ring.buffer.get (k.ring.readPos + .ofNat i).toFin = codes[i]) :
    processKeyboardBuffer k = ⟨{ k.ring with readPos := k.ring.writePos }, codes.foldl processScancode k.input⟩ := by
  induction codes generalizing k with
  | nil =>
    have he : k.ring.readPos = k.ring.writePos := by rw [hwrite]; simp
    rw [processKeyboardBuffer, if_neg (not_not.mpr he), ← he]
    rfl
  | cons code codes ih =>
    rw [List.length_cons] at hlen hwrite
    have hne : k.ring.readPos ≠ k.ring.writePos := by
      intro he
      have he := congrArg UInt8.toNat (he.trans hwrite)
      simp only [UInt8.toNat_add, UInt8.toNat_ofNat'] at he
      have := k.ring.readPos.toNat_lt
      omega
    have hcode : k.ring.buffer.get k.ring.readPos.toFin = code := by simpa using hget 0 (Nat.succ_pos _)
    have hnext : ∀ i : Nat, k.ring.readPos + 1 + UInt8.ofNat i = k.ring.readPos + .ofNat (i + 1) := by
      intro i
      rw [UInt8.ofNat_add, UInt8.add_assoc, UInt8.add_comm 1]
      rfl
    rw [processKeyboardBuffer, if_pos hne, hcode, ih (by omega)]
    · rfl
    · show k.ring.writePos = k.ring.readPos + 1 + .ofNat codes.length
      rw [hwrite, hnext]
    · intro i hi
      show k.ring.buffer.get (k.ring.readPos + 1 + .ofNat i).toFin = codes[i]
      rw [hnext]
      exact hget (i + 1) (by simpa using hi)

/-- The batch is processed in the order in which it arrived, and the ring is empty again. -/
theorem poll_eq {k : Keyboard} (batch : List UInt8) (hk : k.ring.readPos = k.ring.writePos) (hlen : batch.length < 256) :
    ∃ ring : ScancodeRing, ring.readPos = ring.writePos ∧
      poll k batch = ((getInputAndReset (batch.foldl processScancode k.input)).1,
        ⟨ring, (getInputAndReset (batch.foldl processScancode k.input)).2⟩) := by
  obtain ⟨hread, hwrite, hget⟩ := foldl_keyboardHandler (r := k.ring) hlen
  have hproc : processKeyboardBuffer { k with ring := batch.foldl keyboardHandler k.ring } = _ :=
    processKeyboardBuffer_eq hlen (by show (batch.foldl keyboardHandler k.ring).writePos = _; rw [hwrite, hread, hk])
      (by rw [hread, hk]; exact hget)
  exact ⟨{ batch.foldl keyboardHandler k.ring with readPos := (batch.foldl keyboardHandler k.ring).writePos }, rfl,
    by rw [poll, hproc]⟩

end Ring

/-! ## The lines -/

theorem inputLines_fit {batches : List (List UInt8)} {k : Keyboard} {text : CString}
    (hk : k.ring.readPos = k.ring.writePos) (h : k.input.Edits k.input.shiftPressed text)
    (hlen : ∀ b ∈ batches, b.length < 256) (harrows : ∀ b ∈ batches, 0x48 ∉ b ∧ 0x50 ∉ b)
    (hcalm : CalmRun k.input.shiftPressed batches) :
    inputLines k batches =
      (batches.flatten.foldl (Typing.scan fit) ⟨k.input.shiftPressed, text, []⟩).lines := by
  induction batches generalizing k text with
  | nil => rfl
  | cons batch batches ih =>
    obtain ⟨hbatch, hrest⟩ := hcalm
    obtain ⟨ring, hring, hpoll⟩ := poll_eq batch hk (hlen batch List.mem_cons_self)
    obtain ⟨hup, hdown⟩ := harrows batch List.mem_cons_self
    have hlen' : ∀ b ∈ batches, b.length < 256 := fun b hb => hlen b (List.mem_cons_of_mem _ hb)
    have harrows' : ∀ b ∈ batches, 0x48 ∉ b ∧ 0x50 ∉ b := fun b hb => harrows b (List.mem_cons_of_mem _ hb)
    rw [inputLines, List.flatten_cons, List.foldl_append]
    generalize ht : batch.foldl (Typing.scan fit) ⟨k.input.shiftPressed, text, []⟩ = t
    have hfold := h.foldl hbatch hup hdown
    have hshift : t.shift = batch.foldl shiftAfter k.input.shiftPressed := by rw [← ht, shift_foldl_scan]
    rw [ht] at hfold
    rw [← hshift] at hrest
    obtain ⟨shift, line, lines⟩ := t
    rcases hfold with ⟨rfl, hedits⟩ | ⟨line', rfl, rfl, hready⟩
    · have hget : getInputAndReset (batch.foldl processScancode k.input) = (none, batch.foldl processScancode k.input) := by
        rw [getInputAndReset, hedits.ready]
        rfl
      rw [hget] at hpoll
      rw [hpoll]
      obtain rfl := hedits.shift
      exact ih hring hedits hlen' harrows' hrest
    · have hget : getInputAndReset (batch.foldl processScancode k.input) =
          (some line', { batch.foldl processScancode k.input with ready := false, pos := 0 }) := by
        rw [getInputAndReset, hready.ready, hready.text]
        rfl
      rw [hget] at hpoll
      rw [hpoll]
      obtain rfl := hready.shift
      rw [scan_lines]
      show [line'] ++ _ = _
      congr 1
      exact ih hring ⟨rfl, rfl, rfl, fun i hi => absurd hi (Nat.not_lt_zero i)⟩ hlen' harrows' hrest

theorem fit_append_fit (line : CString) (c : CChar) : fit (fit line ++ [c]) = fit (line ++ [c]) := by
  unfold fit
  rcases Nat.lt_or_ge line.length (inputBufferSize - 1) with h | h
  · rw [List.take_of_length_le (show line.length ≤ inputBufferSize - 1 by omega)]
  · have hlen : (line.take (inputBufferSize - 1)).length = inputBufferSize - 1 := List.length_take_of_le h
    rw [List.take_append_of_le_length hlen.ge, List.take_append_of_le_length h, List.take_take, min_self]

/-- All lines cut to the room that there is. -/
def Typing.fitted (t : Typing) : Typing := ⟨t.shift, fit t.line, t.lines.map fit⟩

/-- Where no Backspace meets a line that is too long, it is the same to cut the lines when they grow or when they are
finished. -/
theorem typed_fit {codes : List UInt8} (hroom : RoomAtBackspace codes) :
    typed fit codes = (typed id codes).fitted := by
  induction codes using List.reverseRecOn with
  | nil => rfl
  | append_singleton codes code ih =>
    have ih := ih fun pre post he => hroom pre (post ++ [code]) (by rw [he]; simp)
    have hlast : code = 0x0E → (typed id codes).line.length ≤ inputBufferSize - 1 := by
      rintro rfl
      exact hroom codes [] rfl
    unfold typed at *
    rw [List.foldl_append, List.foldl_append, ih, List.foldl_cons, List.foldl_cons, List.foldl_nil, List.foldl_nil]
    generalize codes.foldl (Typing.scan id) ⟨false, [], []⟩ = t at hlast
    cases hk : keyOf t.shift code with
    | none => rw [Typing.scan_none hk, Typing.scan_none (t := t.fitted) hk]; rfl
    | some k =>
      rw [Typing.scan_some hk, Typing.scan_some (t := t.fitted) hk]
      cases k with
      | enter => simp [Typing.key, Typing.fitted, fit]
      | backspace =>
        have hlen := hlast (eq_of_keyOf_backspace hk)
        have hfit : fit t.line = t.line := List.take_of_length_le hlen
        have hdrop : fit t.line.dropLast = t.line.dropLast := by
          apply List.take_of_length_le
          rw [List.length_dropLast]
          omega
        simp only [Typing.key, Typing.fitted, hfit, hdrop]
      | char c => simp only [Typing.key, Typing.fitted, fit_append_fit, id]

/-- The lines that the shell gets are the lines typed, if no key follows Enter in a batch and Enter, Backspace and the space
bar are not pressed with Shift: the characters that no longer fit are ignored, which is to cut the lines at the end unless
Backspace is pressed then. -/
theorem inputLines_eq (batches : List (List UInt8)) (hlen : ∀ b ∈ batches, b.length < 256)
    (harrows : ∀ b ∈ batches, 0x48 ∉ b ∧ 0x50 ∉ b) (hcalm : CalmRun false batches) :
    inputLines keyboard batches = (typed fit batches.flatten).lines ∧
      (RoomAtBackspace batches.flatten → inputLines keyboard batches = (typed id batches.flatten).lines.map fit) := by
  have h : inputLines keyboard batches = (typed fit batches.flatten).lines :=
    inputLines_fit rfl ⟨rfl, rfl, rfl, fun i hi => absurd hi (Nat.not_lt_zero i)⟩ hlen harrows hcalm
  refine ⟨h, fun hroom => ?_⟩
  rw [h, typed_fit hroom]
  rfl

/-- A line in one batch, its Enter in the next, and the beginning of a second line. -/
theorem inputLines_eq_ab :
    ((∀ b ∈ [[0x1E, 0x9E], [0x1C], [0x9C, 0x30]], b.length < 256) ∧
      (∀ b ∈ [[0x1E, 0x9E], [0x1C], [0x9C, 0x30]], (0x48 : UInt8) ∉ b ∧ 0x50 ∉ b) ∧
      CalmRun false [[0x1E, 0x9E], [0x1C], [0x9C, 0x30]]) ∧
    inputLines keyboard [[0x1E, 0x9E], [0x1C], [0x9C, 0x30]] = (typed fit [[0x1E, 0x9E], [0x1C], [0x9C, 0x30]].flatten).lines ∧
      (RoomAtBackspace [[0x1E, 0x9E], [0x1C], [0x9C, 0x30]].flatten →
        inputLines keyboard [[0x1E, 0x9E], [0x1C], [0x9C, 0x30]] =
          (typed id [[0x1E, 0x9E], [0x1C], [0x9C, 0x30]].flatten).lines.map fit) := by
  have hcalm : CalmRun false [[0x1E, 0x9E], [0x1C], [0x9C, 0x30]] := by
    simp only [CalmRun, Calm, Unshifted]
    decide
  exact ⟨⟨by decide, by decide, hcalm⟩, inputLines_eq _ (by decide) (by decide) hcalm⟩

/-- A, Enter and B in one batch, then Enter: the lines typed are `a` and `b`, those that the shell gets `ab` and an empty
one. -/
theorem inputLines_ahead :
    inputLines keyboard [[0x1E, 0x1C, 0x30], [0x1C]] = [CString.ofBytes [97, 98], []] ∧
      (typed id [[0x1E, 0x1C, 0x30], [0x1C]].flatten).lines.map fit = [CString.ofBytes [97], CString.ofBytes [98]] ∧
      inputLines keyboard [[0x1E, 0x1C, 0x30], [0x1C]] ≠
        (typed id [[0x1E, 0x1C, 0x30], [0x1C]].flatten).lines.map fit := by
  have htyped : (typed id [[0x1E, 0x1C, 0x30], [0x1C]].flatten).lines.map fit =
      [CString.ofBytes [97], CString.ofBytes [98]] := by decide
  have hlines : inputLines keyboard [[0x1E, 0x1C, 0x30], [0x1C]] = [CString.ofBytes [97, 98], []] := by
    obtain ⟨r₁, hr₁, h₁⟩ := poll_eq (k := keyboard) [0x1E, 0x1C, 0x30] rfl (by decide)
    obtain ⟨r₂, -, h₂⟩ := poll_eq (k := (poll keyboard [0x1E, 0x1C, 0x30]).2) [0x1C] (by rw [h₁]; exact hr₁)
      (by decide)
    rw [inputLines, inputLines, inputLines, h₂, h₁]
    have hfirst : (getInputAndReset ([0x1E, 0x1C, 0x30].foldl processScancode keyboard.input)).1 =
        some (CString.ofBytes [97, 98]) := by decide
    have hsecond : (getInputAndReset
        ([0x1C].foldl processScancode (getInputAndReset ([0x1E, 0x1C, 0x30].foldl processScancode keyboard.input)).2)).1 =
        some [] := by decide
    simp only [hfirst, hsecond, Option.toList_some, List.append_nil, List.singleton_append]
  refine ⟨hlines, htyped, ?_⟩
  rw [hlines, htyped]
  decide

end AmqOs.Shell
