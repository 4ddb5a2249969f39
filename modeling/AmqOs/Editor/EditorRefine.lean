import AmqOs.Editor.EditorLines
import AmqOs.Lib.Run

/-!
# Both editors and the document

From a buffer within its bounds, no sequence of keys leaves the bounds, and every key does to the document what is
prescribed except a Backspace that would join two lines to one of the greatest length, which both editors refuse
(`editors_refine`). The same refusal is the only case in which Backspace does not take an Enter back
(`backspace_undoes_enter_iff`).
-/

set_option autoImplicit false

namespace AmqOs.Editor

open AmqOs.Lib

/-! ## Keys as steps -/

/-- A step that may fault. -/
def stepOf {σ ι : Type} (f : σ → ι → Option σ) (s : σ) (i : ι) : Except Fault (Unit × σ) :=
  match f s i with
  | some s' => .ok ((), s')
  | none => .error .outOfBounds

theorem stepOf_eq {σ ι : Type} {f : σ → ι → Option σ} {s s' : σ} {i : ι} (h : f s i = some s') :
    stepOf f s i = .ok ((), s') := by
  rw [stepOf, h]

/-- A key of `text_editor.c`. -/
def textEditorStep : TextEditor → Key → Except Fault (Unit × TextEditor) := stepOf textEditorKey

/-- A scancode for `editor_handle_key`, with the state of the Shift key. -/
def editorStep : EditorState → UInt8 × Bool → Except Fault (Unit × EditorState) :=
  stepOf fun ed i => editorHandleKey ed i.1 i.2

/-- The key that a scancode of `editor_handle_key` stands for. -/
def keyOf (scancode : UInt8) (shiftHeld : Bool) : Option Key :=
  if scancode = 0x48 then some .up
  else if scancode = 0x50 then some .down
  else if scancode = 0x4B then some .left
  else if scancode = 0x4D then some .right
  else if scancode = 0x0E then some .backspace
  else if scancode = 0x1C then some .enter
  else (keyChar scancode shiftHeld).bind fun ch => if h : ch ≠ 0 then some (.char ⟨ch, h⟩) else none

def TextEditor.doc (e : TextEditor) : Doc :=
  docOf e.buffer.lines e.buffer.lineCount e.buffer.cursorLine e.buffer.cursorCol

def TextEditor.Valid (e : TextEditor) : Prop :=
  Editor.Valid e.buffer.lines e.buffer.lineCount e.buffer.cursorLine e.buffer.cursorCol

def EditorState.doc (ed : EditorState) : Doc := docOf ed.lines ed.lineCount ed.cursorLine ed.cursorCol

def EditorState.Valid (ed : EditorState) : Prop := Editor.Valid ed.lines ed.lineCount ed.cursorLine ed.cursorCol

theorem TextEditor.Valid.shows {e : TextEditor} (h : e.Valid) : e.Shows e.doc := Valid.represents (by norm_num) h

theorem EditorState.Valid.shows {ed : EditorState} (h : ed.Valid) : ed.Shows ed.doc :=
  Valid.represents (by norm_num) h

/-! ## What a key does in both editors -/

namespace Doc

variable {maxLines maxLen : Nat} {d d' : Doc} {k : Key}

/-- The document after a key of the editors: prescribed, but for Backspace. -/
structure KeyStep (maxLines maxLen : Nat) (d : Doc) (k : Key) (d' : Doc) : Prop where
  arrow : k.IsArrow → d'.lines = d.lines
  backspace : k = .backspace → d' = d.backspaceShort maxLen
  other : ¬ k.IsArrow → k ≠ .backspace → d' = d.edit maxLines maxLen k

theorem KeyStep.of_arrow (hk : k.IsArrow) (h : d'.lines = d.lines) : KeyStep maxLines maxLen d k d' where
  arrow := fun _ => h
  backspace := by
    rintro rfl
    exact hk.elim
  other := fun hn => absurd hk hn

theorem KeyStep.of_other (ha : ¬ k.IsArrow) (hb : k ≠ .backspace) (h : d' = d.edit maxLines maxLen k) :
    KeyStep maxLines maxLen d k d' :=
  ⟨fun hk => absurd hk ha, fun hk => absurd hk hb, fun _ _ => h⟩

theorem KeyStep.of_backspace (h : d' = d.backspaceShort maxLen) : KeyStep maxLines maxLen d .backspace d' :=
  ⟨fun hk => hk.elim, fun _ => h, fun _ hk => absurd rfl hk⟩

/-- A key does what is prescribed unless it is a refused Backspace. -/
theorem KeyStep.prescribed_iff (h : KeyStep maxLines maxLen d k d') (hd : d.InBounds maxLines maxLen) :
    d.Prescribed maxLines maxLen k d' ↔ ¬ d.FullJoin maxLen k := by
  by_cases hk : k = .backspace
  · subst hk
    rw [← backspaceShort_eq_iff hd, ← h.backspace rfl]
    exact ⟨fun hp => hp.2 id, fun he => ⟨fun ha => ha.elim, fun _ => he⟩⟩
  · exact iff_of_true ⟨h.arrow, fun ha => h.other ha hk⟩ fun hf => hk hf.1

end Doc

theorem textEditorKey_spec {e : TextEditor} {d : Doc} (h : e.Shows d) (k : Key) : ∃ e' d', textEditorKey e k = some e' ∧
    e'.Shows d' ∧ Doc.KeyStep editorMaxLines (editorMaxLineLength - 1) d k d' ∧ e'.height = e.height := by
  cases k with
  | char c =>
    obtain ⟨e', he', h', hh, _⟩ := textEditorInsertChar_spec h c
    exact ⟨e', _, he', h', .of_other id (by simp) rfl, hh⟩
  | enter =>
    obtain ⟨e', he', h', hh, _⟩ := textEditorNewline_spec h
    exact ⟨e', _, he', h', .of_other id (by simp) rfl, hh⟩
  | backspace =>
    obtain ⟨e', he', h', hh, _⟩ := textEditorBackspace_spec h
    exact ⟨e', _, he', h', .of_backspace rfl, hh⟩
  | up =>
    obtain ⟨e', d', he', h', hl, hh, _⟩ := textEditorMoveCursor_spec h 0 (-1)
    exact ⟨e', d', he', h', .of_arrow trivial hl, hh⟩
  | down =>
    obtain ⟨e', d', he', h', hl, hh, _⟩ := textEditorMoveCursor_spec h 0 1
    exact ⟨e', d', he', h', .of_arrow trivial hl, hh⟩
  | left =>
    obtain ⟨e', d', he', h', hl, hh, _⟩ := textEditorMoveCursor_spec h (-1) 0
    exact ⟨e', d', he', h', .of_arrow trivial hl, hh⟩
  | right =>
    obtain ⟨e', d', he', h', hl, hh, _⟩ := textEditorMoveCursor_spec h 1 0
    exact ⟨e', d', he', h', .of_arrow trivial hl, hh⟩

/-- What a scancode does: nothing, or what its key does. -/
def Doc.CodeStep (d : Doc) (key : Option Key) (d' : Doc) : Prop :=
  match key with
  | none => d' = d
  | some k => d.KeyStep maxLines (maxLineLength - 1) k d'

theorem editorHandleKey_spec {ed : EditorState} {d : Doc} (h : ed.Shows d) (scancode : UInt8) (shiftHeld : Bool) :
    ed.Does (editorHandleKey ed scancode shiftHeld) (d.CodeStep (keyOf scancode shiftHeld)) := by
  have himp : ∀ {op : Option EditorState} {P Q : Doc → Prop}, ed.Does op P → (∀ d', P d' → Q d') → ed.Does op Q := by
    rintro op P Q ⟨ed', d', hop, hs, hP, hv⟩ hPQ
    exact ⟨ed', d', hop, hs, hPQ d' hP, hv⟩
  unfold editorHandleKey keyOf
  by_cases h1 : scancode = 0x48
  · simp only [h1, if_true]
    exact himp (editorUp_spec h) fun d' hd => .of_arrow trivial hd
  simp only [h1, if_false]
  by_cases h2 : scancode = 0x50
  · simp only [h2, if_true]
    exact himp (editorDown_spec h) fun d' hd => .of_arrow trivial hd
  simp only [h2, if_false]
  by_cases h3 : scancode = 0x4B
  · simp only [h3, if_true]
    exact himp (editorLeft_spec h) fun d' hd => .of_arrow trivial hd
  simp only [h3, if_false]
  by_cases h4 : scancode = 0x4D
  · simp only [h4, if_true]
    exact himp (editorRight_spec h) fun d' hd => .of_arrow trivial hd
  simp only [h4, if_false]
  by_cases h5 : scancode = 0x0E
  · simp only [h5, if_true]
    exact himp (editorBackspace_spec h) fun d' hd => .of_backspace hd
  simp only [h5, if_false]
  by_cases h6 : scancode = 0x1C
  · simp only [h6, if_true]
    exact himp (editorEnter_spec h) fun d' hd => .of_other id (by simp) hd
  simp only [h6, if_false]
  cases keyChar scancode shiftHeld with
  | none => exact ⟨ed, d, rfl, h, rfl, id⟩
  | some ch =>
    by_cases hch : ch = 0
    · simp only [hch, Option.bind_some, ne_eq, not_true_eq_false, if_false, dite_false]
      exact ⟨ed, d, rfl, h, rfl, id⟩
    · simp only [Option.bind_some, ne_eq, hch, not_false_eq_true, if_true, dite_true]
      exact himp (editorInsert_spec h ⟨ch, hch⟩) fun d' hd => .of_other id (by simp) hd

/-! ## Runs -/

/-- The key does to the document what is prescribed. -/
def TextEditor.Implements (e : TextEditor) (k : Key) : Prop :=
  ∀ r e', textEditorStep e k = .ok (r, e') → e.doc.Prescribed editorMaxLines (editorMaxLineLength - 1) k e'.doc

/-- The scancode does to the document what is prescribed for its key; if it is none, nothing. -/
def EditorState.Implements (ed : EditorState) (i : UInt8 × Bool) : Prop :=
  ∀ r ed', editorStep ed i = .ok (r, ed') →
    match keyOf i.1 i.2 with
    | none => ed'.doc = ed.doc
    | some k => ed.doc.Prescribed maxLines (maxLineLength - 1) k ed'.doc

theorem textEditorStep_spec {e : TextEditor} (h : e.Valid) (k : Key) : ∃ e', textEditorStep e k = .ok ((), e') ∧ e'.Valid ∧
    Doc.KeyStep editorMaxLines (editorMaxLineLength - 1) e.doc k e'.doc := by
  obtain ⟨e', d', he', h', hstep, _⟩ := textEditorKey_spec h.shows k
  refine ⟨e', stepOf_eq he', h'.valid, ?_⟩
  rwa [TextEditor.doc, TextEditor.doc, h'.docOf_eq]

theorem TextEditor.Valid.afterKey {e e' : TextEditor} (h : e.Valid) {k : Key} {r : Unit} (hr : textEditorStep e k = .ok (r, e')) :
    e'.Valid := by
  obtain ⟨e'', he'', hv, _⟩ := textEditorStep_spec h k
  cases he''.symm.trans hr
  exact hv

theorem TextEditor.Valid.afterKeys {e : TextEditor} (h : e.Valid) (ks : List Key) :
    ∃ out e', runFrom textEditorStep e ks = .ok (out, e') ∧ e'.Valid := by
  apply runFrom_inv TextEditor.Valid _ h (along_of_forall _ (fun _ _ => trivial) e ks)
  intro e k h _
  obtain ⟨e', he', hv, _⟩ := textEditorStep_spec h k
  exact ⟨(), e', he', hv⟩

theorem TextEditor.Valid.implements_iff {e : TextEditor} (h : e.Valid) (k : Key) :
    e.Implements k ↔ ¬ e.doc.FullJoin (editorMaxLineLength - 1) k := by
  obtain ⟨e', he', _, hstep⟩ := textEditorStep_spec h k
  rw [← hstep.prescribed_iff h.2]
  constructor
  · exact fun himp => himp () e' he'
  · intro hp r e'' he''
    cases he'.symm.trans he''
    exact hp

theorem editorStep_spec {ed : EditorState} (h : ed.Valid) (i : UInt8 × Bool) : ∃ ed', editorStep ed i = .ok ((), ed') ∧
    ed'.Valid ∧ ed.doc.CodeStep (keyOf i.1 i.2) ed'.doc ∧ (ed.Visible → ed'.Visible) := by
  obtain ⟨ed', d', hed', h', hstep, hv⟩ := editorHandleKey_spec h.shows i.1 i.2
  refine ⟨ed', stepOf_eq (f := fun ed (i : UInt8 × Bool) => editorHandleKey ed i.1 i.2) hed', h'.valid, ?_, hv⟩
  have hdoc : ed'.doc = d' := h'.docOf_eq
  rwa [hdoc]

theorem EditorState.Valid.implements_iff {ed : EditorState} (h : ed.Valid) (i : UInt8 × Bool) :
    ed.Implements i ↔ ∀ k, keyOf i.1 i.2 = some k → ¬ ed.doc.FullJoin (maxLineLength - 1) k := by
  obtain ⟨ed', hed', _, hstep, _⟩ := editorStep_spec h i
  have hthis : ed.Implements i ↔
      match keyOf i.1 i.2 with
      | none => ed'.doc = ed.doc
      | some k => ed.doc.Prescribed maxLines (maxLineLength - 1) k ed'.doc := by
    constructor
    · exact fun himp => himp () ed' hed'
    · intro hp r ed'' hed''
      cases hed'.symm.trans hed''
      exact hp
  rw [hthis]
  cases hk : keyOf i.1 i.2 with
  | none =>
    rw [hk] at hstep
    exact iff_of_true hstep fun k hk => nomatch hk
  | some k =>
    rw [hk] at hstep
    have hiff : ed.doc.Prescribed maxLines (maxLineLength - 1) k ed'.doc ↔ _ := Doc.KeyStep.prescribed_iff hstep h.2
    simpa using hiff

/-- **Both editors implement the document**: no sequence of keys leaves the bounds, and every key of it does what is
prescribed exactly when no Backspace would join two lines to one of the greatest length. -/
theorem editors_refine (e : TextEditor) (ks : List Key) (ed : EditorState) (is : List (UInt8 × Bool)) :
    (e.Valid →
      (∃ out e', runFrom textEditorStep e ks = .ok (out, e') ∧ e'.Valid) ∧
      (Along textEditorStep (fun e k => e.Implements k) e ks ↔
        Along textEditorStep (fun e k => ¬ e.doc.FullJoin (editorMaxLineLength - 1) k) e ks)) ∧
    (ed.Valid →
      (∃ out ed', runFrom editorStep ed is = .ok (out, ed') ∧ ed'.Valid) ∧
      (Along editorStep (fun ed i => ed.Implements i) ed is ↔
        Along editorStep (fun ed i => ∀ k, keyOf i.1 i.2 = some k → ¬ ed.doc.FullJoin (maxLineLength - 1) k) ed is)) := by
  refine ⟨fun he => ⟨?_, ?_⟩, fun hed => ⟨?_, ?_⟩⟩
  · exact he.afterKeys ks
  · apply along_congr TextEditor.Valid _ (fun e k he => he.implements_iff k) he
    intro e k r e' he hr
    exact he.afterKey hr
  · apply runFrom_inv EditorState.Valid _ hed (along_of_forall _ (fun _ _ => trivial) ed is)
    intro ed i hed _
    obtain ⟨ed', hed', hv, _⟩ := editorStep_spec hed i
    exact ⟨(), ed', hed', hv⟩
  · apply along_congr EditorState.Valid _ (fun ed i hed => hed.implements_iff i) hed
    intro ed i r ed' hed hr
    obtain ⟨ed'', hed'', hv, _⟩ := editorStep_spec hed i
    cases hed''.symm.trans hr
    exact hv

/-! ### A line of the greatest length, and an empty one below it -/

/-- A buffer of `text_editor.c` that holds the document. -/
def TextEditor.ofDoc (height scrollOffset : Int) (d : Doc) : TextEditor :=
  ⟨height, rowsOf _ _ d.lines, d.lines.length, d.row, d.col, scrollOffset, [], false⟩

/-- A buffer of `Anthropic.c` that holds the document. -/
def EditorState.ofDoc (visibleLines scrollOffset : Int) (d : Doc) : EditorState :=
  ⟨rowsOf _ _ d.lines, d.lines.length, d.row, d.col, scrollOffset, false, [], visibleLines, false⟩

theorem TextEditor.shows_ofDoc {height scrollOffset : Int} {d : Doc}
    (h : d.InBounds editorMaxLines (editorMaxLineLength - 1)) : (TextEditor.ofDoc height scrollOffset d).Shows d :=
  ⟨shows_rowsOf h.lines_le fun s hs => Nat.lt_succ_of_le (h.line_le s hs), rfl, rfl, rfl, h⟩

theorem EditorState.shows_ofDoc {visibleLines scrollOffset : Int} {d : Doc}
    (h : d.InBounds maxLines (maxLineLength - 1)) : (EditorState.ofDoc visibleLines scrollOffset d).Shows d :=
  ⟨shows_rowsOf h.lines_le fun s hs => Nat.lt_succ_of_le (h.line_le s hs), rfl, rfl, rfl, h⟩

theorem letter_ne_zero : (97 : UInt8) ≠ 0 := by decide

/-- `maxLen` letters, and the cursor in an empty second line. -/
def fullDoc (maxLen : Nat) : Doc := ⟨[List.replicate maxLen ⟨97, letter_ne_zero⟩, []], 1, 0⟩

theorem fullDoc_inBounds {maxLines maxLen : Nat} (h : 2 ≤ maxLines) : (fullDoc maxLen).InBounds maxLines maxLen where
  lines_le := h
  row_lt := Nat.lt_succ_self 1
  col_le := Nat.zero_le _
  line_le := by simp [fullDoc]

theorem fullDoc_fullJoin (maxLen : Nat) : (fullDoc maxLen).FullJoin maxLen .backspace :=
  ⟨rfl, rfl, Nat.one_pos, by simp [fullDoc, Doc.above, Doc.line]⟩

/-- The window of the editor of `text_editor.c` is 500 pixels high, and 25 lines are shown. -/
def fullEditor : TextEditor := .ofDoc 500 0 (fullDoc (editorMaxLineLength - 1))

def fullState : EditorState := .ofDoc 89 0 (fullDoc (maxLineLength - 1))

theorem fullEditor_shows : fullEditor.Shows (fullDoc (editorMaxLineLength - 1)) :=
  TextEditor.shows_ofDoc (fullDoc_inBounds (by norm_num))

theorem fullState_shows : fullState.Shows (fullDoc (maxLineLength - 1)) :=
  EditorState.shows_ofDoc (fullDoc_inBounds (by norm_num))

theorem editors_refine_full :
    ((∃ out e', runFrom textEditorStep fullEditor [.char ⟨98, by decide⟩, .up] = .ok (out, e') ∧ e'.Valid) ∧
      (Along textEditorStep (fun e k => e.Implements k) fullEditor [.char ⟨98, by decide⟩, .up] ↔
        Along textEditorStep (fun e k => ¬ e.doc.FullJoin (editorMaxLineLength - 1) k) fullEditor
          [.char ⟨98, by decide⟩, .up])) ∧
    (∃ out ed', runFrom editorStep fullState [(0x1E, true)] = .ok (out, ed') ∧ ed'.Valid) ∧
      (Along editorStep (fun ed i => ed.Implements i) fullState [(0x1E, true)] ↔
        Along editorStep (fun ed i => ∀ k, keyOf i.1 i.2 = some k → ¬ ed.doc.FullJoin (maxLineLength - 1) k) fullState
          [(0x1E, true)]) := by
  have h := editors_refine fullEditor [.char ⟨98, by decide⟩, .up] fullState [(0x1E, true)]
  exact ⟨h.1 fullEditor_shows.valid, h.2 fullState_shows.valid⟩

/-- The two lines are together as long as a line may be, but Backspace does not join them. -/
theorem fullJoin_refused : (fullEditor.Valid ∧ ¬ fullEditor.Implements .backspace) ∧
    fullState.Valid ∧ ¬ fullState.Implements (0x0E, false) := by
  refine ⟨⟨fullEditor_shows.valid, ?_⟩, fullState_shows.valid, ?_⟩
  · rw [TextEditor.Valid.implements_iff fullEditor_shows.valid, TextEditor.doc, fullEditor_shows.docOf_eq]
    exact not_not_intro (fullDoc_fullJoin _)
  · rw [EditorState.Valid.implements_iff fullState_shows.valid, EditorState.doc, fullState_shows.docOf_eq]
    exact fun h => h .backspace rfl (fullDoc_fullJoin _)

/-! ## Enter and Backspace -/

/-- Backspace after Enter: the join is refused when the line has the greatest length. -/
theorem Doc.backspaceShort_split {maxLines maxLen : Nat} {d : Doc} (h : d.InBounds maxLines maxLen) :
    d.split.backspaceShort maxLen = if d.line.length < maxLen then d else d.split := by
  have hlen : d.split.above.length + d.split.line.length = d.line.length := by
    rw [Doc.above_split h, Doc.line_split h, ← List.length_append, List.take_append_drop]
  have hcol : ¬ 0 < d.split.col := lt_irrefl 0
  have hrow : 0 < d.split.row := Nat.succ_pos d.row
  simp only [Doc.backspaceShort, hcol, hrow, hlen, if_false, true_and, Doc.join_split h]

theorem Doc.split_ne {maxLines maxLen : Nat} {d : Doc} (h : d.InBounds maxLines maxLen) : d.split ≠ d := by
  intro hd
  have hlen := length_split h
  rw [hd] at hlen
  omega

theorem Doc.backspaceShort_split_eq_iff {maxLines maxLen : Nat} {d : Doc} (h : d.InBounds maxLines maxLen) :
    d.split.backspaceShort maxLen = d ↔ d.line.length < maxLen := by
  rw [backspaceShort_split h]
  split
  · rename_i hlt
    exact iff_of_true rfl hlt
  · rename_i hlt
    exact iff_of_false (split_ne h) hlt

/-- The two keys restore the lines, their number and the cursor. -/
def TextEditor.Undoes (e : TextEditor) : Prop :=
  ∃ e', (textEditorNewline e).bind textEditorBackspace = some e' ∧ e'.doc = e.doc ∧
    e'.buffer.lineCount = e.buffer.lineCount

/-- The two scancodes restore the lines, their number and the cursor. -/
def EditorState.Undoes (ed : EditorState) (shiftEnter shiftBackspace : Bool) : Prop :=
  ∃ ed', ((editorHandleKey ed 0x1C shiftEnter).bind fun ed₁ => editorHandleKey ed₁ 0x0E shiftBackspace) = some ed' ∧
    ed'.doc = ed.doc ∧ ed'.lineCount = ed.lineCount

theorem TextEditor.undoes_iff {e : TextEditor} (he : e.Valid) (hn : e.buffer.lineCount < editorMaxLines) :
    e.Undoes ↔ e.doc.line.length < editorMaxLineLength - 1 := by
  obtain ⟨e₁, he₁, h₁, _⟩ := textEditorNewline_spec he.shows
  rw [Doc.edit_enter, if_pos (he.shows.count_eq ▸ hn)] at h₁
  obtain ⟨e₂, he₂, h₂, _⟩ := textEditorBackspace_spec h₁
  have hdoc : e₂.doc = e.doc.split.backspaceShort (editorMaxLineLength - 1) := h₂.docOf_eq
  rw [← Doc.backspaceShort_split_eq_iff (d := e.doc) he.2, Undoes, he₁, Option.bind_some, he₂]
  constructor
  · rintro ⟨e', he', hd, _⟩
    obtain rfl := Option.some.inj he'
    exact hdoc.symm.trans hd
  · intro hd
    refine ⟨e₂, rfl, hdoc.trans hd, ?_⟩
    rw [h₂.count_eq, he.shows.count_eq]
    exact congrArg (fun d : Doc => d.lines.length) hd

theorem EditorState.undoes_iff {ed : EditorState} (hed : ed.Valid) (hn : ed.lineCount < maxLines)
    (shiftEnter shiftBackspace : Bool) :
    ed.Undoes shiftEnter shiftBackspace ↔ ed.doc.line.length < maxLineLength - 1 := by
  obtain ⟨ed₁, _, hed₁, h₁, rfl, _⟩ := editorEnter_spec hed.shows
  rw [Doc.edit_enter, if_pos (hed.shows.count_eq ▸ hn)] at h₁
  obtain ⟨ed₂, _, hed₂, h₂, rfl, _⟩ := editorBackspace_spec h₁
  have hdoc : ed₂.doc = ed.doc.split.backspaceShort (maxLineLength - 1) := h₂.docOf_eq
  have henter : editorHandleKey ed 0x1C shiftEnter = some ed₁ := hed₁
  have hback : editorHandleKey ed₁ 0x0E shiftBackspace = some ed₂ := hed₂
  rw [← Doc.backspaceShort_split_eq_iff (d := ed.doc) hed.2, Undoes, henter, Option.bind_some, hback]
  constructor
  · rintro ⟨ed', hed', hd, _⟩
    obtain rfl := Option.some.inj hed'
    exact hdoc.symm.trans hd
  · intro hd
    refine ⟨ed₂, rfl, hdoc.trans hd, ?_⟩
    rw [h₂.count_eq, hed.shows.count_eq]
    exact congrArg (fun d : Doc => d.lines.length) hd

/-- **Enter, then Backspace**: the lines, their number and the cursor are restored exactly when the line of the cursor is
shorter than a line may be. -/
theorem backspace_undoes_enter_iff (e : TextEditor) (ed : EditorState) (shiftEnter shiftBackspace : Bool) :
    (e.Valid → e.buffer.lineCount < editorMaxLines → (e.Undoes ↔ e.doc.line.length < editorMaxLineLength - 1)) ∧
    (ed.Valid → ed.lineCount < maxLines →
      (ed.Undoes shiftEnter shiftBackspace ↔ ed.doc.line.length < maxLineLength - 1)) :=
  ⟨fun he hn => TextEditor.undoes_iff he hn, fun hed hn => EditorState.undoes_iff hed hn shiftEnter shiftBackspace⟩

/-- One line of letters, with the cursor at its start. -/
def lineDoc (len : Nat) : Doc := ⟨[List.replicate len ⟨97, letter_ne_zero⟩], 0, 0⟩

theorem length_lineDoc (len : Nat) : (lineDoc len).line.length = len := by
  simp [lineDoc, Doc.line]

theorem lineDoc_inBounds {maxLines maxLen len : Nat} (h : 1 ≤ maxLines) (hlen : len ≤ maxLen) :
    (lineDoc len).InBounds maxLines maxLen where
  lines_le := h
  row_lt := Nat.one_pos
  col_le := Nat.zero_le _
  line_le := by simpa [lineDoc] using hlen

def lineEditor (len : Nat) : TextEditor := .ofDoc 500 0 (lineDoc len)

def lineState (len : Nat) : EditorState := .ofDoc 89 0 (lineDoc len)

theorem lineEditor_shows {len : Nat} (h : len ≤ editorMaxLineLength - 1) : (lineEditor len).Shows (lineDoc len) :=
  TextEditor.shows_ofDoc (lineDoc_inBounds (by norm_num) h)

theorem lineState_shows {len : Nat} (h : len ≤ maxLineLength - 1) : (lineState len).Shows (lineDoc len) :=
  EditorState.shows_ofDoc (lineDoc_inBounds (by norm_num) h)

theorem backspace_undoes_enter_iff_line :
    ((lineEditor 3).Undoes ↔ (lineEditor 3).doc.line.length < 255) ∧
    ((lineState 3).Undoes false false ↔ (lineState 3).doc.line.length < 79) := by
  have h := backspace_undoes_enter_iff (lineEditor 3) (lineState 3) false false
  exact ⟨h.1 (lineEditor_shows (by norm_num)).valid (show 1 < 1000 by norm_num),
    h.2 (lineState_shows (by norm_num)).valid (show 1 < 250 by norm_num)⟩

/-- Enter at the start of a line of the greatest length cannot be taken back. -/
theorem enter_not_undone : ((lineEditor 255).Valid ∧ ¬ (lineEditor 255).Undoes) ∧
    (lineState 79).Valid ∧ ¬ (lineState 79).Undoes false false := by
  have he := @lineEditor_shows 255 (by norm_num)
  have hed := @lineState_shows 79 (by norm_num)
  refine ⟨⟨he.valid, ?_⟩, hed.valid, ?_⟩
  · rw [TextEditor.undoes_iff he.valid (show 1 < 1000 by norm_num), TextEditor.doc, he.docOf_eq]
    exact not_lt.mpr (le_of_eq (length_lineDoc _).symm)
  · rw [EditorState.undoes_iff hed.valid (show 1 < 250 by norm_num), EditorState.doc, hed.docOf_eq]
    exact not_lt.mpr (le_of_eq (length_lineDoc _).symm)

end AmqOs.Editor
