import AmqOs.Editor.EditorRefine

/-!
# The cursor stays visible

Every key of the editor of `Anthropic.c` keeps the cursor's line among those shown. In `text_editor.c`, Backspace moves the
cursor to the line above when it joins two lines, and does not scroll: the cursor is lost when its line was the first one
shown (`cursor_visible_iff`).
-/

set_option autoImplicit false

namespace AmqOs.Editor

open AmqOs.Lib

/-- Backspace joins the line with the one above. -/
def Doc.Joins (maxLen : Nat) (d : Doc) : Prop :=
  d.col = 0 ∧ 0 < d.row ∧ d.above.length + d.line.length < maxLen

/-- The key joins the first line that is shown with the one above. -/
def TextEditor.JoinsAtTop (e : TextEditor) (k : Key) : Prop :=
  k = .backspace ∧ e.doc.Joins (editorMaxLineLength - 1) ∧ e.buffer.scrollOffset = e.buffer.cursorLine

theorem Doc.row_backspaceShort_of_joins {maxLen : Nat} {d : Doc} (h : d.Joins maxLen) :
    (d.backspaceShort maxLen).row = d.row - 1 := by
  have hcol : ¬ 0 < d.col := by have := h.1; omega
  rw [backspaceShort, if_neg hcol, if_pos h.2]
  rfl

theorem Doc.row_backspaceShort_of_not {maxLen : Nat} {d : Doc} (h : ¬ d.Joins maxLen) :
    (d.backspaceShort maxLen).row = d.row := by
  unfold backspaceShort
  split
  · rfl
  · rename_i hcol
    rw [if_neg fun hj => h ⟨by omega, hj⟩]

section Steps

variable {e : TextEditor}

/-- A key that leaves the cursor's line and the scroll offset alone. -/
theorem TextEditor.Visible.congr {e' : TextEditor} (h : e.Visible) (hrow : e'.buffer.cursorLine = e.buffer.cursorLine)
    (hheight : e'.height = e.height) (hscroll : e'.buffer.scrollOffset = e.buffer.scrollOffset) : e'.Visible := by
  unfold TextEditor.Visible TextEditor.visibleLines at *
  rwa [hrow, hheight, hscroll]

theorem textEditorNewline_visible (h : e.Valid) (hv : e.Visible) : ∃ e', textEditorNewline e = some e' ∧ e'.Visible := by
  obtain ⟨e', he', h', hheight, hscroll⟩ := textEditorNewline_spec h.shows
  refine ⟨e', he', ?_⟩
  have hrow := h'.row_eq
  rw [Doc.edit_enter] at hrow
  by_cases hn : e.doc.lines.length < editorMaxLines
  · rw [if_pos hn] at hrow hscroll
    have hdown := scrollDown_visible hv
    unfold TextEditor.Visible TextEditor.visibleLines at *
    rw [hrow, hscroll, hheight]
    exact hdown
  · rw [if_neg hn] at hrow hscroll
    exact hv.congr hrow hheight hscroll

theorem textEditorBackspace_visible_iff (h : e.Valid) (hv : e.Visible) : ∃ e', textEditorBackspace e = some e' ∧
    (e'.Visible ↔ ¬ e.JoinsAtTop .backspace) := by
  obtain ⟨e', he', h', hheight, hscroll⟩ := textEditorBackspace_spec h.shows
  refine ⟨e', he', ?_⟩
  have hrow := h'.row_eq
  by_cases hj : e.doc.Joins (editorMaxLineLength - 1)
  · have hpos : 0 < e.buffer.cursorLine := hj.2.1
    have hrow' : e'.buffer.cursorLine = e.buffer.cursorLine - 1 := hrow.trans (Doc.row_backspaceShort_of_joins hj)
    have htop : e.JoinsAtTop .backspace ↔ e.buffer.scrollOffset = e.buffer.cursorLine :=
      ⟨fun ht => ht.2.2, fun ht => ⟨rfl, hj, ht⟩⟩
    rw [htop]
    unfold TextEditor.Visible TextEditor.visibleLines at *
    rw [hrow', hscroll, hheight]
    omega
  · have hrow' : e'.buffer.cursorLine = e.buffer.cursorLine := hrow.trans (Doc.row_backspaceShort_of_not hj)
    exact iff_of_true (hv.congr hrow' hheight hscroll) fun ht => hj ht.2.1

/-- The cursor is visible after the key. -/
def TextEditor.StaysVisible (e : TextEditor) (k : Key) : Prop :=
  ∀ r e', textEditorStep e k = .ok (r, e') → e'.Visible

theorem textEditorKey_visible_iff (h : e.Valid) (hv : e.Visible) (k : Key) : ∃ e', textEditorKey e k = some e' ∧
    (e'.Visible ↔ ¬ e.JoinsAtTop k) := by
  have hmove : ∀ dx dy, k ≠ .backspace → ∃ e', textEditorMoveCursor e dx dy = some e' ∧
      (e'.Visible ↔ ¬ e.JoinsAtTop k) := by
    intro dx dy hk
    obtain ⟨e', d', he', _, _, _, hvis⟩ := textEditorMoveCursor_spec h.shows dx dy
    exact ⟨e', he', iff_of_true (hvis hv) fun ht => hk ht.1⟩
  cases k with
  | char c =>
    obtain ⟨e', he', h', hheight, hscroll⟩ := textEditorInsertChar_spec h.shows c
    refine ⟨e', he', iff_of_true (hv.congr ?_ hheight hscroll) fun ht => nomatch ht.1⟩
    have hrow := h'.row_eq
    rw [Doc.edit_char] at hrow
    split at hrow <;> exact hrow
  | enter =>
    obtain ⟨e', he', hvis⟩ := textEditorNewline_visible h hv
    exact ⟨e', he', iff_of_true hvis fun ht => nomatch ht.1⟩
  | backspace => exact textEditorBackspace_visible_iff h hv
  | up => exact hmove 0 (-1) (by simp)
  | down => exact hmove 0 1 (by simp)
  | left => exact hmove (-1) 0 (by simp)
  | right => exact hmove 1 0 (by simp)

theorem TextEditor.Valid.staysVisible_iff (h : e.Valid) (hv : e.Visible) (k : Key) :
    e.StaysVisible k ↔ ¬ e.JoinsAtTop k := by
  obtain ⟨e', he', hiff⟩ := textEditorKey_visible_iff h hv k
  rw [← hiff]
  constructor
  · exact fun hs => hs () e' (stepOf_eq he')
  · intro hvis r e'' he''
    cases (stepOf_eq (f := textEditorKey) he').symm.trans he''
    exact hvis

end Steps

/-- **The cursor is always visible**: in `text_editor.c` after every key of a sequence exactly when no Backspace of it joins
the first line shown with the one above; in `Anthropic.c` after every sequence of keys. -/
theorem cursor_visible_iff (e : TextEditor) (ks : List Key) (ed : EditorState) (is : List (UInt8 × Bool)) :
    (e.Valid → e.Visible →
      (∃ out e', runFrom textEditorStep e ks = .ok (out, e')) ∧
      (Along textEditorStep (fun e k => e.StaysVisible k) e ks ↔
        Along textEditorStep (fun e k => ¬ e.JoinsAtTop k) e ks)) ∧
    (ed.Valid → ed.Visible →
      ∃ out ed', runFrom editorStep ed is = .ok (out, ed') ∧ ed'.Visible) := by
  refine ⟨fun he hv => ⟨?_, ?_⟩, fun hed hv => ?_⟩
  · obtain ⟨out, e', hrun, _⟩ := he.afterKeys ks
    exact ⟨out, e', hrun⟩
  · apply along_congr_of (fun e => e.Valid ∧ e.Visible) _ (fun e k h => h.1.staysVisible_iff h.2 k) ⟨he, hv⟩
    intro e k r e' h hstays hr
    exact ⟨h.1.afterKey hr, hstays _ _ hr⟩
  · obtain ⟨out, ed', hrun, h'⟩ := runFrom_inv (fun ed => ed.Valid ∧ ed.Visible) (fun ed i h _ => by
      obtain ⟨ed', hed', hval, _, hvis⟩ := editorStep_spec h.1 i
      exact ⟨(), ed', hed', hval, hvis h.2⟩) ⟨hed, hv⟩
      (show Along editorStep (fun _ _ => True) ed is from along_of_forall _ (fun _ _ => trivial) ed is)
    exact ⟨out, ed', hrun, h'.2⟩

/-! ## A join at the top -/

/-- Two empty lines; the second one is the first one shown, and the cursor is there. -/
def topDoc : Doc := ⟨[[], []], 1, 0⟩

theorem topDoc_inBounds {maxLines maxLen : Nat} (h : 2 ≤ maxLines) : topDoc.InBounds maxLines maxLen where
  lines_le := h
  row_lt := Nat.lt_succ_self 1
  col_le := Nat.zero_le _
  line_le := by simp [topDoc]

def topEditor : TextEditor := .ofDoc 500 1 topDoc

def topState : EditorState := .ofDoc 89 1 topDoc

theorem topEditor_shows : topEditor.Shows topDoc := TextEditor.shows_ofDoc (topDoc_inBounds (by norm_num))

theorem topState_shows : topState.Shows topDoc := EditorState.shows_ofDoc (topDoc_inBounds (by norm_num))

theorem topEditor_visible : topEditor.Visible := ⟨le_refl 1, show (1 : Int) < 1 + Int.tdiv 425 16 by decide⟩

theorem topState_visible : topState.Visible := ⟨le_refl 1, show (1 : Int) < 1 + 89 by norm_num⟩

theorem cursor_visible_iff_top :
    ((∃ out e', runFrom textEditorStep topEditor [.enter, .up] = .ok (out, e')) ∧
      (Along textEditorStep (fun e k => e.StaysVisible k) topEditor [.enter, .up] ↔
        Along textEditorStep (fun e k => ¬ e.JoinsAtTop k) topEditor [.enter, .up])) ∧
    ∃ out ed', runFrom editorStep topState [(0x0E, false), (0x48, false)] = .ok (out, ed') ∧ ed'.Visible := by
  have h := cursor_visible_iff topEditor [.enter, .up] topState [(0x0E, false), (0x48, false)]
  exact ⟨h.1 topEditor_shows.valid topEditor_visible, h.2 topState_shows.valid topState_visible⟩

/-- Backspace there joins the two lines, and the cursor is above the first line shown. -/
theorem join_hides_cursor : topEditor.Valid ∧ topEditor.Visible ∧ ¬ topEditor.StaysVisible .backspace := by
  refine ⟨topEditor_shows.valid, topEditor_visible, ?_⟩
  rw [TextEditor.Valid.staysVisible_iff topEditor_shows.valid topEditor_visible]
  refine not_not_intro ⟨rfl, ?_, rfl⟩
  rw [TextEditor.doc, topEditor_shows.docOf_eq]
  exact ⟨rfl, Nat.one_pos, by norm_num [topDoc, Doc.above, Doc.line]⟩

end AmqOs.Editor
