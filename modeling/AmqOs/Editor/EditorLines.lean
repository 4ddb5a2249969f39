import AmqOs.Editor.EditorDefs

/-!
# Keys and lines

What the line operations of the two editors do to the document that their arrays represent (`Represents`). The two
editors share a step of each kind: a changed line (`Represents.setLine`), the join of Backspace
(`Represents.join_lines`), and the rows that Enter leaves (`Represents.split_lines`). From these, each key of each editor
is a key of the document (`textEditorKey_spec`, `editorHandleKey_spec`).
-/

set_option autoImplicit false

namespace AmqOs.Editor

open AmqOs.Lib

/-! ## The document in the arrays -/

section Arrays

variable {n w : Nat}

/-- The document in the arrays of an editor. -/
def docOf (lines : Rows n w) (count row col : Nat) : Doc := ⟨texts lines count, row, col⟩

/-- The bounds of an editor's fields; the lines are terminated. -/
def Valid (lines : Rows n w) (count row col : Nat) : Prop :=
  count ≤ n ∧ (docOf lines count row col).InBounds n (w - 1)

/-- The arrays represent the document, which is within the bounds. -/
structure Represents (lines : Rows n w) (count row col : Nat) (d : Doc) : Prop where
  shows : Shows lines d.lines
  count_eq : count = d.lines.length
  row_eq : row = d.row
  col_eq : col = d.col
  bounds : d.InBounds n (w - 1)

variable {lines lines' : Rows n w} {count row col : Nat} {d : Doc}

theorem Represents.docOf_eq (h : Represents lines count row col d) : docOf lines count row col = d := by
  rw [docOf, h.count_eq, h.shows.texts_eq, h.row_eq, h.col_eq]

theorem Represents.valid (h : Represents lines count row col d) : Valid lines count row col := by
  refine ⟨h.count_eq ▸ h.shows.length_le, ?_⟩
  rw [h.docOf_eq]
  exact h.bounds

theorem Valid.represents (hw : 0 < w) (h : Valid lines count row col) :
    Represents lines count row col (docOf lines count row col) where
  shows := shows_texts fun s hs => by have := h.2.line_le s hs; omega
  count_eq := (length_texts h.1).symm
  row_eq := rfl
  col_eq := rfl
  bounds := h.2

namespace Represents

/-- A line of the document is a row of the array. -/
theorem rowAt (h : Represents lines count row col d) {k : Nat} (hk : k < count) :
    ∃ r s, lines[k]? = some r ∧ d.lines[k]? = some s ∧ Holds r s := by
  have hk' : k < d.lines.length := h.count_eq ▸ hk
  obtain ⟨r, hr, hh⟩ := h.shows k _ (List.getElem?_eq_getElem hk')
  exact ⟨r, _, hr, List.getElem?_eq_getElem hk', hh⟩

theorem row_lt (h : Represents lines count row col d) : row < count := by
  rw [h.row_eq, h.count_eq]
  exact h.bounds.row_lt

theorem count_le (h : Represents lines count row col d) : count ≤ n := h.count_eq ▸ h.shows.length_le

theorem line (h : Represents lines count row col d) : ∃ r, lines[row]? = some r ∧ Holds r d.line := by
  obtain ⟨r, s, hr, hs, hh⟩ := h.rowAt h.row_lt
  rw [h.row_eq, Doc.getElem?_row h.bounds.row_lt] at hs
  obtain rfl := Option.some.inj hs
  exact ⟨r, hr, hh⟩

theorem above (h : Represents lines count row col d) : ∃ r, lines[row - 1]? = some r ∧ Holds r d.above := by
  obtain ⟨r, s, hr, hs, hh⟩ := h.rowAt (k := row - 1) (by have := h.row_lt; omega)
  rw [h.row_eq, Doc.getElem?_above h.bounds.row_lt] at hs
  obtain rfl := Option.some.inj hs
  exact ⟨r, hr, hh⟩

/-- Rows that are no lines do not matter. -/
theorem congr (h : Represents lines count row col d) (hl : ∀ k < count, lines'[k]? = lines[k]?) :
    Represents lines' count row col d :=
  { h with shows := fun k s hs =>
      (h.shows k s hs).congr (hl k (h.count_eq ▸ (List.getElem?_eq_some_iff.mp hs).1)) }

/-- The cursor moved. -/
theorem move (h : Represents lines count row col d) {row' col' : Nat} {s : CString}
    (hr : d.lines[row']? = some s) (hc : col' ≤ s.length) : Represents lines count row' col' ⟨d.lines, row', col'⟩ where
  shows := h.shows
  count_eq := h.count_eq
  row_eq := rfl
  col_eq := rfl
  bounds := h.bounds.move rfl (List.getElem?_eq_some_iff.mp hr).1 (by simpa [Doc.line, hr] using hc)

/-- The line of the cursor changed. -/
theorem setLine (h : Represents lines count row col d) {r : Row w} {s : CString} (hr : Holds r s) {col' : Nat}
    (hb : (⟨d.lines.set d.row s, d.row, col'⟩ : Doc).InBounds n (w - 1)) : ∃ lines', writeAt lines row r = some lines' ∧
      Represents lines' count row col' ⟨d.lines.set d.row s, d.row, col'⟩ := by
  obtain ⟨lines', hw, hk, ho⟩ := writeRow_spec (m := lines) (lt_of_lt_of_le h.row_lt h.count_le) hr
  refine ⟨lines', hw, ?_, by rw [h.count_eq, List.length_set], h.row_eq, rfl, hb⟩
  rw [h.row_eq] at hk ho
  exact h.shows.set hk ho

/-! ### Within the line -/

/-- The character is put before the cursor. -/
theorem insert (h : Represents lines count row col d) (c : CChar) (hlen : d.line.length < w - 1) {r q : Row w}
    (hr : Holds r d.line)
    (hq : ∀ i ≤ d.line.length + 1, q[i]? = if i < col then r[i]? else if i = col then some c.val else r[i - 1]?) :
    ∃ lines', writeAt lines row q = some lines' ∧ Represents lines' count row (col + 1) (d.insert c) := by
  have hh : Holds q (d.line.insertIdx col c) := hr.insert (h.col_eq ▸ h.bounds.col_le) c (by omega) hq
  rw [h.col_eq] at hh ⊢
  exact h.setLine hh (h.bounds.insert c hlen)

/-- The character before the cursor is deleted. -/
theorem delete (h : Represents lines count row col d) (hcol : 0 < col) {r : Row w} (hr : Holds r d.line) :
    ∃ r' lines', closeGap r (col - 1) (d.line.length - (col - 1)) = some r' ∧ writeAt lines row r' = some lines' ∧
      Represents lines' count row (col - 1) d.delete := by
  have hw := hr.1
  have hc : col ≤ d.line.length := h.col_eq ▸ h.bounds.col_le
  obtain ⟨r', hr', hx⟩ := closeGap_spec r (c := col - 1) (k := d.line.length - (col - 1)) (by omega)
  have hh : Holds r' (d.line.eraseIdx (col - 1)) := by
    apply hr.erase (by omega)
    intro i hi
    rw [hx]
    by_cases hic : i < col - 1
    · rw [if_neg (by omega), if_pos hic]
    · rw [if_pos (by omega), if_neg hic]
  have hcol' := h.col_eq ▸ hcol
  rw [h.col_eq] at hh hr' ⊢
  obtain ⟨lines', hl, hrep⟩ := h.setLine hh (h.bounds.delete hcol')
  exact ⟨r', lines', hr', hl, hrep⟩

/-! ### Joining and splitting -/

/-- The line is appended to the one above, and the lines below move up. -/
theorem join_lines (h : Represents lines count row col d) (hrow : 0 < row) {prev curr : Row w}
    (hprev : Holds prev d.above) (hcurr : Holds curr d.line) (hlen : d.above.length + d.line.length ≤ w - 1) :
    ∃ joined l₁ l₂, strcat prev curr = some joined ∧ writeAt lines (row - 1) joined = some l₁ ∧
      shiftUp l₁ row (count - 1 - row) = some l₂ ∧ Represents l₂ (count - 1) (row - 1) d.above.length d.join := by
  have hw := hprev.1
  have hlt := h.row_lt
  have hle := h.count_le
  obtain ⟨joined, hj, hjoined⟩ := strcpyAt_spec (s := d.above) hcurr (i := d.above.length) (j := 0) (le_refl _)
    (fun x hx => hprev.2 x (le_of_lt hx)) (Nat.zero_le _) (by omega)
  rw [List.take_length, List.drop_zero] at hjoined
  obtain ⟨l₁, hl₁, hrow₁, hother₁⟩ := writeRow_spec (m := lines) (k := row - 1) (by omega) hjoined
  have hbelow : ∀ i s, row < i → d.lines[i]? = some s → RowAt l₁ i s := fun i s hi hs =>
    (h.shows i s hs).congr (hother₁ i (by omega))
  obtain ⟨l₂, hl₂, hup, hother₂⟩ := shiftUp_spec (m := l₁) (a := row) (k := count - 1 - row)
    (f := fun i => d.lines[i + 1]?.getD []) (by omega) (fun i hi hik => by
      obtain ⟨_, s, _, hs, _⟩ := h.rowAt (k := i + 1) (by omega)
      rw [hs]
      exact hbelow _ _ (by omega) hs)
  refine ⟨joined, l₁, l₂, by rw [strcat, hprev.strlen]; exact hj, hl₁, hl₂, ?_⟩
  have hr := h.row_eq
  have hbounds := h.bounds.row_lt
  refine ⟨?_, ?_, by rw [hr]; rfl, rfl, h.bounds.join (hr ▸ hrow) hlen⟩
  · show Shows l₂ ((d.lines.set (d.row - 1) (d.above ++ d.line)).eraseIdx d.row)
    have hk : d.row = row - 1 + 1 := by omega
    rw [hk, Nat.add_sub_cancel]
    apply h.shows.join (by omega)
    · exact hrow₁.congr (hother₂ _ (by omega))
    · intro i s hi hs
      have hin := (List.getElem?_eq_some_iff.mp hs).1
      have := hup i (by omega) (by have := h.count_eq; omega)
      rwa [hs] at this
    · intro i hi
      rw [hother₂ i (by omega), hother₁ i (by omega)]
  · show count - 1 = ((d.lines.set (d.row - 1) (d.above ++ d.line)).eraseIdx d.row).length
    rw [List.length_eraseIdx_of_lt (by rwa [List.length_set]), List.length_set, h.count_eq]

/-- The rows that Enter leaves. -/
theorem split_lines (h : Represents lines count row col d) (hn : count < n)
    (htop : RowAt lines' row (d.line.take col)) (hnew : RowAt lines' (row + 1) (d.line.drop col))
    (hafter : ∀ i s, row < i → d.lines[i]? = some s → RowAt lines' (i + 1) s)
    (hbefore : ∀ i < row, lines'[i]? = lines[i]?) : Represents lines' (count + 1) (row + 1) 0 d.split := by
  have hr := h.row_eq
  have hlt := h.bounds.row_lt
  rw [h.col_eq, hr] at htop hnew
  rw [hr] at hafter hbefore
  refine ⟨h.shows.split hlt htop hnew hafter hbefore, ?_, by rw [hr]; rfl, rfl, h.bounds.split (h.count_eq ▸ hn)⟩
  show count + 1 = ((d.lines.set d.row (d.line.take d.col)).insertIdx (d.row + 1) (d.line.drop d.col)).length
  rw [List.length_insertIdx_of_le_length (by rw [List.length_set]; omega), List.length_set, h.count_eq]

end Represents

end Arrays

/-! ## Backspace at a limit -/

namespace Doc

/-- What Backspace does in both editors: it joins only lines that are shorter together than a line may be. -/
def backspaceShort (maxLen : Nat) (d : Doc) : Doc :=
  if 0 < d.col then d.delete
  else if 0 < d.row ∧ d.above.length + d.line.length < maxLen then d.join
  else d

/-- Backspace would join two lines to one of the greatest length. -/
def FullJoin (maxLen : Nat) (d : Doc) (k : Key) : Prop :=
  k = .backspace ∧ d.col = 0 ∧ 0 < d.row ∧ d.above.length + d.line.length = maxLen

instance (maxLen : Nat) (d : Doc) (k : Key) : Decidable (d.FullJoin maxLen k) := inferInstanceAs (Decidable (_ ∧ _))

theorem backspaceShort_eq_iff {maxLines maxLen : Nat} {d : Doc} (h : d.InBounds maxLines maxLen) :
    d.backspaceShort maxLen = d.edit maxLines maxLen .backspace ↔ ¬ d.FullJoin maxLen .backspace := by
  unfold backspaceShort FullJoin
  rw [edit_backspace]
  by_cases hcol : 0 < d.col
  · simp only [hcol, if_true, true_iff]
    rintro ⟨-, hzero, -⟩
    omega
  · simp only [hcol, if_false]
    by_cases hfull : 0 < d.row ∧ d.above.length + d.line.length = maxLen
    · rw [if_neg (by omega), if_pos ⟨hfull.1, le_of_eq hfull.2⟩]
      refine iff_of_false (Ne.symm (join_ne h)) (not_not_intro ?_)
      exact ⟨trivial, by omega, hfull⟩
    · have hiff : 0 < d.row ∧ d.above.length + d.line.length < maxLen ↔
          0 < d.row ∧ d.above.length + d.line.length ≤ maxLen := by omega
      simp only [hiff, true_iff]
      exact fun h => hfull h.2.2

end Doc

/-! ## `text_editor.c` -/

section TextEditor

variable {e e' : TextEditor} {d d' : Doc}

/-- The buffer represents the document. -/
def TextEditor.Shows (e : TextEditor) (d : Doc) : Prop :=
  Represents e.buffer.lines e.buffer.lineCount e.buffer.cursorLine e.buffer.cursorCol d

theorem textEditorInsertChar_spec (h : e.Shows d) (c : CChar) : ∃ e', textEditorInsertChar e c.val = some e' ∧
    e'.Shows (d.edit editorMaxLines (editorMaxLineLength - 1) (.char c)) ∧ e'.height = e.height ∧
    e'.buffer.scrollOffset = e.buffer.scrollOffset := by
  obtain ⟨r, hr, hh⟩ := h.line
  have hrow : ¬ e.buffer.cursorLine ≥ editorMaxLines := not_le.mpr (lt_of_lt_of_le h.row_lt h.count_le)
  have hcol : e.buffer.cursorCol ≤ d.line.length := h.col_eq ▸ h.bounds.col_le
  simp only [textEditorInsertChar, if_neg hrow, hr, hh.strlen, Option.bind_eq_bind, Option.bind_some]
  rw [Doc.edit_char]
  by_cases hlen : d.line.length < editorMaxLineLength - 1
  · obtain ⟨r₁, hr₁, hx⟩ := openGap_spec r (c := e.buffer.cursorCol) (k := d.line.length + 1 - e.buffer.cursorCol)
      (by omega)
    obtain ⟨lines', hw, hrep⟩ := h.insert c hlen hh (q := r₁.set e.buffer.cursorCol c.val (by omega)) (by
      intro i hi
      rw [Vector.getElem?_set, hx]
      by_cases hic : i < e.buffer.cursorCol
      · rw [if_neg (by omega), if_neg (by omega), if_pos hic]
      · by_cases hie : e.buffer.cursorCol = i
        · rw [if_pos hie, if_neg hic, if_pos hie.symm]
        · rw [if_neg hie, if_pos (by omega), if_neg hic, if_neg (Ne.symm hie)])
    rw [if_neg (not_le.mpr hlen), if_pos hlen, hr₁, Option.bind_some, writeAt_of_lt _ (by omega), Option.bind_some, hw,
      Option.bind_some]
    exact ⟨_, rfl, hrep, rfl, rfl⟩
  · rw [if_pos (not_lt.mp hlen), if_neg hlen]
    exact ⟨e, rfl, h, rfl, rfl⟩

theorem textEditorBackspace_spec (h : e.Shows d) : ∃ e', textEditorBackspace e = some e' ∧
    e'.Shows (d.backspaceShort (editorMaxLineLength - 1)) ∧ e'.height = e.height ∧
    e'.buffer.scrollOffset = e.buffer.scrollOffset := by
  obtain ⟨r, hr, hh⟩ := h.line
  unfold textEditorBackspace Doc.backspaceShort
  rw [← h.col_eq, ← h.row_eq]
  by_cases hpos : 0 < e.buffer.cursorCol
  · obtain ⟨r', lines', hr', hw, hrep⟩ := h.delete hpos hh
    simp only [gt_iff_lt, hpos, if_true, hr, hh.strlen, hr', hw, Option.bind_eq_bind, Option.bind_some]
    exact ⟨_, rfl, hrep, rfl, rfl⟩
  · simp only [gt_iff_lt, hpos, if_false]
    by_cases hrowpos : 0 < e.buffer.cursorLine
    · obtain ⟨p, hp, hph⟩ := h.above
      simp only [hrowpos, true_and, if_true, hp, hph.strlen, hr, hh.strlen, Option.bind_eq_bind, Option.bind_some]
      by_cases hlen : d.above.length + d.line.length < editorMaxLineLength - 1
      · obtain ⟨joined, l₁, l₂, hj, hl₁, hl₂, hrep⟩ := h.join_lines hrowpos hph hh (le_of_lt hlen)
        have hlast : e.buffer.lineCount - 1 < editorMaxLines := by
          have := h.count_le
          have := h.row_lt
          omega
        obtain ⟨last, hlast'⟩ : ∃ last, l₂[e.buffer.lineCount - 1]? = some last := ⟨_, Vector.getElem?_eq_getElem hlast⟩
        simp only [hlen, if_true, hj, hl₁, hl₂, hlast', writeAt_of_lt last (show 0 < editorMaxLineLength by omega),
          writeAt_of_lt l₂ hlast, Option.bind_some]
        refine ⟨_, rfl, hrep.congr fun k hk => ?_, rfl, rfl⟩
        -- the cleared row is behind the last line
        rw [Vector.getElem?_set, if_neg (by omega)]
      · simp only [hlen, if_false]
        exact ⟨e, rfl, h, rfl, rfl⟩
    · simp only [hrowpos, false_and, if_false]
      exact ⟨e, rfl, h, rfl, rfl⟩

theorem textEditorNewline_spec (h : e.Shows d) : ∃ e', textEditorNewline e = some e' ∧
    e'.Shows (d.edit editorMaxLines (editorMaxLineLength - 1) .enter) ∧ e'.height = e.height ∧
    e'.buffer.scrollOffset =
      if d.lines.length < editorMaxLines then scrollDown (d.row + 1) e.buffer.scrollOffset e.visibleLines
      else e.buffer.scrollOffset := by
  have hcount := h.count_eq
  have hlt := h.row_lt
  unfold textEditorNewline
  rw [Doc.edit_enter]
  by_cases hn : d.lines.length < editorMaxLines
  · have hn' : e.buffer.lineCount < editorMaxLines := hcount ▸ hn
    rw [if_neg (not_le.mpr hn'), if_pos hn, if_pos hn]
    obtain ⟨r, hr, hh⟩ := h.line
    obtain ⟨l₁, hl₁, hdown, hother₁⟩ := shiftDown_spec (m := e.buffer.lines) (a := e.buffer.cursorLine)
      (k := e.buffer.lineCount - e.buffer.cursorLine) (f := fun i => d.lines[i]?.getD []) (by omega) (fun i hi hik => by
        obtain ⟨r, s, hr, hs, hh⟩ := h.rowAt (k := i) (by omega)
        rw [hs]
        exact ⟨r, hr, hh⟩)
    have hr₁ : l₁[e.buffer.cursorLine]? = some r := (hother₁ _ (.inl (le_refl _))).trans hr
    obtain ⟨next, hnext⟩ : ∃ next, l₁[e.buffer.cursorLine + 1]? = some next :=
      ⟨_, Vector.getElem?_eq_getElem (by omega)⟩
    have hcol : e.buffer.cursorCol ≤ d.line.length := h.col_eq ▸ h.bounds.col_le
    obtain ⟨next', hnext', hh'⟩ := copyTail_spec (d := next) hh hcol
    obtain ⟨l₂, hl₂, hrow₂, hother₂⟩ := writeRow_spec (m := l₁) (k := e.buffer.cursorLine + 1) (by omega) hh'
    obtain ⟨top, htop, hhtop⟩ := hh.cut hcol
    obtain ⟨l₃, hl₃, hrow₃, hother₃⟩ := writeRow_spec (m := l₂) (k := e.buffer.cursorLine) (by omega) hhtop
    simp only [hl₁, hr₁, hh.strlen, hnext, hnext', hl₂, htop, hl₃, Option.bind_eq_bind, Option.bind_some]
    refine ⟨_, rfl, h.split_lines hn' hrow₃ (hrow₂.congr (hother₃ _ (by omega))) ?_ ?_, rfl, by rw [← h.row_eq]; rfl⟩
    · intro i s hi hs
      have hin := (List.getElem?_eq_some_iff.mp hs).1
      have hmoved := hdown i (le_of_lt hi) (by omega)
      rw [hs] at hmoved
      exact (hmoved.congr (hother₂ _ (by omega))).congr (hother₃ _ (by omega))
    · intro i hi
      rw [hother₃ i (by omega), hother₂ i (by omega), hother₁ i (by omega)]
  · rw [if_pos (not_lt.mp (hcount ▸ hn)), if_neg hn, if_neg hn]
    exact ⟨e, rfl, h, rfl, rfl⟩

/-- The cursor's line is one of those shown. -/
def TextEditor.Visible (e : TextEditor) : Prop :=
  e.buffer.scrollOffset ≤ e.buffer.cursorLine ∧ e.buffer.cursorLine < e.buffer.scrollOffset + e.visibleLines

theorem clampCol_le (col len : Nat) : clampCol col len ≤ len := by
  unfold clampCol
  split <;> omega

theorem scrollTo_visible (new scroll : Int) {vis : Int} (hvis : 0 < vis) :
    scrollTo new scroll vis ≤ new ∧ new < scrollTo new scroll vis + vis := by
  unfold scrollTo
  split
  · omega
  · split <;> omega

theorem textEditorMoveLine_spec (h : e.Shows d) (dy : Int) : ∃ e' d', textEditorMoveLine e dy = some e' ∧ e'.Shows d' ∧
    d'.lines = d.lines ∧ e'.height = e.height ∧ (e.Visible → e'.Visible) := by
  unfold textEditorMoveLine
  by_cases hnew : (e.buffer.cursorLine : Int) + dy ≥ 0 ∧ (e.buffer.cursorLine : Int) + dy < e.buffer.lineCount
  · rw [if_pos hnew]
    obtain ⟨r, s, hr, hs, hh⟩ := h.rowAt (k := ((e.buffer.cursorLine : Int) + dy).toNat) (by omega)
    simp only [hr, hh.strlen, Option.bind_eq_bind, Option.bind_some]
    refine ⟨_, _, rfl, h.move hs (clampCol_le _ _), rfl, rfl, ?_⟩
    rintro ⟨h1, h2⟩
    have hto := scrollTo_visible (e.buffer.cursorLine + dy) e.buffer.scrollOffset (show 0 < e.visibleLines by omega)
    rw [← Int.toNat_of_nonneg hnew.1] at hto
    rw [← Int.toNat_of_nonneg hnew.1]
    exact hto
  · rw [if_neg hnew]
    exact ⟨e, d, rfl, h, rfl, rfl, id⟩

theorem textEditorMoveCol_spec (h : e.Shows d) (dx : Int) : ∃ e' d', textEditorMoveCol e dx = some e' ∧ e'.Shows d' ∧
    d'.lines = d.lines ∧ e'.height = e.height ∧ (e.Visible → e'.Visible) := by
  obtain ⟨r, s, hr, hs, hh⟩ := h.rowAt h.row_lt
  unfold textEditorMoveCol
  simp only [hr, hh.strlen, Option.bind_eq_bind, Option.bind_some]
  by_cases hnew : (e.buffer.cursorCol : Int) + dx ≥ 0 ∧ (e.buffer.cursorCol : Int) + dx ≤ s.length
  · have hc : ((e.buffer.cursorCol : Int) + dx).toNat ≤ s.length := by omega
    rw [if_pos hnew]
    exact ⟨_, _, rfl, h.move hs hc, rfl, rfl, id⟩
  · rw [if_neg hnew]
    exact ⟨e, d, rfl, h, rfl, rfl, id⟩

theorem textEditorMoveCursor_spec (h : e.Shows d) (dx dy : Int) : ∃ e' d', textEditorMoveCursor e dx dy = some e' ∧
    e'.Shows d' ∧ d'.lines = d.lines ∧ e'.height = e.height ∧ (e.Visible → e'.Visible) := by
  obtain ⟨e₁, d₁, he₁, h₁, hl₁, hh₁, hv₁⟩ : ∃ e₁ d₁, (if dy ≠ 0 then textEditorMoveLine e dy else some e) = some e₁ ∧
      e₁.Shows d₁ ∧ d₁.lines = d.lines ∧ e₁.height = e.height ∧ (e.Visible → e₁.Visible) := by
    split
    · exact textEditorMoveLine_spec h dy
    · exact ⟨e, d, rfl, h, rfl, rfl, id⟩
  rw [textEditorMoveCursor, he₁, Option.bind_some]
  split
  · obtain ⟨e₂, d₂, he₂, h₂, hl₂, hh₂, hv₂⟩ := textEditorMoveCol_spec h₁ dx
    exact ⟨e₂, d₂, he₂, h₂, hl₂.trans hl₁, hh₂.trans hh₁, hv₂ ∘ hv₁⟩
  · exact ⟨e₁, d₁, rfl, h₁, hl₁, hh₁, hv₁⟩

end TextEditor

/-! ## `Anthropic.c` -/

section EditorState

variable {ed ed' : EditorState} {d d' : Doc}

/-- The buffer represents the document. -/
def EditorState.Shows (ed : EditorState) (d : Doc) : Prop :=
  Represents ed.lines ed.lineCount ed.cursorLine ed.cursorCol d

/-- The cursor's line is one of those shown. -/
def EditorState.Visible (ed : EditorState) : Prop :=
  ed.scrollOffset ≤ ed.cursorLine ∧ ed.cursorLine < ed.scrollOffset + ed.visibleLines

theorem scrollUp_visible {row : Nat} {scroll vis : Int} (hrow : 0 < row) (h : scroll ≤ row ∧ row < scroll + vis) :
    scrollUp (row - 1) scroll ≤ (row - 1 : Nat) ∧ (row - 1 : Nat) < scrollUp (row - 1) scroll + vis := by
  unfold scrollUp
  split <;> omega

theorem scrollDown_visible {row : Nat} {scroll vis : Int} (h : scroll ≤ row ∧ row < scroll + vis) :
    scrollDown (row + 1) scroll vis ≤ (row + 1 : Nat) ∧ (row + 1 : Nat) < scrollDown (row + 1) scroll vis + vis := by
  unfold scrollDown
  split <;> omega

/-- What a key of the editor does to its document, and that the cursor stays visible. -/
def EditorState.Does (ed : EditorState) (op : Option EditorState) (P : Doc → Prop) : Prop :=
  ∃ ed' d', op = some ed' ∧ ed'.Shows d' ∧ P d' ∧ (ed.Visible → ed'.Visible)

theorem editorUp_spec (h : ed.Shows d) : ed.Does (editorUp ed) fun d' => d'.lines = d.lines := by
  unfold editorUp
  by_cases hpos : 0 < ed.cursorLine
  · obtain ⟨r, s, hr, hs, hh⟩ := h.rowAt (k := ed.cursorLine - 1) (by have := h.row_lt; omega)
    simp only [gt_iff_lt, hpos, if_true, hr, hh.strlen, Option.bind_eq_bind, Option.bind_some]
    exact ⟨_, _, rfl, h.move hs (clampCol_le _ _), rfl, scrollUp_visible hpos⟩
  · simp only [gt_iff_lt, hpos, if_false]
    exact ⟨ed, d, rfl, h, rfl, id⟩

theorem editorDown_spec (h : ed.Shows d) : ed.Does (editorDown ed) fun d' => d'.lines = d.lines := by
  unfold editorDown
  by_cases hlt : ed.cursorLine < ed.lineCount - 1
  · obtain ⟨r, s, hr, hs, hh⟩ := h.rowAt (k := ed.cursorLine + 1) (by omega)
    simp only [hlt, if_true, hr, hh.strlen, Option.bind_eq_bind, Option.bind_some]
    exact ⟨_, _, rfl, h.move hs (clampCol_le _ _), rfl, scrollDown_visible⟩
  · simp only [hlt, if_false]
    exact ⟨ed, d, rfl, h, rfl, id⟩

theorem editorLeft_spec (h : ed.Shows d) : ed.Does (editorLeft ed) fun d' => d'.lines = d.lines := by
  unfold editorLeft
  by_cases hcol : 0 < ed.cursorCol
  · obtain ⟨r, s, _, hs, hh⟩ := h.rowAt h.row_lt
    have hc : ed.cursorCol ≤ s.length := by
      rw [h.row_eq, Doc.getElem?_row h.bounds.row_lt] at hs
      rw [← Option.some.inj hs, h.col_eq]
      exact h.bounds.col_le
    simp only [gt_iff_lt, hcol, if_true]
    exact ⟨_, _, rfl, h.move hs ((Nat.sub_le _ 1).trans hc), rfl, id⟩
  · simp only [gt_iff_lt, hcol, if_false]
    by_cases hpos : 0 < ed.cursorLine
    · obtain ⟨r, s, hr, hs, hh⟩ := h.rowAt (k := ed.cursorLine - 1) (by have := h.row_lt; omega)
      simp only [hpos, if_true, hr, hh.strlen, Option.bind_eq_bind, Option.bind_some]
      exact ⟨_, _, rfl, h.move hs (le_refl _), rfl, scrollUp_visible hpos⟩
    · simp only [hpos, if_false]
      exact ⟨ed, d, rfl, h, rfl, id⟩

theorem editorRight_spec (h : ed.Shows d) : ed.Does (editorRight ed) fun d' => d'.lines = d.lines := by
  obtain ⟨r, s, hr, hs, hh⟩ := h.rowAt h.row_lt
  unfold editorRight
  simp only [hr, hh.strlen, Option.bind_eq_bind, Option.bind_some]
  by_cases hcol : ed.cursorCol < s.length
  · simp only [hcol, if_true]
    exact ⟨_, _, rfl, h.move hs (Nat.succ_le_of_lt hcol), rfl, id⟩
  · simp only [hcol, if_false]
    by_cases hlt : ed.cursorLine < ed.lineCount - 1
    · obtain ⟨r', s', _, hs', _⟩ := h.rowAt (k := ed.cursorLine + 1) (by omega)
      simp only [hlt, if_true]
      exact ⟨_, _, rfl, h.move hs' (Nat.zero_le _), rfl, scrollDown_visible⟩
    · simp only [hlt, if_false]
      exact ⟨ed, d, rfl, h, rfl, id⟩

theorem editorBackspace_spec (h : ed.Shows d) :
    ed.Does (editorBackspace ed) fun d' => d' = d.backspaceShort (maxLineLength - 1) := by
  obtain ⟨r, hr, hh⟩ := h.line
  unfold editorBackspace Doc.backspaceShort
  rw [← h.col_eq, ← h.row_eq]
  by_cases hpos : 0 < ed.cursorCol
  · obtain ⟨r', lines', hr', hw, hrep⟩ := h.delete hpos hh
    simp only [gt_iff_lt, hpos, if_true, hr, hh.strlen, hr', hw, Option.bind_eq_bind, Option.bind_some]
    exact ⟨_, _, rfl, hrep, rfl, id⟩
  · simp only [gt_iff_lt, hpos, if_false]
    by_cases hrowpos : 0 < ed.cursorLine
    · obtain ⟨p, hp, hph⟩ := h.above
      simp only [hrowpos, true_and, if_true, hp, hph.strlen, hr, hh.strlen, Option.bind_eq_bind, Option.bind_some]
      by_cases hlen : d.above.length + d.line.length < maxLineLength - 1
      · obtain ⟨joined, l₁, l₂, hj, hl₁, hl₂, hrep⟩ := h.join_lines hrowpos hph hh (le_of_lt hlen)
        simp only [hlen, if_true, hj, hl₁, hl₂, Option.bind_some]
        exact ⟨_, _, rfl, hrep, rfl, scrollUp_visible hrowpos⟩
      · simp only [hlen, if_false]
        exact ⟨ed, d, rfl, h, rfl, id⟩
    · simp only [hrowpos, false_and, if_false]
      exact ⟨ed, d, rfl, h, rfl, id⟩

/-- The line is split: the row below gets its tail. -/
theorem splitLine_spec {lines : Rows maxLines maxLineLength} {line : Row maxLineLength} (next : Row maxLineLength)
    {s : CString} {row col : Nat} (hrow : row + 1 < maxLines) (hline : lines[row]? = some line) (hh : Holds line s)
    (hc : col ≤ s.length) :
    ∃ lines', splitLine lines line next row col s.length = some lines' ∧ RowAt lines' row (s.take col) ∧
      RowAt lines' (row + 1) (s.drop col) ∧ ∀ x, x ≠ row → x ≠ row + 1 → lines'[x]? = lines[x]? := by
  unfold splitLine
  by_cases hlt : col < s.length
  · have hw := hh.1
    obtain ⟨next', hnext, hhnext⟩ := strcpyAt_spec (d := next) (s := s) (i := 0) (j := col) hh (Nat.zero_le _)
      (fun x hx => absurd hx (Nat.not_lt_zero x)) hc (by omega)
    obtain ⟨l₁, hl₁, hrow₁, hother₁⟩ := writeRow_spec (m := lines) hrow hhnext
    obtain ⟨top, htop, hhtop⟩ := hh.cut hc
    obtain ⟨l₂, hl₂, hrow₂, hother₂⟩ := writeRow_spec (m := l₁) (k := row) (by omega) hhtop
    simp only [hlt, if_true, hnext, hl₁, htop, hl₂, Option.bind_eq_bind, Option.bind_some]
    refine ⟨l₂, rfl, hrow₂, ?_, fun x h1 h2 => (hother₂ x h1).trans (hother₁ x h2)⟩
    exact hrow₁.congr (hother₂ _ (by omega))
  · obtain rfl : col = s.length := by omega
    have hempty : Holds (next.set 0 0) [] := ⟨by norm_num, fun i hi => by
      rw [Nat.le_zero.mp hi, Vector.getElem?_set, if_pos rfl]
      rfl⟩
    obtain ⟨l₁, hl₁, hrow₁, hother₁⟩ := writeRow_spec (m := lines) hrow hempty
    simp only [hlt, if_false, writeAt_of_lt next (show 0 < maxLineLength by norm_num), hl₁, Option.bind_eq_bind,
      Option.bind_some]
    refine ⟨l₁, rfl, ?_, by rwa [List.drop_length], fun x _ h2 => hother₁ x h2⟩
    rw [List.take_length]
    exact ⟨line, (hother₁ _ (by omega)).trans hline, hh⟩

theorem editorEnter_spec (h : ed.Shows d) :
    ed.Does (editorEnter ed) fun d' => d' = d.edit maxLines (maxLineLength - 1) .enter := by
  have hcount := h.count_eq
  have hlt := h.row_lt
  unfold editorEnter
  rw [Doc.edit_enter, ← hcount]
  by_cases hn : ed.lineCount < maxLines
  · obtain ⟨r, hr, hh⟩ := h.line
    obtain ⟨l₁, hl₁, hdown, hother₁⟩ := shiftDown_spec (m := ed.lines) (a := ed.cursorLine + 1)
      (k := ed.lineCount - (ed.cursorLine + 1)) (f := fun i => d.lines[i]?.getD []) (by omega) (fun i hi hik => by
        obtain ⟨r, s, hr, hs, hh⟩ := h.rowAt (k := i) (by omega)
        rw [hs]
        exact ⟨r, hr, hh⟩)
    have hr₁ : l₁[ed.cursorLine]? = some r := (hother₁ _ (.inl (Nat.le_succ _))).trans hr
    obtain ⟨next, hnext⟩ : ∃ next, l₁[ed.cursorLine + 1]? = some next := ⟨_, Vector.getElem?_eq_getElem (by omega)⟩
    have hcol : ed.cursorCol ≤ d.line.length := h.col_eq ▸ h.bounds.col_le
    obtain ⟨l₂, hl₂, htop, hnew, hother₂⟩ := splitLine_spec next (by omega) hr₁ hh hcol
    simp only [hn, if_true, hl₁, hr₁, hh.strlen, hnext, hl₂, Option.bind_eq_bind, Option.bind_some]
    refine ⟨_, _, rfl, h.split_lines hn htop hnew ?_ ?_, rfl, scrollDown_visible⟩
    · intro i s hi hs
      have hin := (List.getElem?_eq_some_iff.mp hs).1
      have hmoved := hdown i (by omega) (by omega)
      rw [hs] at hmoved
      exact hmoved.congr (hother₂ _ (by omega) (by omega))
    · intro i hi
      rw [hother₂ i (by omega) (by omega), hother₁ i (by omega)]
  · simp only [hn, if_false]
    exact ⟨ed, d, rfl, h, rfl, id⟩

theorem editorInsert_spec (h : ed.Shows d) (c : CChar) :
    ed.Does (editorInsert ed c.val) fun d' => d' = d.edit maxLines (maxLineLength - 1) (.char c) := by
  obtain ⟨r, hr, hh⟩ := h.line
  have hcol : ed.cursorCol ≤ d.line.length := h.col_eq ▸ h.bounds.col_le
  have hclamp : clampCol ed.cursorCol d.line.length = ed.cursorCol := if_neg (not_lt.mpr hcol)
  unfold editorInsert
  simp only [hr, hh.strlen, hclamp, Option.bind_eq_bind, Option.bind_some]
  rw [Doc.edit_char]
  by_cases hlen : d.line.length < maxLineLength - 1
  · obtain ⟨r₁, hr₁, hx⟩ := openGap_spec r (c := ed.cursorCol) (k := d.line.length - ed.cursorCol) (by omega)
    have hput : ed.cursorCol < maxLineLength := by omega
    have hend : d.line.length + 1 < maxLineLength := by omega
    obtain ⟨lines', hw, hrep⟩ := h.insert c hlen hh (q := (r₁.set ed.cursorCol c.val).set (d.line.length + 1) 0) (by
      intro i hi
      rw [Vector.getElem?_set, Vector.getElem?_set, hx]
      by_cases hie : d.line.length + 1 = i
      · -- the terminator
        rw [if_pos hie, if_neg (by omega), if_neg (by omega), hh.2 (i - 1) (by omega), byte_of_le (by omega)]
      · rw [if_neg hie]
        by_cases hic : ed.cursorCol = i
        · rw [if_pos hic, if_neg (by omega), if_pos hic.symm]
        · rw [if_neg hic]
          by_cases hlt : i < ed.cursorCol
          · rw [if_neg (by omega), if_pos hlt]
          · rw [if_pos (by omega), if_neg hlt, if_neg (Ne.symm hic)])
    simp only [hlen, if_true, hr₁, writeAt_of_lt r₁ hput, writeAt_of_lt _ hend, hw, Option.bind_some]
    exact ⟨_, _, rfl, hrep, rfl, id⟩
  · simp only [hlen, if_false]
    exact ⟨_, d, rfl, h, rfl, id⟩

end EditorState
end AmqOs.Editor
