import AmqOs.Lib.CString

/-!
# The document of a line editor

What an editor is for, without its arrays: a list of lines and a cursor, and what a key does to them
(`Doc.edit`): a character goes in before the cursor, Enter splits the line there, Backspace deletes the character before
the cursor or joins the line with the one above. A document has at most `maxLines` lines of at most `maxLen` characters;
a key that would exceed a limit does nothing. `Doc.Prescribed` leaves to each editor where its arrow keys put the cursor.
-/

set_option autoImplicit false

namespace AmqOs.Editor

open AmqOs.Lib

/-- The meaning of a key. -/
inductive Key where
  | char (c : CChar)
  | enter
  | backspace
  | up
  | down
  | left
  | right
  deriving DecidableEq

/-- Keys that move the cursor only. -/
def Key.IsArrow : Key → Prop
  | .up | .down | .left | .right => True
  | .char _ | .enter | .backspace => False

/-- Lines, and the cursor before column `col` of line `row`. -/
@[ext] structure Doc where
  lines : List CString
  row : Nat
  col : Nat
  deriving DecidableEq

namespace Doc

/-- The line of the cursor. -/
def line (d : Doc) : CString := d.lines[d.row]?.getD []

/-- The line above. -/
def above (d : Doc) : CString := d.lines[d.row - 1]?.getD []

def insert (d : Doc) (c : CChar) : Doc :=
  { d with lines := d.lines.set d.row (d.line.insertIdx d.col c), col := d.col + 1 }

def split (d : Doc) : Doc where
  lines := (d.lines.set d.row (d.line.take d.col)).insertIdx (d.row + 1) (d.line.drop d.col)
  row := d.row + 1
  col := 0

def delete (d : Doc) : Doc := { d with lines := d.lines.set d.row (d.line.eraseIdx (d.col - 1)), col := d.col - 1 }

def join (d : Doc) : Doc where
  lines := (d.lines.set (d.row - 1) (d.above ++ d.line)).eraseIdx d.row
  row := d.row - 1
  col := d.above.length

/-- What a key does to the document, the cursor moves of the arrow keys apart. -/
def edit (maxLines maxLen : Nat) (d : Doc) : Key → Doc
  | .char c => if d.line.length < maxLen then d.insert c else d
  | .enter => if d.lines.length < maxLines then d.split else d
  | .backspace =>
    if 0 < d.col then d.delete
    else if 0 < d.row ∧ d.above.length + d.line.length ≤ maxLen then d.join
    else d
  | .up | .down | .left | .right => d

theorem edit_char (maxLines maxLen : Nat) (d : Doc) (c : CChar) :
    d.edit maxLines maxLen (.char c) = if d.line.length < maxLen then d.insert c else d := rfl

theorem edit_enter (maxLines maxLen : Nat) (d : Doc) :
    d.edit maxLines maxLen .enter = if d.lines.length < maxLines then d.split else d := rfl

theorem edit_backspace (maxLines maxLen : Nat) (d : Doc) :
    d.edit maxLines maxLen .backspace =
      if 0 < d.col then d.delete
      else if 0 < d.row ∧ d.above.length + d.line.length ≤ maxLen then d.join
      else d := rfl

/-- What a key may make of the document `d`. -/
def Prescribed (maxLines maxLen : Nat) (d : Doc) (k : Key) (d' : Doc) : Prop :=
  (k.IsArrow → d'.lines = d.lines) ∧ (¬ k.IsArrow → d' = d.edit maxLines maxLen k)

structure InBounds (maxLines maxLen : Nat) (d : Doc) : Prop where
  lines_le : d.lines.length ≤ maxLines
  row_lt : d.row < d.lines.length
  col_le : d.col ≤ d.line.length
  line_le : ∀ l ∈ d.lines, l.length ≤ maxLen

variable {d : Doc} {maxLines maxLen : Nat}

theorem getElem?_row (h : d.row < d.lines.length) : d.lines[d.row]? = some d.line := by
  rw [line, List.getElem?_eq_getElem h, Option.getD_some]

theorem getElem?_above (h : d.row < d.lines.length) : d.lines[d.row - 1]? = some d.above := by
  rw [above, List.getElem?_eq_getElem (by omega), Option.getD_some]

theorem above_split (h : d.InBounds maxLines maxLen) : d.split.above = d.line.take d.col := by
  simp [split, above, List.getElem?_insertIdx, h.row_lt]

theorem line_split (h : d.InBounds maxLines maxLen) : d.split.line = d.line.drop d.col := by
  simp [split, line, List.getElem?_insertIdx, h.row_lt]

theorem length_split (h : d.InBounds maxLines maxLen) : d.split.lines.length = d.lines.length + 1 := by
  have hr := h.row_lt
  rw [split, List.length_insertIdx_of_le_length (by rw [List.length_set]; omega), List.length_set]

namespace InBounds

theorem line_length (h : d.InBounds maxLines maxLen) : d.line.length ≤ maxLen :=
  h.line_le _ (List.mem_iff_getElem?.mpr ⟨_, getElem?_row h.row_lt⟩)

/-- A cursor moved within the lines. -/
theorem move (h : d.InBounds maxLines maxLen) {d' : Doc} (hl : d'.lines = d.lines) (hr : d'.row < d.lines.length)
    (hc : d'.col ≤ d'.line.length) : d'.InBounds maxLines maxLen :=
  ⟨hl ▸ h.lines_le, hl ▸ hr, hc, hl ▸ h.line_le⟩

theorem insert (h : d.InBounds maxLines maxLen) (c : CChar) (hlen : d.line.length < maxLen) :
    (d.insert c).InBounds maxLines maxLen := by
  have hset : (d.insert c).line = d.line.insertIdx d.col c := by
    simp [Doc.insert, line, h.row_lt]
  have hnew : (d.line.insertIdx d.col c).length = d.line.length + 1 := List.length_insertIdx_of_le_length h.col_le c
  refine ⟨by simpa [Doc.insert] using h.lines_le, by simpa [Doc.insert] using h.row_lt, ?_, fun l hl => ?_⟩
  · rw [hset, hnew]
    exact Nat.succ_le_succ h.col_le
  · rcases List.mem_or_eq_of_mem_set hl with hl | rfl
    · exact h.line_le l hl
    · omega

theorem delete (h : d.InBounds maxLines maxLen) (hcol : 0 < d.col) : d.delete.InBounds maxLines maxLen := by
  have hset : d.delete.line = d.line.eraseIdx (d.col - 1) := by
    simp [Doc.delete, line, h.row_lt]
  have hc := h.col_le
  have hl := h.line_length
  have hnew : (d.line.eraseIdx (d.col - 1)).length = d.line.length - 1 := List.length_eraseIdx_of_lt (by omega)
  refine ⟨by simpa [Doc.delete] using h.lines_le, by simpa [Doc.delete] using h.row_lt, ?_, fun l hl => ?_⟩
  · rw [hset, hnew]
    exact Nat.sub_le_sub_right hc 1
  · rcases List.mem_or_eq_of_mem_set hl with hl | rfl
    · exact h.line_le l hl
    · omega

theorem split (h : d.InBounds maxLines maxLen) (hn : d.lines.length < maxLines) : d.split.InBounds maxLines maxLen := by
  have hr := h.row_lt
  have hl := h.line_length
  have hlen := length_split h
  refine ⟨by omega, ?_, Nat.zero_le _, fun l hmem => ?_⟩
  · rw [hlen]
    exact Nat.succ_lt_succ hr
  · rcases List.eq_or_mem_of_mem_insertIdx hmem with rfl | hmem
    · rw [List.length_drop]
      omega
    · rcases List.mem_or_eq_of_mem_set hmem with hmem | rfl
      · exact h.line_le l hmem
      · rw [List.length_take]
        omega

theorem join (h : d.InBounds maxLines maxLen) (hrow : 0 < d.row) (hlen : d.above.length + d.line.length ≤ maxLen) :
    d.join.InBounds maxLines maxLen := by
  have hr := h.row_lt
  have hcount : d.join.lines.length = d.lines.length - 1 := by
    rw [Doc.join, List.length_eraseIdx_of_lt (by rw [List.length_set]; exact hr), List.length_set]
  have hline : d.join.line = d.above ++ d.line := by
    simp [Doc.join, line, List.getElem?_eraseIdx, hrow, show d.row - 1 < d.lines.length by omega]
  refine ⟨?_, ?_, ?_, fun l hmem => ?_⟩
  · have := h.lines_le
    omega
  · rw [hcount]
    exact Nat.sub_lt_sub_right hrow hr
  · rw [hline, List.length_append]
    exact Nat.le_add_right _ _
  · rcases List.mem_or_eq_of_mem_set (List.mem_of_mem_eraseIdx hmem) with hmem | rfl
    · exact h.line_le l hmem
    · rw [List.length_append]
      exact hlen

end InBounds

/-- Joining takes a split back. -/
theorem join_split (h : d.InBounds maxLines maxLen) : d.split.join = d := by
  have hr := h.row_lt
  have hlen : d.row < (d.lines.set d.row (d.line.take d.col)).length := by rwa [List.length_set]
  ext1
  · show (d.split.lines.set d.row (d.split.above ++ d.split.line)).eraseIdx (d.row + 1) = d.lines
    rw [above_split h, line_split h, List.take_append_drop]
    apply List.ext_getElem?
    intro i
    rw [List.getElem?_eraseIdx]
    simp only [split, List.getElem?_set, List.getElem?_insertIdx, List.length_insertIdx, List.length_set]
    grind [getElem?_row]
  · rfl
  · show d.split.above.length = d.col
    rw [above_split h, List.length_take, Nat.min_eq_left h.col_le]

/-- A joined line is one line less. -/
theorem join_ne (h : d.InBounds maxLines maxLen) : d.join ≠ d := by
  intro hd
  have hlen := congrArg (fun d : Doc => d.lines.length) hd
  have hr := h.row_lt
  simp only [join] at hlen
  rw [List.length_eraseIdx_of_lt (by rwa [List.length_set]), List.length_set] at hlen
  omega

end Doc

end AmqOs.Editor
