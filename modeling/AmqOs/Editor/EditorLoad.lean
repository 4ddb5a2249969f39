import AmqOs.Lib.Lines
import AmqOs.Editor.EditorSave

/-!
# What `editor_load_file` and `editor_save_file` make of a text

The loader cuts the bytes it has read into lines (`loadLines_spec`) and the saver joins lines (`joinLoop_spec`). One after the
other, they drop a newline at the end of the text.
-/

set_option autoImplicit false

namespace AmqOs.Editor

open AmqOs.Lib AmqOs.Vfs

def newlineChar : CChar := ⟨newline, by decide⟩

def returnChar : CChar := ⟨carriageReturn, by decide⟩

theorem joinLines_eq (ls : List CString) : joinLines ls = ([newlineChar].intercalate ls).map Subtype.val := by
  induction ls with
  | nil => rfl
  | cons s ls ih =>
    by_cases h : ls = []
    · subst h
      rw [joinLines_singleton, List.intercalate_singleton]
    · rw [joinLines_cons h, ih, List.intercalate_cons_of_ne_nil h, List.map_append, List.map_append, List.append_assoc]
      rfl

/-! ## Loading -/

section Loading

variable {n w : Nat} {lines lines' : Rows n w} {ls : List CString} {cur : CString}

theorem Shows.snoc {s : CString} (h : Shows lines ls) (hs : RowAt lines' ls.length s)
    (ho : ∀ x, x ≠ ls.length → lines'[x]? = lines[x]?) : Shows lines' (ls ++ [s]) := by
  intro k t hk
  rw [List.getElem?_append] at hk
  split at hk
  · exact (h k t hk).congr (ho k (by omega))
  · rename_i hge
    have hlt := (List.getElem?_eq_some_iff.mp hk).1
    rw [List.length_singleton] at hlt
    obtain rfl : k = ls.length := by omega
    rw [Nat.sub_self] at hk
    exact Option.some.inj hk ▸ hs

theorem setByte_spec (lines : Rows n w) {i j : Nat} (hi : i < n) (hj : j < w) (b : UInt8) :
    ∃ r lines', setByte lines i j b = some lines' ∧ lines[i]? = some r ∧ lines'[i]? = some (r.set j b) ∧
      ∀ x, x ≠ i → lines'[x]? = lines[x]? := by
  refine ⟨lines[i], lines.set i (lines[i].set j b), ?_, Vector.getElem?_eq_getElem hi, ?_, fun x hx => ?_⟩
  · simp only [setByte, Vector.getElem?_eq_getElem hi, Option.bind_eq_bind, Option.bind_some, writeAt_of_lt _ hj,
      writeAt_of_lt _ hi]
  · rw [Vector.getElem?_set, if_pos rfl]
  · rw [Vector.getElem?_set, if_neg (Ne.symm hx)]

/-- The lines `ls` are stored, and the part `cur` of the next. -/
structure Loading (lines : Rows n w) (ls : List CString) (cur : CString) : Prop where
  shows : Shows lines ls
  row : ∀ r, lines[ls.length]? = some r → ∀ x < cur.length, r[x]? = some (byte cur x)

theorem Loading.start (lines : Rows n w) : Loading lines [] [] :=
  ⟨fun k s hk => absurd hk (by simp), fun _ _ x hx => absurd hx (Nat.not_lt_zero x)⟩

/-- The line is ended. -/
theorem Loading.endLine (h : Loading lines ls cur) (hn : ls.length < n) (hw : cur.length < w) :
    ∃ lines', setByte lines ls.length cur.length 0 = some lines' ∧ Shows lines' (ls ++ [cur]) := by
  obtain ⟨r, lines', he, hr, hr', ho⟩ := setByte_spec lines hn hw 0
  refine ⟨lines', he, Shows.snoc h.shows ⟨_, hr', hw, fun x hx => ?_⟩ ho⟩
  rw [Vector.getElem?_set]
  split
  · rename_i hxe
    rw [byte_of_le (le_of_eq hxe)]
  · exact h.row r hr x (by omega)

/-- A character is stored. -/
theorem Loading.push (h : Loading lines ls cur) (hn : ls.length < n) (hw : cur.length < w) (c : CChar) :
    ∃ lines', setByte lines ls.length cur.length c.val = some lines' ∧ Loading lines' ls (cur ++ [c]) := by
  obtain ⟨r, lines', he, hr, hr', ho⟩ := setByte_spec lines hn hw c.val
  refine ⟨lines', he, fun k s hk => ?_, fun r' hr'' x hx => ?_⟩
  · have hlt := (List.getElem?_eq_some_iff.mp hk).1
    exact (h.shows k s hk).congr (ho k (by omega))
  · rw [hr'] at hr''
    rw [List.length_append, List.length_singleton] at hx
    rw [← Option.some.inj hr'', Vector.getElem?_set]
    split
    · rename_i hxe
      subst hxe
      rw [byte_append_right (le_refl _), Nat.sub_self]
      rfl
    · rw [h.row r hr x (by omega), byte_append_left (by omega)]

end Loading

section Loader

variable {lines : Rows maxLines maxLineLength} {ls : List CString} {cur : CString}

/-- The loop over the bytes `x`, when there is room for these and the bytes `y` that are not read. -/
theorem loadLoop_spec {x : CString} (y : CString) (h : Loading lines ls cur) (hcr : returnChar ∉ x)
    (hfit : PiecesFit maxLines (maxLineLength - 1) (ls ++ piecesFrom newlineChar cur (x ++ y))) :
    ∃ lines' ls' cur', loadLoop (x.map Subtype.val) lines ls.length cur.length = some (lines', ls'.length, cur'.length) ∧
      Loading lines' ls' cur' ∧ ls' ++ [cur'] = ls ++ piecesFrom newlineChar cur x ∧
      PiecesFit maxLines (maxLineLength - 1) (ls' ++ piecesFrom newlineChar cur' y) := by
  induction x generalizing lines ls cur with
  | nil => exact ⟨lines, ls, cur, rfl, h, by rw [piecesFrom_nil], hfit⟩
  | cons c x ih =>
    have hcr' : returnChar ∉ x := fun hx => hcr (List.mem_cons_of_mem _ hx)
    rw [List.cons_append] at hfit
    by_cases hc : c = newlineChar
    · subst hc
      obtain ⟨hn, hw⟩ := hfit.at_sep
      obtain ⟨lines₁, he, hs⟩ := h.endLine hn (Nat.lt_of_le_pred (by decide) hw)
      rw [piecesFrom_sep, ← List.singleton_append, ← List.append_assoc] at hfit
      obtain ⟨lines', ls', cur', hloop, h', hpieces, hfit'⟩ := @ih lines₁ (ls ++ [cur]) []
        ⟨hs, fun _ _ x hx => absurd hx (Nat.not_lt_zero x)⟩ hcr' hfit
      refine ⟨lines', ls', cur', ?_, h', ?_, hfit'⟩
      · rw [List.length_append, List.length_singleton, List.length_nil] at hloop
        rw [List.map_cons, loadLoop, if_pos hn, if_pos (show newlineChar.val = newline from rfl), he]
        exact hloop
      · rw [hpieces, piecesFrom_sep, List.append_assoc]
        rfl
    · obtain ⟨hn, hw⟩ := hfit.at_other hc
      obtain ⟨lines₁, he, hl⟩ := h.push hn (lt_of_lt_of_le hw (Nat.sub_le _ _)) c
      rw [piecesFrom_other hc] at hfit
      obtain ⟨lines', ls', cur', hloop, h', hpieces, hfit'⟩ := ih hl hcr' hfit
      refine ⟨lines', ls', cur', ?_, h', ?_, hfit'⟩
      · have hnl : ¬ c.val = newline := fun e => hc (Subtype.ext e)
        have hret : ¬ c.val = carriageReturn := fun e => hcr (List.mem_cons.mpr (.inl (Subtype.ext e.symm)))
        rw [List.length_append, List.length_singleton] at hloop
        rw [List.map_cons, loadLoop, if_pos hn, if_neg hnl, if_neg hret, if_pos hw, he]
        exact hloop
      · rw [hpieces, piecesFrom_other hc]

/-- **Loading**: the lines that are stored, joined again, are the text without a newline at its end. -/
theorem loadLines_spec (lines : Rows maxLines maxLineLength) {x : CString} (y : CString) (hcr : returnChar ∉ x)
    (hfit : PiecesFit maxLines (maxLineLength - 1) (piecesFrom newlineChar [] (x ++ y))) :
    ∃ lines' ls, loadLines (x.map Subtype.val) lines = some (lines', ls.length) ∧ Shows lines' ls ∧
      joinLines ls = (dropFinal newlineChar x).map Subtype.val := by
  obtain ⟨lines₁, ls, cur, hloop, h, hpieces, hfit'⟩ := loadLoop_spec y (Loading.start lines) hcr
    (by rwa [List.nil_append])
  rw [List.nil_append] at hpieces
  have hjoin := intercalate_lines hpieces
  by_cases hend : cur.length > 0 ∨ ls.length = 0
  · have hcut : ¬ (cur = [] ∧ ls ≠ []) := fun ⟨hc, hne⟩ => by
      rcases hend with hpos | hzero
      · rw [hc] at hpos
        exact absurd hpos (lt_irrefl _)
      · exact hne (List.length_eq_zero_iff.mp hzero)
    have hn : ls.length < maxLines := by
      rcases hend with hpos | hzero
      · exact hfit'.at_part.2 (List.length_pos_iff.mp hpos)
      · rw [hzero]
        decide
    obtain ⟨lines', he, hs⟩ := h.endLine hn (Nat.lt_of_le_pred (by decide) hfit'.at_part.1)
    refine ⟨lines', ls ++ [cur], ?_, hs, ?_⟩
    · rw [List.length_append, List.length_singleton]
      simp only [loadLines]
      rw [show loadLoop (x.map Subtype.val) lines 0 0 = _ from hloop]
      simp only [Option.bind_eq_bind, Option.bind_some, if_pos hend, he]
    · rw [joinLines_eq, ← hjoin, if_neg hcut]
  · have hcut : cur = [] ∧ ls ≠ [] :=
      ⟨List.length_eq_zero_iff.mp (by omega), fun he => hend (.inr (by rw [he]; rfl))⟩
    refine ⟨lines₁, ls, ?_, h.shows, ?_⟩
    · simp only [loadLines]
      rw [show loadLoop (x.map Subtype.val) lines 0 0 = _ from hloop]
      simp only [Option.bind_eq_bind, Option.bind_some, if_neg hend]
    · rw [joinLines_eq, ← hjoin, if_pos hcut]

end Loader

/-! ## Joining -/

/-- The loop over the lines that are left. -/
theorem joinLoop_spec (ed : EditorState) {ls rest : List CString} {k : Nat} (hs : Shows ed.lines ls)
    (hcount : ed.lineCount = ls.length) (hrest : ls.drop k = rest) {buffer : List UInt8}
    (hroom : (buffer ++ joinLines rest).length ≤ maxLines * maxLineLength) :
    joinLoop ed k rest.length buffer = some (buffer ++ joinLines rest) := by
  induction rest generalizing k buffer with
  | nil => rw [show joinLines [] = [] from rfl, List.append_nil]; rfl
  | cons s rest ih =>
    have hlen := congrArg List.length hrest
    rw [List.length_drop, List.length_cons] at hlen
    have hk : ls[k]? = some s := by rw [← List.head?_drop, hrest]; rfl
    have htail : ls.drop (k + 1) = rest := by rw [← List.tail_drop, hrest]; rfl
    rw [List.length_cons, joinLoop, lineBytes_eq (hs k s hk)]
    simp only [Option.bind_eq_bind, Option.bind_some]
    by_cases hlast : rest = []
    · subst hlast
      rw [joinLines_singleton] at hroom ⊢
      rw [pushBytes, if_pos hroom, Option.bind_some,
        if_neg (by rw [hcount]; simp only [List.length_nil] at hlen; omega)]
      rfl
    · have hpos := List.length_pos_iff.mpr hlast
      rw [joinLines_cons hlast] at hroom ⊢
      rw [pushBytes, if_pos (by simp only [List.length_append] at hroom ⊢; omega), Option.bind_some,
        if_pos (by rw [hcount]; omega), pushBytes, if_pos (by simp only [List.length_append] at hroom ⊢; omega),
        Option.bind_some, ih htail (by simpa only [List.append_assoc] using hroom)]
      simp only [List.append_assoc]

end AmqOs.Editor
