import Mathlib

/-!
# Texts cut into lines

A text is cut at a separator into pieces, one more than there are separators (`List.splitOn`). Its lines are the pieces
without an empty last one: a separator at the end ends the last line (`textLines`). A reader that goes from left to right has
some pieces done and a part `cur` of the next (`piecesFrom`); `PiecesFit` says that there is room for what it still has to
store, at most `n` lines of at most `w` elements.

Joining the lines again loses the separator at the end (`intercalate_lines`).
-/

set_option autoImplicit false

namespace AmqOs.Lib

/-- An empty last piece is a separator at the end. -/
theorem intercalate_concat_nil {α : Type} (sep : α) {ls : List (List α)} (h : ls ≠ []) :
    [sep].intercalate (ls ++ [[]]) = [sep].intercalate ls ++ [sep] := by
  induction ls with
  | nil => exact absurd rfl h
  | cons p ps ih =>
    cases ps with
    | nil => simp
    | cons q ps => simpa using ih (by simp)

theorem length_intercalate_le {α : Type} (sep : α) {ls : List (List α)} {w : Nat} (h : ∀ p ∈ ls, p.length ≤ w) :
    ([sep].intercalate ls).length ≤ ls.length * (w + 1) := by
  induction ls with
  | nil => exact Nat.zero_le _
  | cons p ps ih =>
    have hp := h p List.mem_cons_self
    have ih := ih fun q hq => h q (List.mem_cons_of_mem _ hq)
    rw [List.length_cons, Nat.succ_mul]
    by_cases hne : ps = []
    · subst hne
      rw [List.intercalate_singleton]
      omega
    · rw [List.intercalate_cons_of_ne_nil hne, List.length_append, List.length_append, List.length_singleton]
      omega

section Lines

variable {α : Type} [DecidableEq α] {sep : α} {l done : List α} {n w : Nat}

/-- The lines of a text. -/
def textLines (sep : α) (l : List α) : List (List α) :=
  if (l.splitOn sep).getLast? = some [] then (l.splitOn sep).dropLast else l.splitOn sep

/-- The text without a separator at its end. -/
def dropFinal (sep : α) (l : List α) : List α := if l.getLast? = some sep then l.dropLast else l

/-- The pieces of a text of which `cur` is already read and `rest` is not. -/
def piecesFrom (sep : α) (cur rest : List α) : List (List α) := (rest.splitOn sep).modifyHead (cur ++ ·)

theorem piecesFrom_nil_left (sep : α) (rest : List α) : piecesFrom sep [] rest = rest.splitOn sep := by
  unfold piecesFrom
  cases rest.splitOn sep <;> simp

@[simp] theorem piecesFrom_nil (sep : α) (cur : List α) : piecesFrom sep cur [] = [cur] := by simp [piecesFrom]

theorem piecesFrom_sep (cur rest : List α) : piecesFrom sep cur (sep :: rest) = cur :: piecesFrom sep [] rest := by
  rw [piecesFrom_nil_left, piecesFrom, List.splitOn_cons_eq_if_modifyHead, if_pos (beq_self_eq_true sep),
    List.modifyHead_cons, List.append_nil]

theorem piecesFrom_other {c : α} (h : c ≠ sep) (cur rest : List α) :
    piecesFrom sep cur (c :: rest) = piecesFrom sep (cur ++ [c]) rest := by
  rw [piecesFrom, List.splitOn_cons_eq_if_modifyHead, if_neg (by simpa using h), List.modifyHead_modifyHead, piecesFrom]
  congr 1
  funext p
  simp

/-- The first piece starts with what is read of it. -/
theorem piecesFrom_eq_cons (sep : α) (cur rest : List α) : ∃ p ps, piecesFrom sep cur rest = (cur ++ p) :: ps := by
  obtain ⟨p, ps, h⟩ := List.exists_cons_of_ne_nil (List.splitOn_ne_nil sep rest)
  exact ⟨p, ps, by rw [piecesFrom, h, List.modifyHead_cons]⟩

/-! ## Room for the lines -/

/-- The pieces without an empty last one are at most `n`, of at most `w` elements each. -/
def PiecesFit (n w : Nat) (ps : List (List α)) : Prop :=
  (∀ p ∈ ps, p.length ≤ w) ∧ (ps.length ≤ n ∨ ps.length = n + 1 ∧ ps.getLast? = some [])

theorem piecesFit_of_lines (hn : (textLines sep l).length ≤ n) (hw : ∀ p ∈ textLines sep l, p.length ≤ w) :
    PiecesFit n w (piecesFrom sep [] l) := by
  rw [piecesFrom_nil_left]
  unfold textLines at hn hw
  split at hn
  · rename_i hlast
    rw [if_pos hlast] at hw
    obtain ⟨ps, hps⟩ := List.getLast?_eq_some_iff.mp hlast
    rw [hps, List.dropLast_concat] at hn hw
    rw [hps]
    refine ⟨fun p hp => ?_, ?_⟩
    · rcases List.mem_append.mp hp with hp | hp
      · exact hw p hp
      · rw [List.mem_singleton.mp hp]
        exact Nat.zero_le _
    · rw [List.length_append, List.length_singleton]
      by_cases hlt : ps.length + 1 ≤ n
      · exact .inl hlt
      · exact .inr ⟨by omega, List.getLast?_concat⟩
  · rename_i hlast
    rw [if_neg hlast] at hw
    exact ⟨hw, .inl hn⟩

variable {cur rest : List α} {ls : List (List α)}

/-- A separator comes: there is room for the line. -/
theorem PiecesFit.at_sep (h : PiecesFit n w (ls ++ piecesFrom sep cur (sep :: rest))) : ls.length < n ∧ cur.length ≤ w := by
  obtain ⟨hw, hn⟩ := h
  rw [piecesFrom_sep] at hw hn
  obtain ⟨p, ps, hps⟩ := piecesFrom_eq_cons sep [] rest
  rw [hps, List.length_append, List.length_cons, List.length_cons] at hn
  exact ⟨by omega, hw cur (by simp)⟩

/-- Part of a line is read: there is room for it. -/
theorem PiecesFit.at_part (h : PiecesFit n w (ls ++ piecesFrom sep cur rest)) :
    cur.length ≤ w ∧ (cur ≠ [] → ls.length < n) := by
  obtain ⟨hw, hn⟩ := h
  obtain ⟨p, ps, hps⟩ := piecesFrom_eq_cons sep cur rest
  rw [hps] at hw hn
  have hlen := hw (cur ++ p) (by simp)
  rw [List.length_append] at hlen
  refine ⟨by omega, fun hne => ?_⟩
  rw [List.length_append, List.length_cons] at hn
  rcases hn with hn | ⟨hn, hlast⟩
  · omega
  · cases ps with
    | nil =>
      rw [List.getLast?_concat] at hlast
      exact absurd (List.append_eq_nil_iff.mp (Option.some.inj hlast)).1 hne
    | cons q ps =>
      rw [List.length_cons] at hn
      omega

/-- Another element comes: there is room for it. -/
theorem PiecesFit.at_other {c : α} (hc : c ≠ sep) (h : PiecesFit n w (ls ++ piecesFrom sep cur (c :: rest))) :
    ls.length < n ∧ cur.length < w := by
  rw [piecesFrom_other hc] at h
  have hcur := h.at_part
  rw [List.length_append, List.length_singleton] at hcur
  exact ⟨hcur.2 (by simp), by omega⟩

/-! ## Joining the lines -/

/-- The last piece is left out when it is empty and not the only one. -/
theorem intercalate_lines (h : ls ++ [cur] = piecesFrom sep [] l) :
    [sep].intercalate (if cur = [] ∧ ls ≠ [] then ls else ls ++ [cur]) = dropFinal sep l := by
  rw [piecesFrom_nil_left] at h
  have hl : [sep].intercalate (ls ++ [cur]) = l := by rw [h, List.intercalate_splitOn]
  unfold dropFinal
  split
  · rename_i hc
    obtain ⟨rfl, hne⟩ := hc
    rw [intercalate_concat_nil sep hne] at hl
    rw [← hl, if_pos List.getLast?_concat, List.dropLast_concat]
  · rename_i hc
    rw [hl, if_neg]
    intro hlast
    obtain ⟨l', rfl⟩ := List.getLast?_eq_some_iff.mp hlast
    rw [List.splitOn_append_cons_self, List.splitOn_nil] at h
    obtain ⟨rfl, hcur⟩ := List.append_inj' h rfl
    exact hc ⟨List.singleton_inj.mp hcur, List.splitOn_ne_nil sep l'⟩

/-! ## A text cut off -/

theorem prefix_dropFinal (sep : α) (l : List α) : dropFinal sep l <+: l := by
  unfold dropFinal
  split
  · exact List.dropLast_prefix l
  · exact List.prefix_refl l

/-- Nothing is lost of a text that is short enough and has no separator at its end. -/
theorem dropFinal_take_eq_iff : dropFinal sep (l.take n) = l ↔ l.length ≤ n ∧ l.getLast? ≠ some sep := by
  constructor
  · intro h
    have hlen := (prefix_dropFinal sep (l.take n)).length_le
    rw [h, List.length_take] at hlen
    have hn : l.length ≤ n := by omega
    rw [List.take_of_length_le hn] at h
    refine ⟨hn, fun hlast => ?_⟩
    obtain ⟨l', rfl⟩ := List.getLast?_eq_some_iff.mp hlast
    rw [dropFinal, if_pos hlast, List.dropLast_concat] at h
    simpa using congrArg List.length h
  · rintro ⟨hn, hlast⟩
    rw [List.take_of_length_le hn, dropFinal, if_neg hlast]

/-- The number of elements of a text whose lines fit. -/
theorem PiecesFit.length_le (h : PiecesFit n w (piecesFrom sep [] l)) : l.length ≤ (n + 1) * (w + 1) := by
  rw [piecesFrom_nil_left] at h
  calc l.length = ([sep].intercalate (l.splitOn sep)).length := by rw [List.intercalate_splitOn]
    _ ≤ (l.splitOn sep).length * (w + 1) := length_intercalate_le sep h.1
    _ ≤ (n + 1) * (w + 1) := Nat.mul_le_mul_right _ (h.2.elim (fun hn => by omega) fun hn => le_of_eq hn.1)

end Lines

end AmqOs.Lib
