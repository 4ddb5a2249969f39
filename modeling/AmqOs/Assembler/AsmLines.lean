import AmqOs.Assembler.AsmOutcome

/-!
# Line by line

`asm_program` copies each line through a buffer of 255 characters, and takes what is left of a longer line as a line of
its own. `programCalls` lists the strings that it passes to `asm_line`. They are the lines of the text, up to the first
that fails, if and only if none of these is longer than the buffer; then the code is the concatenation of their
encodings, unless the code of the last one has no room, and the line number that is reported is that of the first
failing line (`asmProgram_lineByLine_iff`).
-/

set_option autoImplicit false

namespace AmqOs.Assembler

open AmqOs.Lib

/-! ## Lines of a text -/

/-- The lines of a text, which end at its newlines. -/
def splitLines : List Char → List (List Char)
  | [] => []
  | c :: text =>
    if c = '\n' then [] :: splitLines text
    else
      match splitLines text with
      | [] => [[c]]
      | line :: lines => (c :: line) :: lines

/-- The lines up to the first that fails. -/
def reached : AsmContext → List (List Char) → List (List Char)
  | _, [] => []
  | ctx, line :: lines => line :: if (asmLine ctx line).1 < 0 then [] else reached (asmLine ctx line).2 lines

/-- The number of the first line that fails. -/
def firstFailing : Nat → AsmContext → List (List Char) → Option Nat
  | _, _, [] => none
  | lineNum, ctx, line :: lines =>
    if (asmLine ctx line).1 < 0 then some lineNum else firstFailing (lineNum + 1) (asmLine ctx line).2 lines

/-! ## The strings that are passed on -/

/-- One iteration of `asm_program`: the line in the buffer, and the text after it. -/
def takeLine (program : List Char) : List Char × List Char :=
  let (line, rest) := scan (fun c => !(c = '\n')) 255 program
  (line, if charAt rest 0 = '\n' then rest.drop 1 else rest)

/-- The strings that the loop of `asm_program` passes to `asm_line`. -/
def programCalls : Nat → AsmContext → List Char → List (List Char)
  | _, _, [] => []
  | 0, _, _ :: _ => []
  | fuel + 1, ctx, c :: program =>
    let (line, rest) := takeLine (c :: program)
    line :: if (asmLine ctx line).1 < 0 then [] else programCalls fuel (asmLine ctx line).2 rest

/-- A line with nothing but blanks before `;` or `#`. -/
def IsComment (line : List Char) : Prop := ∃ c rest, line.dropWhile isBlank = c :: rest ∧ (c = ';' ∨ c = '#')

/-- `asm_program` on a fresh context behaves as `asm_line` applied in order to the lines of the text. -/
structure LineByLine (program : List Char) : Prop where
  calls : programCalls program.length asmInit program = reached asmInit (splitLines program)
  success : (asmProgram asmInit program).1 = 0 → (asmProgram asmInit program).2.code = (splitLines program).flatMap lineCode
  failure : (asmProgram asmInit program).1 ≠ 0 → ∃ lineNum msg, firstFailing 1 asmInit (splitLines program) = some lineNum ∧
    (asmProgram asmInit program).2.errorMsg = ("Line ".toList ++ Nat.toDigits 10 lineNum ++ ": ".toList ++ msg).take 255
  comment : ∀ line ∈ splitLines program, IsComment line → lineCode line = []

section Lines

variable {line : List Char} {lines : List (List Char)} {ctx : AsmContext} {program : List Char} {fuel lineNum : Nat}

theorem programLoop_cons (fuel lineNum : Nat) (ctx : AsmContext) (c : Char) (program : List Char) :
    programLoop (fuel + 1) lineNum ctx (c :: program) =
      if (asmLine ctx (takeLine (c :: program)).1).1 < 0 then
        (-1, lineError (asmLine ctx (takeLine (c :: program)).1).2 lineNum)
      else programLoop fuel (lineNum + 1) (asmLine ctx (takeLine (c :: program)).1).2 (takeLine (c :: program)).2 := rfl

/-- The loop is `asm_line` applied to the strings that it passes. -/
theorem programLoop_calls (fuel lineNum : Nat) (ctx : AsmContext) (program : List Char) :
    programLoop fuel lineNum ctx program = runLines lineNum ctx (programCalls fuel ctx program) := by
  induction fuel generalizing lineNum ctx program with
  | zero => cases program <;> rfl
  | succ fuel ih =>
    cases program with
    | nil => rfl
    | cons c program =>
      rw [programLoop_cons]
      simp only [programCalls, runLines]
      split
      · rfl
      · exact ih _ _ _

theorem length_takeLine (program : List Char) : (takeLine program).1.length ≤ 255 := length_scan_le 255 program

/-- Every string that is passed on fits the buffer. -/
theorem length_programCalls (fuel : Nat) (ctx : AsmContext) (program : List Char) :
    ∀ line ∈ programCalls fuel ctx program, line.length ≤ 255 := by
  induction fuel generalizing ctx program with
  | zero => cases program <;> simp [programCalls]
  | succ fuel ih =>
    cases program with
    | nil => simp [programCalls]
    | cons c program =>
      simp only [programCalls, List.forall_mem_cons]
      refine ⟨length_takeLine _, ?_⟩
      split
      · simp
      · exact ih _ _

/-- The first line of a text, and the others. -/
theorem splitLines_cons (c : Char) (program : List Char) : splitLines (c :: program) =
    (c :: program).takeWhile (fun c => !(c = '\n')) ::
      splitLines (((c :: program).dropWhile fun c => !(c = '\n')).drop 1) := by
  induction program generalizing c with
  | nil =>
    by_cases hc : c = '\n' <;> simp [splitLines, hc]
  | cons d program ih =>
    by_cases hc : c = '\n'
    · simp [splitLines, hc]
    · rw [splitLines, if_neg hc, ih d]
      simp [hc]

/-- A line that fits the buffer is taken whole. -/
theorem takeLine_short (h : (program.takeWhile fun c => !(c = '\n')).length ≤ 255) :
    takeLine program = (program.takeWhile (fun c => !(c = '\n')), (program.dropWhile fun c => !(c = '\n')).drop 1) := by
  simp only [takeLine, scan_short h, Prod.mk.injEq, true_and]
  have hstop := stopsAt_dropWhile (fun c => !(decide (c = '\n'))) program
  cases hrest : program.dropWhile fun c => !(decide (c = '\n')) with
  | nil => simp [charAt]
  | cons c rest =>
    have hc : c = '\n' := by simpa using hstop c rest hrest
    simp [charAt, hc]

theorem not_newline {line : List Char} (hline : '\n' ∉ line) : ∀ c ∈ line, (!(decide (c = '\n'))) = true := by
  intro c hc
  have hne : c ≠ '\n' := fun h => hline (h ▸ hc)
  simp [hne]

/-- A line with its newline is taken off. -/
theorem takeLine_line (hline : '\n' ∉ line) (hlen : line.length ≤ 255) (rest : List Char) :
    takeLine (line ++ '\n' :: rest) = (line, rest) := by
  have hscan : scan (fun c => !(decide (c = '\n'))) 255 (line ++ '\n' :: rest) = (line, '\n' :: rest) :=
    scan_append (not_newline hline) hlen (stopsAt_cons (by decide))
  simp [takeLine, hscan, charAt]

/-- The last line need not have one. -/
theorem takeLine_last (hline : '\n' ∉ line) (hlen : line.length ≤ 255) : takeLine line = (line, []) := by
  have hscan := scan_append (not_newline hline) hlen stopsAt_nil
  rw [List.append_nil] at hscan
  simp [takeLine, hscan, charAt]

/-- The text after a line is shorter. -/
theorem length_rest_le (c : Char) (program : List Char) :
    (((c :: program).dropWhile fun c => !(c = '\n')).drop 1).length ≤ program.length := by
  have hle : ((c :: program).dropWhile fun c => !(decide (c = '\n'))).length ≤ program.length + 1 :=
    List.length_dropWhile_le _ _
  rw [List.length_drop]
  omega

/-- **The lines that are reached** are passed on when they fit the buffer. -/
theorem programCalls_reached (hfuel : program.length ≤ fuel)
    (hshort : ∀ line ∈ reached ctx (splitLines program), line.length ≤ 255) :
    programCalls fuel ctx program = reached ctx (splitLines program) := by
  induction fuel generalizing ctx program with
  | zero =>
    obtain rfl := List.length_eq_zero_iff.mp (Nat.le_zero.mp hfuel)
    rfl
  | succ fuel ih =>
    cases program with
    | nil => rfl
    | cons c program =>
      rw [splitLines_cons] at hshort ⊢
      simp only [reached, List.forall_mem_cons] at hshort ⊢
      simp only [programCalls, takeLine_short hshort.1]
      split
      · rfl
      · rename_i hok
        rw [ih ((length_rest_le c program).trans (Nat.le_of_succ_le_succ hfuel)) (by simpa [hok] using hshort.2)]

theorem runLines_reached (lineNum : Nat) (ctx : AsmContext) (lines : List (List Char)) :
    runLines lineNum ctx (reached ctx lines) = runLines lineNum ctx lines := by
  induction lines generalizing lineNum ctx with
  | nil => rfl
  | cons line lines ih =>
    simp only [reached, runLines]
    split
    · rfl
    · exact ih _ _

theorem asmProgram_runLines (hshort : ∀ line ∈ reached asmInit (splitLines program), line.length ≤ 255) :
    asmProgram asmInit program = runLines 1 asmInit (splitLines program) := by
  rw [asmProgram, programLoop_calls, programCalls_reached (le_refl _) hshort, runLines_reached]

/-- A failure is that of the first failing line. -/
theorem runLines_failing (h : (runLines lineNum ctx lines).1 ≠ 0) :
    ∃ n msg, firstFailing lineNum ctx lines = some n ∧
      (runLines lineNum ctx lines).2.errorMsg = ("Line ".toList ++ Nat.toDigits 10 n ++ ": ".toList ++ msg).take 255 := by
  induction lines generalizing lineNum ctx with
  | nil => exact absurd rfl h
  | cons line lines ih =>
    simp only [runLines, firstFailing] at h ⊢
    split
    · exact ⟨lineNum, _, rfl, rfl⟩
    · rename_i hok
      rw [if_neg hok] at h
      exact ih h

theorem lineCode_comment (h : IsComment line) : lineCode line = [] := by
  obtain ⟨c, rest, hdrop, rfl | rfl⟩ := h <;> simp [lineCode, asmLine, hdrop, asmInit]

/-- **Line by line.** -/
theorem asmProgram_lineByLine_iff (program : List Char) : LineByLine program ↔
    (∀ line ∈ reached asmInit (splitLines program), line.length ≤ 255) ∧ ¬OverflowsLast 0 (splitLines program) := by
  constructor
  · intro h
    have hshort : ∀ line ∈ reached asmInit (splitLines program), line.length ≤ 255 := by
      rw [← h.calls]
      exact length_programCalls _ _ _
    refine ⟨hshort, fun hover => ?_⟩
    have hsuccess := h.success
    rw [asmProgram_runLines hshort] at hsuccess
    rcases runLines_fresh (splitLines program) with ⟨-, hfit, -⟩ | ⟨-, hzero, -, hlen⟩ | ⟨hnot, -⟩
    · have hlarge := hover.2.2
      omega
    · have hlarge := hover.2.2
      rw [hsuccess hzero] at hlen
      change totalSize (splitLines program) ≤ maxAsmSize at hlen
      omega
    · exact hnot hover
  · rintro ⟨hshort, hroom⟩
    refine ⟨programCalls_reached (le_refl _) hshort, ?_, ?_, ?_⟩
    · rw [asmProgram_runLines hshort]
      rcases runLines_fresh (splitLines program) with ⟨-, -, hrun⟩ | ⟨hover, -⟩ | ⟨-, hfail⟩
      · rw [hrun]
        exact fun _ => rfl
      · exact absurd hover hroom
      · intro hzero
        rw [hfail] at hzero
        cases hzero
    · rw [asmProgram_runLines hshort]
      exact runLines_failing
    · exact fun line _ => lineCode_comment

end Lines

/-- A comment of 255 characters, and `nop` in the same line. -/
def longComment : List Char := '#' :: List.replicate 254 'a' ++ ['n', 'o', 'p']

/-- The rest of the comment is assembled. -/
theorem longComment_emits : (asmProgram asmInit longComment).1 = 0 ∧ (asmProgram asmInit longComment).2.code = [0x90] ∧
    (splitLines longComment).flatMap lineCode = [] ∧ ¬LineByLine longComment := by
  have hzero : (asmProgram asmInit longComment).1 = 0 := by decide +kernel
  have hcode : (asmProgram asmInit longComment).2.code = [0x90] := by decide +kernel
  have hlines : (splitLines longComment).flatMap lineCode = [] := by decide +kernel
  refine ⟨hzero, hcode, hlines, fun h => ?_⟩
  have hsuccess := h.success hzero
  rw [hcode, hlines] at hsuccess
  cases hsuccess

end AmqOs.Assembler
