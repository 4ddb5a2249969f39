import AmqOs.Assembler.AsmLines

/-!
# The size of the code

When the code of an instruction has no room `asm_emit` sets the error, but `asm_line` returns 0 all the same: the next
call of `asm_line` finds the error. After the last line there is no next call, so `asm_program` returns 0 with bytes
dropped if and only if all lines are accepted and only the code of the last one has no room (`asmProgram_size_iff`).

The lines are those that `asm_program` takes (`chunks`), which are the lines of the text when these fit its buffer.
-/

set_option autoImplicit false

namespace AmqOs.Assembler

open AmqOs.Lib

/-- The lines that `asm_program` takes from a text, at most `fuel` of them. -/
def chunksFrom : Nat → List Char → List (List Char)
  | _, [] => []
  | 0, _ :: _ => []
  | fuel + 1, c :: program => (takeLine (c :: program)).1 :: chunksFrom fuel (takeLine (c :: program)).2

def chunks (program : List Char) : List (List Char) := chunksFrom program.length program

/-- `asm_get_code`. -/
def asmGetCode (ctx : AsmContext) : Option (List UInt8) := if ctx.error then none else some ctx.code

/-- No emitted byte is dropped when `asm_program` returns 0, and it returns -1 when there is no room for all of them. -/
structure SizeOk (program : List Char) : Prop where
  success : (asmProgram asmInit program).1 = 0 → (asmProgram asmInit program).2.error = false ∧
    (asmProgram asmInit program).2.code.length ≤ maxAsmSize ∧
    (asmProgram asmInit program).2.code.length = totalSize (chunks program) ∧
    asmGetCode (asmProgram asmInit program).2 = some ((chunks program).flatMap lineCode)
  overflow : maxAsmSize < totalSize (chunks program) → (asmProgram asmInit program).1 = -1

section Chunks

variable {program : List Char} {fuel : Nat}

theorem programLoop_chunks (fuel lineNum : Nat) (ctx : AsmContext) (program : List Char) :
    programLoop fuel lineNum ctx program = runLines lineNum ctx (chunksFrom fuel program) := by
  induction fuel generalizing lineNum ctx program with
  | zero => cases program <;> rfl
  | succ fuel ih =>
    cases program with
    | nil => rfl
    | cons c program =>
      rw [programLoop_cons]
      simp only [chunksFrom, runLines]
      split
      · rfl
      · exact ih _ _ _

/-- Lines that fit the buffer are taken as they are. -/
theorem chunksFrom_splitLines (hfuel : program.length ≤ fuel) (hshort : ∀ line ∈ splitLines program, line.length ≤ 255) :
    chunksFrom fuel program = splitLines program := by
  induction fuel generalizing program with
  | zero =>
    obtain rfl := List.length_eq_zero_iff.mp (Nat.le_zero.mp hfuel)
    rfl
  | succ fuel ih =>
    cases program with
    | nil => rfl
    | cons c program =>
      rw [splitLines_cons] at hshort ⊢
      rw [List.forall_mem_cons] at hshort
      simp only [chunksFrom, takeLine_short hshort.1]
      rw [ih ((length_rest_le c program).trans (Nat.le_of_succ_le_succ hfuel)) hshort.2]

/-- **No byte is dropped** if and only if a line is rejected, or there is room for all the code, or none even without the
last line. -/
theorem asmProgram_size_iff (program : List Char) :
    (SizeOk program ↔ (∃ line ∈ chunks program, ¬Accepted line) ∨ totalSize (chunks program) ≤ maxAsmSize ∨
      maxAsmSize < totalSize (chunks program).dropLast) ∧
    ((∀ line ∈ splitLines program, line.length ≤ 255) → chunks program = splitLines program) := by
  refine ⟨?_, chunksFrom_splitLines (le_refl _)⟩
  have hrun : asmProgram asmInit program = runLines 1 asmInit (chunks program) := programLoop_chunks _ _ _ _
  have hcond : ((∃ line ∈ chunks program, ¬Accepted line) ∨ totalSize (chunks program) ≤ maxAsmSize ∨
      maxAsmSize < totalSize (chunks program).dropLast) ↔ ¬OverflowsLast 0 (chunks program) := by
    simp only [OverflowsLast, Nat.zero_add, not_and_or, not_forall, not_le, not_lt, exists_prop]
    exact or_congr Iff.rfl or_comm
  rw [hcond]
  constructor
  · intro h hover
    rcases runLines_fresh (chunks program) with ⟨-, hfit, -⟩ | ⟨-, hzero, herr, -⟩ | ⟨hnot, -⟩
    · have hlarge := hover.2.2
      omega
    · rw [← hrun] at hzero herr
      rw [(h.success hzero).1] at herr
      cases herr
    · exact hnot hover
  · intro hroom
    rcases runLines_fresh (chunks program) with ⟨-, hfit, hfits⟩ | ⟨hover, -⟩ | ⟨-, hfail⟩
    · refine ⟨fun _ => ?_, fun hlarge => ?_⟩
      · rw [hrun, hfits]
        exact ⟨rfl, hfit, rfl, rfl⟩
      · omega
    · exact absurd hover hroom
    · refine ⟨fun hzero => ?_, fun _ => ?_⟩
      · rw [hrun, hfail] at hzero
        cases hzero
      · rw [hrun, hfail]

end Chunks

/-! ## A program of `nop` -/

def nopProgram (n : Nat) : List Char := (List.replicate n ['n', 'o', 'p', '\n']).flatten

theorem nopProgram_succ (n : Nat) : nopProgram (n + 1) = 'n' :: 'o' :: 'p' :: '\n' :: nopProgram n := by
  simp [nopProgram, List.replicate_succ]

theorem chunksFrom_nopProgram (n k : Nat) : chunksFrom (n + k) (nopProgram n) = List.replicate n ['n', 'o', 'p'] := by
  induction n generalizing k with
  | zero => cases k <;> rfl
  | succ n ih =>
    have hline : takeLine ('n' :: 'o' :: 'p' :: '\n' :: nopProgram n) = (['n', 'o', 'p'], nopProgram n) := by
      simp [takeLine, scan, charAt]
    rw [nopProgram_succ, Nat.add_right_comm, chunksFrom, hline, ih, List.replicate_succ]

theorem length_nopProgram (n : Nat) : (nopProgram n).length = n + 3 * n := by
  simp [nopProgram]
  omega

theorem chunks_nopProgram (n : Nat) : chunks (nopProgram n) = List.replicate n ['n', 'o', 'p'] := by
  rw [chunks, length_nopProgram, chunksFrom_nopProgram]

theorem splitLines_nopProgram (n : Nat) : splitLines (nopProgram n) = List.replicate n ['n', 'o', 'p'] := by
  induction n with
  | zero => rfl
  | succ n ih => simp [nopProgram_succ, splitLines, ih, List.replicate_succ]

theorem flatMap_nop (n : Nat) : (List.replicate n ['n', 'o', 'p']).flatMap lineCode = List.replicate n 0x90 := by
  have hnop : lineCode ['n', 'o', 'p'] = [0x90] := by decide
  induction n with
  | zero => rfl
  | succ n ih => rw [List.replicate_succ, List.flatMap_cons, hnop, ih, List.replicate_succ]; rfl

theorem totalSize_nop (n : Nat) : totalSize (List.replicate n ['n', 'o', 'p']) = n := by
  rw [totalSize, flatMap_nop, List.length_replicate]

theorem nopProgram_overflows : OverflowsLast 0 (chunks (nopProgram (maxAsmSize + 1))) := by
  rw [chunks_nopProgram]
  refine ⟨fun line hline => ?_, ?_, ?_⟩
  · rw [List.eq_of_mem_replicate hline]
    decide
  · rw [List.dropLast_replicate, totalSize_nop]
    simp
  · rw [totalSize_nop]
    omega

/-- The 4097th `nop` is dropped, with the result 0. -/
theorem nopProgram_drops : (asmProgram asmInit (nopProgram 4097)).1 = 0 ∧
    (asmProgram asmInit (nopProgram 4097)).2.error = true ∧ totalSize (chunks (nopProgram 4097)) = 4097 ∧
    (∀ line ∈ splitLines (nopProgram 4097), line.length ≤ 255) ∧ ¬SizeOk (nopProgram 4097) := by
  have hover : OverflowsLast 0 (chunks (nopProgram 4097)) := nopProgram_overflows
  have hrun : asmProgram asmInit (nopProgram 4097) = runLines 1 asmInit (chunks (nopProgram 4097)) :=
    programLoop_chunks _ _ _ _
  have hresult : (asmProgram asmInit (nopProgram 4097)).1 = 0 ∧ (asmProgram asmInit (nopProgram 4097)).2.error = true := by
    rw [hrun]
    rcases runLines_fresh (chunks (nopProgram 4097)) with ⟨-, hfit, -⟩ | ⟨-, hzero, herr, -⟩ | ⟨hnot, -⟩
    · have hlarge := hover.2.2
      omega
    · exact ⟨hzero, herr⟩
    · exact absurd hover hnot
  refine ⟨hresult.1, hresult.2, ?_, fun line hline => ?_, fun h => ?_⟩
  · rw [chunks_nopProgram, totalSize_nop]
  · rw [splitLines_nopProgram] at hline
    simp [List.eq_of_mem_replicate hline]
  · have herr := (h.success hresult.1).1
    rw [hresult.2] at herr
    cases herr

end AmqOs.Assembler
