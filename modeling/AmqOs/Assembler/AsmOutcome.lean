import AmqOs.Assembler.AsmDefs

/-!
# What a line does

On a context without an error `asm_line` either fails, or emits bytes that do not depend on the context: the encoding of
the line (`lineCode`). Bytes for which there is no room are dropped and set the error, which only the next call of
`asm_line` looks at. So `asm_line` applied to a list of lines emits all their code, or returns 0 without the code of the
last line, or returns -1 (`runLines_fresh`).
-/

set_option autoImplicit false

namespace AmqOs.Assembler

open AmqOs.Lib

/-! ## Emitting -/

section Emit

variable {ctx : AsmContext} {bytes : List UInt8}

theorem emitBytes_eq (h : ctx.code.length + bytes.length ≤ maxAsmSize) :
    emitBytes ctx bytes = { ctx with code := ctx.code ++ bytes } := by
  induction bytes generalizing ctx with
  | nil => simp [emitBytes]
  | cons b bytes ih =>
    rw [List.length_cons] at h
    have hroom : ¬ ctx.code.length ≥ maxAsmSize := by omega
    have hstep : emitBytes ctx (b :: bytes) = emitBytes { ctx with code := ctx.code ++ [b] } bytes := by
      simp [emitBytes, asmEmit, hroom]
    rw [hstep, ih (by simp only [List.length_append, List.length_singleton]; omega)]
    simp

/-- The code does not grow beyond its array. -/
theorem asmEmit_length (b : UInt8) (hlen : ctx.code.length ≤ maxAsmSize) : (asmEmit ctx b).code.length ≤ maxAsmSize := by
  unfold asmEmit
  split
  · exact hlen
  · simp only [List.length_append, List.length_singleton]
    omega

theorem emitBytes_length (hlen : ctx.code.length ≤ maxAsmSize) : (emitBytes ctx bytes).code.length ≤ maxAsmSize := by
  induction bytes generalizing ctx with
  | nil => exact hlen
  | cons b bytes ih => exact ih (asmEmit_length b hlen)

/-- An error stays. -/
theorem emitBytes_error (herr : ctx.error = true) : (emitBytes ctx bytes).error = true := by
  induction bytes generalizing ctx with
  | nil => exact herr
  | cons b bytes ih =>
    refine ih ?_
    unfold asmEmit
    split
    · rfl
    · exact herr

/-- Bytes without room set the error. -/
theorem emitBytes_overflow (hne : bytes ≠ []) (h : maxAsmSize < ctx.code.length + bytes.length) :
    (emitBytes ctx bytes).error = true := by
  induction bytes generalizing ctx with
  | nil => exact absurd rfl hne
  | cons b bytes ih =>
    change (emitBytes (asmEmit ctx b) bytes).error = true
    rw [List.length_cons] at h
    unfold asmEmit
    split
    · exact emitBytes_error rfl
    · apply ih
      · rintro rfl
        simp only [List.length_nil] at h
        omega
      · simp only [List.length_append, List.length_singleton]
        omega

/-- Without an error there was room for the bytes. -/
theorem emitBytes_room (h : (emitBytes ctx bytes).error = false) (hne : bytes ≠ []) :
    ctx.code.length + bytes.length ≤ maxAsmSize := by
  by_contra hlarge
  rw [emitBytes_overflow hne (not_le.mp hlarge)] at h
  cases h

end Emit

/-! ## One outcome for all contexts -/

/-- The line is rejected, with a message. -/
def Rejects (f : AsmContext → Int × AsmContext) : Prop := ∃ msg, ∀ ctx, f ctx = fail ctx msg

/-- The bytes are emitted. -/
def Emits (f : AsmContext → Int × AsmContext) (bytes : List UInt8) : Prop :=
  bytes ≠ [] ∧ bytes.length ≤ 10 ∧ ∀ ctx, f ctx = done ctx bytes

/-- What a line does does not depend on the context. -/
def Acts (f : AsmContext → Int × AsmContext) : Prop := Rejects f ∨ ∃ bytes, Emits f bytes

section Acts

theorem acts_fail (msg : String) : Acts fun ctx => fail ctx msg := Or.inl ⟨msg, fun _ => rfl⟩

theorem acts_done {bytes : List UInt8} (hne : 0 < bytes.length) (hlen : bytes.length ≤ 10) : Acts fun ctx => done ctx bytes :=
  Or.inr ⟨bytes, List.length_pos_iff.mp hne, hlen, fun _ => rfl⟩

theorem acts_ite {c : Prop} [Decidable c] {f g : AsmContext → Int × AsmContext} (hf : Acts f) (hg : Acts g) :
    Acts fun ctx => if c then f ctx else g ctx := by
  by_cases hc : c
  · simp only [if_pos hc]
    exact hf
  · simp only [if_neg hc]
    exact hg

theorem length_regReg (opcode : UInt8) (dst src : Nat) : (regReg opcode dst src).length = 3 := by
  unfold regReg
  split <;> rfl

theorem length_oneReg (opcode base : UInt8) (reg : Nat) : (oneReg opcode base reg).length = 3 := by
  unfold oneReg
  split <;> rfl

theorem length_shortReg (base : UInt8) (reg : Nat) : 0 < (shortReg base reg).length ∧ (shortReg base reg).length ≤ 10 := by
  unfold shortReg
  split <;> simp

theorem length_immBytes (n : Nat) (imm : Int) : (immBytes n imm).length = n := by simp [immBytes]

theorem acts_regReg (opcode : UInt8) (dst src : Nat) : Acts fun ctx => done ctx (regReg opcode dst src) := by
  have hlen := length_regReg opcode dst src
  exact acts_done (by omega) (by omega)

theorem acts_oneReg (opcode base : UInt8) (reg : Nat) : Acts fun ctx => done ctx (oneReg opcode base reg) := by
  have hlen := length_oneReg opcode base reg
  exact acts_done (by omega) (by omega)

/-- An instruction with a register and an immediate. -/
theorem acts_oneReg_imm (opcode base : UInt8) (reg : Nat) {n : Nat} (hn : n ≤ 4) (imm : Int) :
    Acts fun ctx => done ctx (oneReg opcode base reg ++ immBytes n imm) := by
  have hlen : (oneReg opcode base reg ++ immBytes n imm).length = 3 + n := by
    rw [List.length_append, length_oneReg, length_immBytes]
  exact acts_done (by omega) (by omega)

variable (arg1 arg2 : List Char)

theorem acts_lineMov : Acts fun ctx => lineMov ctx arg1 arg2 := by
  unfold lineMov
  cases parseRegister arg1 with
  | none => exact acts_fail _
  | some reg1 =>
    cases parseRegister arg2 with
    | some reg2 => exact acts_regReg _ _ _
    | none =>
      refine acts_ite ?_ (acts_oneReg_imm _ _ _ (le_refl 4) _)
      exact acts_done (by simp [asmMovRaxImm64]) (by simp [asmMovRaxImm64, length_immBytes])

theorem acts_lineRegImm (msg : String) {regs : Nat → Nat → List UInt8} {imm8 : Nat → Int → List UInt8}
    (hregs : ∀ dst src, Acts fun ctx => done ctx (regs dst src)) (himm : ∀ reg imm, Acts fun ctx => done ctx (imm8 reg imm)) :
    Acts fun ctx => lineRegImm ctx arg1 arg2 msg regs imm8 := by
  unfold lineRegImm
  cases parseRegister arg1 with
  | none => exact acts_fail _
  | some reg1 =>
    cases parseRegister arg2 with
    | some reg2 => exact hregs _ _
    | none => exact acts_ite (himm _ _) (acts_fail _)

theorem acts_lineRegs {regs : Nat → Nat → List UInt8} (hregs : ∀ dst src, Acts fun ctx => done ctx (regs dst src)) :
    Acts fun ctx => lineRegs ctx arg1 arg2 regs := by
  unfold lineRegs
  cases parseRegister arg1 with
  | none => exact acts_fail _
  | some reg1 =>
    cases parseRegister arg2 with
    | none => exact acts_fail _
    | some reg2 => exact hregs _ _

theorem acts_lineCall : Acts fun ctx => lineCall ctx arg1 := by
  unfold lineCall
  cases parseRegister arg1 with
  | none => exact acts_done (by simp [asmCallRel32]) (by simp [asmCallRel32, length_immBytes])
  | some reg => exact acts_oneReg _ _ _

theorem acts_lineReg {encode : Nat → List UInt8} (hencode : ∀ reg, Acts fun ctx => done ctx (encode reg)) :
    Acts fun ctx => lineReg ctx arg1 encode := by
  unfold lineReg
  cases parseRegister arg1 with
  | none => exact acts_fail _
  | some reg => exact hencode _

theorem acts_lineShift {encode : Nat → Int → List UInt8} (hencode : ∀ reg imm, Acts fun ctx => done ctx (encode reg imm)) :
    Acts fun ctx => lineShift ctx arg1 arg2 encode := by
  unfold lineShift
  cases parseRegister arg1 with
  | none => exact acts_fail _
  | some reg => exact acts_ite (acts_fail _) (hencode _ _)

theorem acts_shortReg (base : UInt8) (reg : Nat) : Acts fun ctx => done ctx (shortReg base reg) :=
  acts_done (length_shortReg base reg).1 (length_shortReg base reg).2

theorem acts_assemble (mnemonic : List Char) : Acts fun ctx => assemble ctx mnemonic arg1 arg2 := by
  have himm8 : ∀ opcode base reg imm, Acts fun ctx => done ctx (oneReg opcode base reg ++ immBytes 1 imm) :=
    fun opcode base reg imm => acts_oneReg_imm opcode base reg (by omega) imm
  unfold assemble
  refine acts_ite (acts_lineMov arg1 arg2) ?_
  refine acts_ite (acts_lineRegImm _ _ _ (acts_regReg 0x01) (himm8 0x83 0xC0)) ?_
  refine acts_ite (acts_lineRegImm _ _ _ (acts_regReg 0x29) (himm8 0x83 0xE8)) ?_
  refine acts_ite (acts_lineRegs _ _ (acts_regReg 0x31)) ?_
  refine acts_ite (acts_lineRegs _ _ (acts_regReg 0x09)) ?_
  refine acts_ite (acts_lineRegs _ _ (acts_regReg 0x21)) ?_
  refine acts_ite (acts_lineRegImm _ _ _ (acts_regReg 0x39) (himm8 0x83 0xF8)) ?_
  refine acts_ite (acts_lineCall arg1) ?_
  refine acts_ite (acts_lineReg _ (acts_shortReg 0x50)) ?_
  refine acts_ite (acts_lineReg _ (acts_shortReg 0x58)) ?_
  refine acts_ite (acts_lineReg _ (acts_oneReg 0xFF 0xC0)) ?_
  refine acts_ite (acts_lineReg _ (acts_oneReg 0xFF 0xC8)) ?_
  refine acts_ite (acts_lineReg _ (acts_oneReg 0xF7 0xD8)) ?_
  refine acts_ite (acts_lineReg _ (acts_oneReg 0xF7 0xD0)) ?_
  refine acts_ite (acts_lineShift _ _ (himm8 0xC1 0xE0)) ?_
  refine acts_ite (acts_lineShift _ _ (himm8 0xC1 0xE8)) ?_
  refine acts_ite (acts_done (by decide) (by decide)) ?_
  refine acts_ite (acts_done (by decide) (by decide)) ?_
  exact acts_ite (acts_done (by decide) (by decide)) (acts_fail _)

end Acts

/-! ## The encoding of a line -/

/-- What `asm_line` emits for the line into a fresh context. -/
def lineCode (line : List Char) : List UInt8 := (asmLine asmInit line).2.code

/-- `asm_line` accepts the line on a fresh context. -/
def Accepted (line : List Char) : Prop := (asmLine asmInit line).1 = 0

instance (line : List Char) : Decidable (Accepted line) := inferInstanceAs (Decidable ((asmLine asmInit line).1 = 0))

section Lines

variable {line : List Char} {ctx : AsmContext}

theorem asmLine_error (herr : ctx.error = true) : asmLine ctx line = (-1, ctx) := if_pos herr

/-- What a line does on a context without an error. -/
theorem asmLine_acts (line : List Char) : (∃ msg, ∀ ctx, ctx.error = false → asmLine ctx line = fail ctx msg) ∨
    ∃ bytes, bytes.length ≤ 10 ∧ ∀ ctx, ctx.error = false → asmLine ctx line = done ctx bytes := by
  unfold asmLine
  cases line.dropWhile isBlank with
  | nil => exact Or.inr ⟨[], Nat.zero_le _, fun ctx herr => if_neg (by simp [herr])⟩
  | cons c line =>
    by_cases hc : (c = ';' || c = '#') = true
    · refine Or.inr ⟨[], Nat.zero_le _, fun ctx herr => ?_⟩
      simp only [herr, hc]
      rfl
    · simp only [hc]
      rcases acts_assemble (splitLine (c :: line)).2.1 (splitLine (c :: line)).2.2 (splitLine (c :: line)).1 with
        ⟨msg, hmsg⟩ | ⟨bytes, -, hlen, hbytes⟩
      · exact Or.inl ⟨msg, fun ctx herr => (if_neg (by simp [herr])).trans (hmsg ctx)⟩
      · exact Or.inr ⟨bytes, hlen, fun ctx herr => (if_neg (by simp [herr])).trans (hbytes ctx)⟩

/-- A line that is accepted emits its encoding into every context without an error. -/
theorem asmLine_accepted (h : Accepted line) (herr : ctx.error = false) : asmLine ctx line = done ctx (lineCode line) := by
  rcases asmLine_acts line with ⟨msg, hmsg⟩ | ⟨bytes, hlen, hbytes⟩
  · rw [Accepted, hmsg asmInit rfl] at h
    cases h
  · have hfit : (asmInit.code.length + bytes.length) ≤ maxAsmSize := by
      rw [show asmInit.code.length = 0 from rfl, maxAsmSize]
      omega
    have hcode : lineCode line = bytes := by
      rw [lineCode, hbytes asmInit rfl, done, emitBytes_eq hfit]
      rfl
    rw [hbytes ctx herr, hcode]

theorem asmLine_rejected (h : ¬Accepted line) (herr : ctx.error = false) : ∃ msg, asmLine ctx line = fail ctx msg := by
  rcases asmLine_acts line with ⟨msg, hmsg⟩ | ⟨bytes, -, hbytes⟩
  · exact ⟨msg, hmsg ctx herr⟩
  · refine absurd ?_ h
    rw [Accepted, hbytes asmInit rfl]
    rfl

end Lines

/-! ## Lines in order -/

/-- `asm_line` applied to the lines, up to the first that fails. -/
def runLines : Nat → AsmContext → List (List Char) → Int × AsmContext
  | _, ctx, [] => (0, ctx)
  | lineNum, ctx, line :: lines =>
    let (result, ctx) := asmLine ctx line
    if result < 0 then (-1, lineError ctx lineNum) else runLines (lineNum + 1) ctx lines

/-- The lengths of the encodings. -/
def totalSize (lines : List (List Char)) : Nat := (lines.flatMap lineCode).length

/-- All lines are accepted, and only the code of the last one has no room. -/
def OverflowsLast (used : Nat) (lines : List (List Char)) : Prop :=
  (∀ line ∈ lines, Accepted line) ∧ used + totalSize lines.dropLast ≤ maxAsmSize ∧ maxAsmSize < used + totalSize lines

section Run

variable {line : List Char} {lines : List (List Char)} {ctx : AsmContext}

theorem totalSize_cons (line : List Char) (lines : List (List Char)) :
    totalSize (line :: lines) = (lineCode line).length + totalSize lines := by
  simp [totalSize]

theorem runLines_error (herr : ctx.error = true) (lineNum : Nat) :
    runLines lineNum ctx (line :: lines) = (-1, lineError ctx lineNum) := by
  simp [runLines, asmLine_error herr]

theorem runLines_accepted (h : Accepted line) (herr : ctx.error = false) (lineNum : Nat) :
    runLines lineNum ctx (line :: lines) = runLines (lineNum + 1) (emitBytes ctx (lineCode line)) lines := by
  simp [runLines, asmLine_accepted h herr, done]

theorem runLines_rejected (h : ¬Accepted line) (herr : ctx.error = false) (lineNum : Nat) :
    (runLines lineNum ctx (line :: lines)).1 = -1 := by
  obtain ⟨msg, hmsg⟩ := asmLine_rejected h herr
  simp [runLines, hmsg, fail]

/-- Lines that are accepted and for whose code there is room. -/
theorem runLines_fits (hall : ∀ line ∈ lines, Accepted line) (herr : ctx.error = false)
    (hfit : ctx.code.length + totalSize lines ≤ maxAsmSize) (lineNum : Nat) :
    runLines lineNum ctx lines = (0, { ctx with code := ctx.code ++ lines.flatMap lineCode }) := by
  induction lines generalizing ctx lineNum with
  | nil => simp [runLines]
  | cons line lines ih =>
    rw [totalSize_cons] at hfit
    have hrest : (ctx.code ++ lineCode line).length + totalSize lines ≤ maxAsmSize := by
      rw [List.length_append]
      omega
    rw [runLines_accepted (hall line List.mem_cons_self) herr, emitBytes_eq (by omega)]
    refine (ih (fun l hl => hall l (List.mem_cons_of_mem _ hl)) (by exact herr) hrest _).trans ?_
    simp

theorem overflowsLast_cons {used : Nat} (hne : lines ≠ []) : OverflowsLast used (line :: lines) ↔
    Accepted line ∧ OverflowsLast (used + (lineCode line).length) lines := by
  unfold OverflowsLast
  rw [List.dropLast_cons_of_ne_nil hne, totalSize_cons, totalSize_cons, List.forall_mem_cons]
  constructor
  · rintro ⟨⟨hline, hall⟩, hlo, hhi⟩
    exact ⟨hline, hall, by omega, by omega⟩
  · rintro ⟨hline, hall, hlo, hhi⟩
    exact ⟨⟨hline, hall⟩, by omega, by omega⟩

/-- **The result 0.** Either all the code is there, or the bytes of the last line are dropped and the error is set. -/
theorem runLines_cases (herr : ctx.error = false) (hlen : ctx.code.length ≤ maxAsmSize) (lineNum : Nat) :
    ((∀ line ∈ lines, Accepted line) ∧ ctx.code.length + totalSize lines ≤ maxAsmSize) ∨
    (OverflowsLast ctx.code.length lines ∧ (runLines lineNum ctx lines).1 = 0 ∧
      (runLines lineNum ctx lines).2.error = true ∧ (runLines lineNum ctx lines).2.code.length ≤ maxAsmSize) ∨
    (¬OverflowsLast ctx.code.length lines ∧ (runLines lineNum ctx lines).1 = -1) := by
  induction lines generalizing ctx lineNum with
  | nil => exact Or.inl ⟨by simp, by simpa [totalSize] using hlen⟩
  | cons line lines ih =>
    by_cases hline : Accepted line
    · rw [runLines_accepted hline herr]
      by_cases hfit : ctx.code.length + (lineCode line).length ≤ maxAsmSize
      · rw [emitBytes_eq hfit]
        cases lines with
        | nil =>
          refine Or.inl ⟨by simpa using hline, ?_⟩
          rw [totalSize_cons]
          exact hfit
        | cons next lines =>
          rw [overflowsLast_cons (List.cons_ne_nil next lines), totalSize_cons, List.forall_mem_cons, ← Nat.add_assoc,
            ← List.length_append]
          rcases ih (show ({ ctx with code := ctx.code ++ lineCode line } : AsmContext).error = false from herr)
            (by simpa using hfit) (lineNum + 1) with ⟨hall, hrest⟩ | ⟨hover, hzero⟩ | ⟨hnot, hfail⟩
          · exact Or.inl ⟨⟨hline, hall⟩, hrest⟩
          · exact Or.inr (Or.inl ⟨⟨hline, hover⟩, hzero⟩)
          · exact Or.inr (Or.inr ⟨fun hover => hnot hover.2, hfail⟩)
      · have hne : lineCode line ≠ [] := by
          intro hnil
          rw [hnil, List.length_nil] at hfit
          omega
        have herr' := emitBytes_overflow hne (not_le.mp hfit)
        have hlen' : (emitBytes ctx (lineCode line)).code.length ≤ maxAsmSize := emitBytes_length hlen
        cases lines with
        | nil =>
          refine Or.inr (Or.inl ⟨⟨by simpa using hline, hlen, ?_⟩, rfl, herr', hlen'⟩)
          rw [totalSize_cons]
          exact not_le.mp hfit
        | cons next lines =>
          refine Or.inr (Or.inr ⟨?_, by rw [runLines_error herr']⟩)
          rintro ⟨-, hlo, -⟩
          rw [List.dropLast_cons_of_ne_nil (List.cons_ne_nil next lines), totalSize_cons] at hlo
          omega
    · refine Or.inr (Or.inr ⟨fun hover => hline (hover.1 line List.mem_cons_self), runLines_rejected hline herr lineNum⟩)

/-- The same on a fresh context. -/
theorem runLines_fresh (lines : List (List Char)) :
    ((∀ line ∈ lines, Accepted line) ∧ totalSize lines ≤ maxAsmSize ∧
      runLines 1 asmInit lines = (0, { asmInit with code := lines.flatMap lineCode })) ∨
    (OverflowsLast 0 lines ∧ (runLines 1 asmInit lines).1 = 0 ∧ (runLines 1 asmInit lines).2.error = true ∧
      (runLines 1 asmInit lines).2.code.length ≤ maxAsmSize) ∨
    (¬OverflowsLast 0 lines ∧ (runLines 1 asmInit lines).1 = -1) := by
  have hempty : asmInit.code.length ≤ maxAsmSize := Nat.zero_le _
  rcases runLines_cases rfl hempty 1 with ⟨hall, hfit⟩ | hover | hfail
  · refine Or.inl ⟨hall, ?_, runLines_fits hall rfl hfit 1⟩
    rwa [show asmInit.code.length = 0 from rfl, Nat.zero_add] at hfit
  · exact Or.inr (Or.inl hover)
  · exact Or.inr (Or.inr hfail)

end Run

end AmqOs.Assembler
