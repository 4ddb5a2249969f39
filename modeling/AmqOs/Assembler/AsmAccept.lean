import AmqOs.Assembler.AsmParse

/-!
# What `asm_line` accepts

`LangLine line` says that a line is written in the language when its comment is removed: a mnemonic in full, the operands
that it takes, and white space. `asm_line` compares only as many characters of the first word as the mnemonic has, looks
at the operands with parsers that stop at the first odd character, and never at what follows them: `Takes` is the test
that it makes. So it rejects everything that is not in the language if and only if the test fails as well
(`asmLine_language_iff`).
-/

set_option autoImplicit false

namespace AmqOs.Assembler

open AmqOs.Lib AmqOs.Lib.X86

/-! ## The language -/

/-- What a mnemonic takes. -/
inductive Form
  | regImm
  | regImm8
  | regReg
  | regOrImm
  | reg
  | regCount
  | none

/-- The mnemonics, in the order of the tests of `asm_line`. -/
def forms : List (String × Form) :=
  [("mov", .regImm), ("add", .regImm8), ("sub", .regImm8), ("xor", .regReg), ("or", .regReg), ("and", .regReg),
    ("cmp", .regImm8), ("call", .regOrImm), ("push", .reg), ("pop", .reg), ("inc", .reg), ("dec", .reg), ("neg", .reg),
    ("not", .reg), ("shl", .regCount), ("shr", .regCount), ("syscall", .none), ("ret", .none), ("nop", .none)]

inductive OperandKind
  | reg
  | imm
  | regOrImm

def Form.kinds : Form → List OperandKind
  | .regImm => [.reg, .regOrImm]
  | .regImm8 => [.reg, .regOrImm]
  | .regReg => [.reg, .reg]
  | .regOrImm => [.regOrImm]
  | .reg => [.reg]
  | .regCount => [.reg, .imm]
  | .none => []

/-- The names that `parse_register` knows. -/
def registerNames : List String :=
  ["rax", "rcx", "rdx", "rbx", "rsp", "rbp", "rsi", "rdi", "r8", "r9", "r10", "r11", "r12", "r13", "r14", "r15",
    "eax", "ecx", "edx", "ebx", "esp", "ebp", "esi", "edi"]

/-- A complete register name. -/
def RegText (s : List Char) : Prop := ∃ name ∈ registerNames, s = name.toList

/-- A complete operand. -/
def OperandKind.Text : OperandKind → List Char → Prop
  | .reg, s => RegText s
  | .imm, s => ∃ value, ImmText s value
  | .regOrImm, s => RegText s ∨ ∃ value, ImmText s value

/-- The text of exactly the operands of these kinds. -/
inductive ArgsText : List OperandKind → List Char → Prop
  | none : ArgsText [] []
  | one {k : OperandKind} {gap s : List Char} : Blanks gap → gap ≠ [] → k.Text s → ArgsText [k] (gap ++ s)
  | two {k l : OperandKind} {gap s sep t : List Char} : Blanks gap → gap ≠ [] → k.Text s → Separators sep → sep ≠ [] →
      l.Text t → ArgsText [k, l] (gap ++ s ++ sep ++ t)

/-- A character that does not start a comment. -/
def isCode (c : Char) : Bool := !(c = ';' || c = '#')

/-- The line without its comment. -/
def uncommented (line : List Char) : List Char := line.takeWhile isCode

/-- A blank, or an end of line. -/
def isWhite (c : Char) : Bool := isBlank c || c = '\n' || c = '\r'

/-- A line of the language. -/
def LangLine (line : List Char) : Prop :=
  ∃ blanks word args tail name form, (name, form) ∈ forms ∧ word.map lower = name.toList ∧ Blanks blanks ∧
    ArgsText form.kinds args ∧ (∀ c ∈ tail, isWhite c = true) ∧ uncommented line = blanks ++ (word ++ (args ++ tail))

/-! ## Words -/

theorem forms_spec : ∀ p ∈ forms, p.1.toList.all (fun c => isPlain c && !isWhite c) = true ∧ p.1.toList ≠ [] := by
  decide

theorem not_white_of_lower {c : Char} (h : isWhite (lower c) = false) : isWhite c = false := by
  by_contra hc
  have hspecial : c = ' ' ∨ c = '\t' ∨ c = '\n' ∨ c = '\r' := by
    simp only [isWhite, isBlank, Bool.not_eq_false, Bool.or_eq_true, decide_eq_true_eq] at hc
    tauto
  rcases hspecial with rfl | rfl | rfl | rfl <;> exact absurd h (by decide)

/-- The operands start with a blank. -/
theorem ArgsText.stopsAt {kinds : List OperandKind} {args tail : List Char} (h : ArgsText kinds args)
    (htail : ∀ c ∈ tail, isWhite c = true) : StopsAt (fun c => !isWhite c) (args ++ tail) := by
  have hgap : ∀ {gap rest : List Char}, Blanks gap → gap ≠ [] → StopsAt (fun c => !isWhite c) (gap ++ rest) := by
    intro gap rest hblanks hne
    obtain ⟨c, gap, rfl⟩ := List.exists_cons_of_ne_nil hne
    exact stopsAt_cons (by simp [isWhite, hblanks c List.mem_cons_self])
  cases h with
  | none =>
    cases tail with
    | nil => exact stopsAt_nil
    | cons c tail => exact stopsAt_cons (by simp [htail c List.mem_cons_self])
  | one hblanks hne _ =>
    rw [List.append_assoc]
    exact hgap hblanks hne
  | two hblanks hne _ _ _ _ =>
    simp only [List.append_assoc]
    exact hgap hblanks hne

/-- The first word of a line of the language is a mnemonic in full. -/
theorem LangLine.word {line : List Char} (h : LangLine line) :
    ∃ p ∈ forms, (((uncommented line).dropWhile isBlank).takeWhile fun c => !isWhite c).map lower = p.1.toList := by
  obtain ⟨blanks, word, args, tail, name, form, hmem, hword, hblanks, hargs, htail, hline⟩ := h
  obtain ⟨hall, hne⟩ := forms_spec _ hmem
  rw [← hword] at hall hne
  have hplain : ∀ c ∈ word, isBlank c = false ∧ isWhite c = false := by
    intro c hc
    have hlower := List.all_eq_true.mp hall _ (List.mem_map_of_mem hc)
    have hwhite : isWhite c = false := not_white_of_lower (by simpa using (Bool.and_eq_true_iff.mp hlower).2)
    exact ⟨by simp_all [isWhite], hwhite⟩
  obtain ⟨c, rest, rfl⟩ : ∃ c rest, word = c :: rest := List.exists_cons_of_ne_nil (by simpa using hne)
  have hdrop : (uncommented line).dropWhile isBlank = c :: rest ++ (args ++ tail) := by
    rw [hline]
    exact dropWhile_append hblanks (stopsAt_cons (hplain c List.mem_cons_self).1)
  refine ⟨_, hmem, ?_⟩
  rw [hdrop, ← hword]
  congr 1
  exact takeWhile_append (fun d hd => by simp [(hplain d hd).2]) (hargs.stopsAt htail)

/-! ## The test that is made -/

/-- A line with nothing to assemble. -/
def Ignored (line : List Char) : Prop := CommentOrEnd (line.dropWhile isBlank)

/-- `asm_line` accepts nothing but the language. -/
structure LanguageOk (line : List Char) : Prop where
  emits : ∀ ctx : AsmContext, ctx.error = false → (asmLine ctx line).1 = 0 → (asmLine ctx line).2.code ≠ ctx.code →
    LangLine line
  rejects : ∀ ctx : AsmContext, ctx.error = false → ¬Ignored line → ¬LangLine line →
    (asmLine ctx line).1 = -1 ∧ (asmLine ctx line).2.error = true ∧ (asmLine ctx line).2.code = ctx.code

/-- The test of the operands. -/
def Form.Takes : Form → List Char → List Char → Prop
  | .regImm, arg1, _ => (parseRegister arg1).isSome
  | .regImm8, arg1, arg2 => (parseRegister arg1).isSome ∧
      ((parseRegister arg2).isSome ∨ -128 ≤ parseImmediate arg2 ∧ parseImmediate arg2 ≤ 127)
  | .regReg, arg1, arg2 => (parseRegister arg1).isSome ∧ (parseRegister arg2).isSome
  | .regOrImm, _, _ => True
  | .reg, arg1, _ => (parseRegister arg1).isSome
  | .regCount, arg1, arg2 => (parseRegister arg1).isSome ∧ 0 ≤ parseImmediate arg2 ∧ parseImmediate arg2 ≤ 63
  | .none, _, _ => True

/-- The test of the first mnemonic that the word begins with. -/
def TakesFirst : List (String × Form) → List Char → List Char → List Char → Prop
  | [], _, _, _ => False
  | (name, form) :: forms, word, arg1, arg2 =>
    if startsWith word name then form.Takes arg1 arg2 else TakesFirst forms word arg1 arg2

/-- The test that `asm_line` makes of a line that it does not ignore. -/
def Takes (line : List Char) : Prop :=
  TakesFirst forms (splitLine (line.dropWhile isBlank)).1 (splitLine (line.dropWhile isBlank)).2.1
    (splitLine (line.dropWhile isBlank)).2.2

section Test

variable {ctx : AsmContext} {arg1 arg2 word : List Char} {line : List Char}

@[simp]
theorem done_fst (ctx : AsmContext) (bytes : List UInt8) : (done ctx bytes).1 = 0 := rfl

@[simp]
theorem fail_fst (ctx : AsmContext) (msg : String) : (fail ctx msg).1 = -1 := rfl

theorem lineMov_takes : (lineMov ctx arg1 arg2).1 = 0 ↔ Form.regImm.Takes arg1 arg2 := by
  simp only [lineMov, Form.Takes]
  cases parseRegister arg1 with
  | none => simp
  | some reg1 =>
    cases parseRegister arg2 with
    | some reg2 => simp
    | none => by_cases h : reg1 = 0 ∧ (parseImmediate arg2 > 0x7FFFFFFF ∨ parseImmediate arg2 < -0x80000000) <;> simp [h]

theorem lineRegImm_takes (msg : String) (regs : Nat → Nat → List UInt8) (imm8 : Nat → Int → List UInt8) :
    (lineRegImm ctx arg1 arg2 msg regs imm8).1 = 0 ↔ Form.regImm8.Takes arg1 arg2 := by
  simp only [lineRegImm, Form.Takes]
  cases parseRegister arg1 with
  | none => simp
  | some reg1 =>
    cases parseRegister arg2 with
    | some reg2 => simp
    | none =>
      by_cases h : parseImmediate arg2 ≥ -128 ∧ parseImmediate arg2 ≤ 127
      · simp [h]
      · simp [h]

theorem lineRegs_takes (regs : Nat → Nat → List UInt8) :
    (lineRegs ctx arg1 arg2 regs).1 = 0 ↔ Form.regReg.Takes arg1 arg2 := by
  simp only [lineRegs, Form.Takes]
  cases parseRegister arg1 <;> cases parseRegister arg2 <;> simp

theorem lineCall_takes : (lineCall ctx arg1).1 = 0 ↔ Form.regOrImm.Takes arg1 arg2 := by
  simp only [lineCall, Form.Takes]
  cases parseRegister arg1 <;> simp

theorem lineReg_takes (encode : Nat → List UInt8) : (lineReg ctx arg1 encode).1 = 0 ↔ Form.reg.Takes arg1 arg2 := by
  simp only [lineReg, Form.Takes]
  cases parseRegister arg1 <;> simp

theorem lineShift_takes (encode : Nat → Int → List UInt8) :
    (lineShift ctx arg1 arg2 encode).1 = 0 ↔ Form.regCount.Takes arg1 arg2 := by
  simp only [lineShift, Form.Takes]
  cases parseRegister arg1 with
  | none => simp
  | some reg =>
    by_cases h : parseImmediate arg2 < 0 ∨ parseImmediate arg2 > 63
    · have hno : ¬(0 ≤ parseImmediate arg2 ∧ parseImmediate arg2 ≤ 63) := by omega
      simp [h, hno]
    · have hyes : 0 ≤ parseImmediate arg2 ∧ parseImmediate arg2 ≤ 63 := by omega
      simp [h, hyes]

theorem done_takes (bytes : List UInt8) : (done ctx bytes).1 = 0 ↔ Form.none.Takes arg1 arg2 := by
  simp [Form.Takes]

/-- One test of the sequence. -/
theorem takesFirst_ite {f g : Int × AsmContext} {name : String} {form : Form} {forms : List (String × Form)}
    (hf : f.1 = 0 ↔ form.Takes arg1 arg2) (hg : g.1 = 0 ↔ TakesFirst forms word arg1 arg2) :
    (if startsWith word name then f else g).1 = 0 ↔ TakesFirst ((name, form) :: forms) word arg1 arg2 := by
  by_cases h : startsWith word name = true
  · simp only [TakesFirst, if_pos h]
    exact hf
  · simp only [TakesFirst, if_neg h]
    exact hg

theorem assemble_takes : (assemble ctx word arg1 arg2).1 = 0 ↔ TakesFirst forms word arg1 arg2 := by
  unfold assemble forms
  refine takesFirst_ite lineMov_takes ?_
  refine takesFirst_ite (lineRegImm_takes _ _ _) ?_
  refine takesFirst_ite (lineRegImm_takes _ _ _) ?_
  refine takesFirst_ite (lineRegs_takes _) ?_
  refine takesFirst_ite (lineRegs_takes _) ?_
  refine takesFirst_ite (lineRegs_takes _) ?_
  refine takesFirst_ite (lineRegImm_takes _ _ _) ?_
  refine takesFirst_ite lineCall_takes ?_
  refine takesFirst_ite (lineReg_takes _) ?_
  refine takesFirst_ite (lineReg_takes _) ?_
  refine takesFirst_ite (lineReg_takes _) ?_
  refine takesFirst_ite (lineReg_takes _) ?_
  refine takesFirst_ite (lineReg_takes _) ?_
  refine takesFirst_ite (lineReg_takes _) ?_
  refine takesFirst_ite (lineShift_takes _) ?_
  refine takesFirst_ite (lineShift_takes _) ?_
  refine takesFirst_ite (done_takes _) ?_
  refine takesFirst_ite (done_takes _) ?_
  exact takesFirst_ite (done_takes _) (by simp [TakesFirst])

/-- A line that is not ignored is taken apart. -/
theorem asmLine_assemble (h : ¬Ignored line) (herr : ctx.error = false) :
    asmLine ctx line = assemble ctx (splitLine (line.dropWhile isBlank)).1 (splitLine (line.dropWhile isBlank)).2.1
      (splitLine (line.dropWhile isBlank)).2.2 := by
  unfold Ignored at h
  unfold asmLine
  cases hline : line.dropWhile isBlank with
  | nil => exact absurd (Or.inl hline) h
  | cons c rest =>
    have hc : ¬(c = ';' || c = '#') = true := fun hc => h (Or.inr ⟨c, rest, hline, by simpa using hc⟩)
    simp only [herr, hc]
    rfl

theorem asmLine_ignored (h : Ignored line) (herr : ctx.error = false) : asmLine ctx line = (0, ctx) := by
  have hblanks : Blanks (line.takeWhile isBlank) := fun c hc => List.mem_takeWhile_imp hc
  have hline := asmLine_comment herr hblanks h
  rwa [List.takeWhile_append_dropWhile] at hline

theorem asmLine_takes (h : ¬Ignored line) (herr : ctx.error = false) : (asmLine ctx line).1 = 0 ↔ Takes line := by
  rw [asmLine_assemble h herr]
  exact assemble_takes

/-- **The language of `asm_line`.** Nothing else is accepted if and only if the test fails. -/
theorem asmLine_language_iff (line : List Char) : LanguageOk line ↔ Ignored line ∨ LangLine line ∨ ¬Takes line := by
  constructor
  · intro h
    by_contra hnone
    simp only [not_or, not_not] at hnone
    obtain ⟨hignored, hlang, htakes⟩ := hnone
    have hreject := (h.rejects asmInit rfl hignored hlang).1
    rw [(asmLine_takes hignored rfl).mpr htakes] at hreject
    cases hreject
  · intro h
    refine ⟨fun ctx herr hzero hcode => ?_, fun ctx herr hignored hlang => ?_⟩
    · by_contra hlang
      by_cases hignored : Ignored line
      · rw [asmLine_ignored hignored herr] at hcode
        exact hcode rfl
      · have htakes := (asmLine_takes hignored herr).mp hzero
        rcases h with h | h | h <;> contradiction
    · have htakes : ¬Takes line := by tauto
      have hrejected : ¬Accepted line := fun hzero => htakes ((asmLine_takes hignored rfl).mp hzero)
      obtain ⟨msg, hmsg⟩ := asmLine_rejected hrejected herr
      rw [hmsg]
      exact ⟨rfl, rfl, rfl⟩

end Test

/-- `movx rax, 1`. -/
def longerMnemonic : List Char := ['m', 'o', 'v', 'x', ' ', 'r', 'a', 'x', ',', ' ', '1']

/-- A word that only begins with a mnemonic is assembled as that mnemonic. -/
theorem longerMnemonic_emits : asmLine asmInit longerMnemonic = (0, { asmInit with code := asmMovRegImm32 0 1 }) ∧
    ¬LangLine longerMnemonic ∧ ¬LanguageOk longerMnemonic := by
  have hemits : asmLine asmInit longerMnemonic = (0, { asmInit with code := asmMovRegImm32 0 1 }) := by rfl
  have hlang : ¬LangLine longerMnemonic := by
    intro h
    obtain ⟨p, hp, hword⟩ := h.word
    revert p
    decide
  refine ⟨hemits, hlang, fun h => hlang ?_⟩
  refine h.emits asmInit rfl (by rw [hemits]) ?_
  rw [hemits]
  decide

end AmqOs.Assembler
