import AmqOs.Assembler.AsmEncode
import AmqOs.Assembler.AsmLines

/-!
# The language of the assembler

`SourceLine P line o` says that a line is written in the language: it is blank, a comment, or the instruction `o`, with
its mnemonic in any case, its registers by their names, and its immediates (`ImmText`) in decimal or hexadecimal; `P` is
a condition on the text of each operand. `asm_line` takes such a line apart as it was put together (`splitLine_two`,
`splitLine_one`, `splitLine_none`), finds the registers and immediates (`OperandText.parse`), and so emits the encoding of
the instruction (`asmLine_source`).
-/

set_option autoImplicit false

namespace AmqOs.Assembler

open AmqOs.Lib AmqOs.Lib.X86

/-! ## Instructions in words -/

def aluMnemonic : AluOp → String
  | .add => "add"
  | .or => "or"
  | .and => "and"
  | .sub => "sub"
  | .xor => "xor"
  | .cmp => "cmp"

def unaryMnemonic : UnaryOp → String
  | .inc => "inc"
  | .dec => "dec"
  | .not => "not"
  | .neg => "neg"

def shiftMnemonic : ShiftOp → String
  | .shl => "shl"
  | .shr => "shr"

def mnemonic : Instr → String
  | .movReg _ _ => "mov"
  | .movImm _ _ => "mov"
  | .aluReg op _ _ => aluMnemonic op
  | .aluImm op _ _ => aluMnemonic op
  | .unary op _ => unaryMnemonic op
  | .shift op _ _ => shiftMnemonic op
  | .callReg _ => "call"
  | .callRel _ => "call"
  | .push _ => "push"
  | .pop _ => "pop"
  | .syscall => "syscall"
  | .ret => "ret"
  | .nop => "nop"

inductive Operand
  | reg (r : Reg)
  | imm (value : Int)

/-- The operands in the order they are written, the destination first. -/
def operands : Instr → List Operand
  | .movReg dst src => [.reg dst, .reg src]
  | .movImm dst imm => [.reg dst, .imm imm]
  | .aluReg _ dst src => [.reg dst, .reg src]
  | .aluImm _ dst imm => [.reg dst, .imm imm]
  | .unary _ reg => [.reg reg]
  | .shift _ reg count => [.reg reg, .imm count]
  | .callReg reg => [.reg reg]
  | .callRel offset => [.imm offset]
  | .push reg => [.reg reg]
  | .pop reg => [.reg reg]
  | .syscall => []
  | .ret => []
  | .nop => []

/-- The names of the 64-bit registers, in the order of their numbers. -/
def regName (r : Reg) : List Char :=
  (["rax", "rcx", "rdx", "rbx", "rsp", "rbp", "rsi", "rdi", "r8", "r9", "r10", "r11", "r12", "r13", "r14",
    "r15"].getD r.val "").toList

/-- Digits of a base and their value. -/
inductive Numeral (digit : Char → Option Nat) (base : Nat) : List Char → Nat → Prop
  | one {c : Char} {d : Nat} : digit c = some d → Numeral digit base [c] d
  | snoc {s : List Char} {c : Char} {n d : Nat} : Numeral digit base s n → digit c = some d →
      Numeral digit base (s ++ [c]) (n * base + d)

inductive UnsignedText : List Char → Nat → Prop
  | dec {s : List Char} {n : Nat} : Numeral decDigit 10 s n → UnsignedText s n
  | hex {s : List Char} {n : Nat} {x : Char} : (x = 'x' ∨ x = 'X') → Numeral hexDigit 16 s n →
      UnsignedText ('0' :: x :: s) n

/-- An immediate and its value. -/
inductive ImmText : List Char → Int → Prop
  | pos {s : List Char} {n : Nat} : UnsignedText s n → ImmText s n
  | neg {s : List Char} {n : Nat} : UnsignedText s n → ImmText ('-' :: s) (-n)

inductive OperandText : List Char → Operand → Prop
  | reg (r : Reg) : OperandText (regName r) (.reg r)
  | imm {s : List Char} {value : Int} : ImmText s value → OperandText s (.imm value)

/-! ## Lines and programs in words -/

def Blanks (s : List Char) : Prop := ∀ c ∈ s, isBlank c = true

instance (s : List Char) : Decidable (Blanks s) := decidable_of_iff (s.all isBlank = true) List.all_eq_true

/-- What stands between two operands. -/
def Separators (s : List Char) : Prop := ∀ c ∈ s, (isBlank c || c = ',') = true

instance (s : List Char) : Decidable (Separators s) :=
  decidable_of_iff (s.all (fun c => isBlank c || c = ',') = true) List.all_eq_true

/-- The start of a comment, or the end of the line. -/
def CommentOrEnd (s : List Char) : Prop := s = [] ∨ ∃ c s', s = c :: s' ∧ (c = ';' ∨ c = '#')

/-- The text of the operands. -/
inductive OperandsText (P : List Char → Prop) : List Char → List Operand → Prop
  | none : OperandsText P [] []
  | one {gap s : List Char} {o : Operand} : Blanks gap → gap ≠ [] → OperandText s o → P s →
      OperandsText P (gap ++ s) [o]
  | two {gap s sep t : List Char} {o q : Operand} : Blanks gap → gap ≠ [] → OperandText s o → P s →
      Separators sep → sep ≠ [] → OperandText t q → P t → OperandsText P (gap ++ s ++ sep ++ t) [o, q]

/-- A line that is blank, a comment, or an instruction that may be followed by a comment. -/
inductive SourceLine (P : List Char → Prop) : List Char → Option Instr → Prop
  | comment {blanks tail : List Char} : Blanks blanks → CommentOrEnd tail → SourceLine P (blanks ++ tail) none
  | instr {blanks word args blanks' tail : List Char} {ins : Instr} : InRange ins → Blanks blanks →
      word.map lower = (mnemonic ins).toList → OperandsText P args (operands ins) → Blanks blanks' →
      CommentOrEnd tail → SourceLine P (blanks ++ (word ++ (args ++ (blanks' ++ tail)))) (some ins)

/-- A program of such lines, and its instructions. -/
inductive SourceProgram (P : List Char → Prop) : List (List Char) → List Instr → Prop
  | nil : SourceProgram P [] []
  | cons {line : List Char} {o : Option Instr} {lines : List (List Char)} {instrs : List Instr} : SourceLine P line o →
      '\n' ∉ line → SourceProgram P lines instrs → SourceProgram P (line :: lines) (o.toList ++ instrs)

/-! ## Operands are read back -/

theorem castTo_eq {v : Int} (hlo : -2 ^ 63 < v) (hhi : v < 2 ^ 63) : castTo 8 v = v := by
  unfold castTo
  exact Int.bmod_eq_of_le_mul_two (by norm_num; omega) (by norm_num; omega)

variable {digit : Char → Option Nat} {base : Nat}

theorem Numeral.ne_nil {s : List Char} {n : Nat} (h : Numeral digit base s n) : s ≠ [] := by
  cases h <;> simp

theorem Numeral.isSome {s : List Char} {n : Nat} (h : Numeral digit base s n) : ∀ c ∈ s, (digit c).isSome := by
  induction h with
  | one hc => simp [hc]
  | snoc _ hc ih =>
    intro c hmem
    rcases List.mem_append.mp hmem with hmem | hmem
    · exact ih c hmem
    · rw [List.mem_singleton.mp hmem, hc]
      rfl

/-- The loop computes the value of the digits; no prefix of them is larger, so that nothing wraps. -/
theorem Numeral.digitsLoop {s : List Char} {n : Nat} (h : Numeral digit base s n) (hbase : 0 < base)
    (hn : n < 2 ^ 63) (rest : List Char) :
    digitsLoop digit base 0 (s ++ rest) = Assembler.digitsLoop digit base n rest := by
  induction h generalizing rest with
  | one hc =>
    simp only [List.singleton_append, Assembler.digitsLoop, hc, zero_mul, zero_add]
    rw [castTo_eq (by omega) (by omega)]
  | @snoc s c n d hs hc ih =>
    have hle : n ≤ n * base := Nat.le_mul_of_pos_right n hbase
    rw [List.append_assoc, ih (by omega), List.singleton_append]
    simp only [Assembler.digitsLoop, hc]
    rw [castTo_eq (by push_cast at *; omega) (by push_cast at *; omega)]
    push_cast
    rfl

theorem Numeral.digitsLoop_zero {s : List Char} {n : Nat} (h : Numeral digit base s n) (hbase : 0 < base)
    (hn : n < 2 ^ 63) : Assembler.digitsLoop digit base 0 s = n := by
  have hloop := h.digitsLoop hbase hn []
  rw [List.append_nil] at hloop
  rw [hloop]
  rfl

/-- A character that can stand in an operand, and not at the start of a register. -/
def IsImmChar (c : Char) : Prop := isArg c = true ∧ isBlank c = false ∧ c ≠ 'r' ∧ c ≠ 'e'

theorem ne_of_digit {digit : Char → Option Nat} {c b : Char} (h : (digit c).isSome) (hb : digit b = none) : c ≠ b := by
  rintro rfl
  simp [hb] at h

/-- A digit stands in operands when none of the characters that end one is a digit. -/
theorem isArg_of_digit {digit : Char → Option Nat} {c : Char} (h : (digit c).isSome)
    (hend : ∀ b ∈ [',', ' ', '\t', ';', '#', '\n', '\r'], digit b = none) : isArg c = true ∧ isBlank c = false := by
  have hne : ∀ b ∈ [',', ' ', '\t', ';', '#', '\n', '\r'], c ≠ b := fun b hb => ne_of_digit h (hend b hb)
  simp only [List.forall_mem_cons] at hne
  simp [isArg, isBlank, hne]

theorem isImmChar_dec {c : Char} (h : (decDigit c).isSome) : IsImmChar c := by
  obtain ⟨harg, hblank⟩ := isArg_of_digit h (by simp [decDigit])
  exact ⟨harg, hblank, ne_of_digit h (by decide), ne_of_digit h (by decide)⟩

theorem isArg_hex {c : Char} (h : (hexDigit c).isSome) : isArg c = true := (isArg_of_digit h (by simp [hexDigit])).1

/-- Digits after `0x`, or digits without it. -/
theorem UnsignedText.digits {s : List Char} {n : Nat} (h : UnsignedText s n) :
    ((charAt s 0 = '0' && (charAt s 1 = 'x' || charAt s 1 = 'X')) = true ∧ Numeral hexDigit 16 (s.drop 2) n) ∨
      ((charAt s 0 = '0' && (charAt s 1 = 'x' || charAt s 1 = 'X')) = false ∧ Numeral decDigit 10 s n) := by
  cases h with
  | dec h =>
    have hdigit : ∀ x, decDigit x = none → x ≠ '\x00' → charAt s 1 ≠ x := by
      rintro x hx h0 rfl
      cases s with
      | nil => exact h0 rfl
      | cons c s =>
        cases s with
        | nil => exact h0 rfl
        | cons d s =>
          have hsome := h.isSome d (by simp)
          rw [show d = charAt (c :: d :: s) 1 from rfl, hx] at hsome
          cases hsome
    exact Or.inr ⟨by simp [hdigit 'x' (by decide) (by decide), hdigit 'X' (by decide) (by decide)], h⟩
  | @hex s n x hx h =>
    refine Or.inl ⟨?_, h⟩
    rcases hx with rfl | rfl <;> rfl

/-- The digits after the sign are read back. -/
theorem UnsignedText.digitsLoop {s : List Char} {n : Nat} (h : UnsignedText s n) (hn : n < 2 ^ 63) :
    (if charAt s 0 = '0' && (charAt s 1 = 'x' || charAt s 1 = 'X') then digitsLoop hexDigit 16 0 (s.drop 2)
      else digitsLoop decDigit 10 0 s) = n := by
  rcases h.digits with ⟨hx, h⟩ | ⟨hx, h⟩
  · rw [if_pos hx]
    exact h.digitsLoop_zero (by norm_num) hn
  · rw [if_neg (Bool.eq_false_iff.mp hx)]
    exact h.digitsLoop_zero (by norm_num) hn

theorem UnsignedText.head {s : List Char} {n : Nat} (h : UnsignedText s n) :
    ∃ c s', s = c :: s' ∧ IsImmChar c ∧ c ≠ '-' := by
  cases h with
  | dec h =>
    obtain ⟨c, s', rfl⟩ := List.exists_cons_of_ne_nil h.ne_nil
    have hsome := h.isSome c List.mem_cons_self
    refine ⟨c, s', rfl, isImmChar_dec hsome, ?_⟩
    rintro rfl
    cases hsome
  | hex hx h => exact ⟨'0', _, rfl, isImmChar_dec (by decide), by decide⟩

theorem UnsignedText.isArg {s : List Char} {n : Nat} (h : UnsignedText s n) : ∀ c ∈ s, isArg c = true := by
  cases h with
  | dec h => exact fun c hc => (isImmChar_dec (h.isSome c hc)).1
  | hex hx h =>
    intro c hc
    rcases List.mem_cons.mp hc with rfl | hc
    · decide
    · rcases List.mem_cons.mp hc with rfl | hc
      · rcases hx with rfl | rfl <;> decide
      · exact isArg_hex (h.isSome c hc)

theorem ImmText.head {s : List Char} {v : Int} (h : ImmText s v) : ∃ c s', s = c :: s' ∧ IsImmChar c := by
  cases h with
  | pos h =>
    obtain ⟨c, s', rfl, hc, _⟩ := h.head
    exact ⟨c, s', rfl, hc⟩
  | neg h => exact ⟨'-', _, rfl, by decide, by decide, by decide, by decide⟩

theorem ImmText.isArg {s : List Char} {v : Int} (h : ImmText s v) : ∀ c ∈ s, isArg c = true := by
  cases h with
  | pos h => exact h.isArg
  | neg h =>
    intro c hc
    rcases List.mem_cons.mp hc with rfl | hc
    · decide
    · exact h.isArg c hc

theorem ImmText.dropWhile {s : List Char} {v : Int} (h : ImmText s v) : s.dropWhile isBlank = s := by
  obtain ⟨c, s', rfl, hc⟩ := h.head
  exact List.dropWhile_cons_of_neg (by simp [hc.2.1])

theorem UnsignedText.no_sign {s : List Char} {n : Nat} (h : UnsignedText s n) : ¬charAt s 0 = '-' := by
  obtain ⟨c, s', rfl, _, hc⟩ := h.head
  exact hc

/-- **Immediates are read back**. -/
theorem ImmText.parseImmediate {s : List Char} {v : Int} (h : ImmText s v) (hlo : -2 ^ 63 < v) (hhi : v < 2 ^ 63) :
    parseImmediate s = v := by
  have hdrop := h.dropWhile
  cases h with
  | pos h =>
    simp only [Assembler.parseImmediate, hdrop, h.no_sign, if_false]
    exact h.digitsLoop (by omega)
  | @neg s n h =>
    have hneg : charAt ('-' :: s) 0 = '-' := rfl
    simp only [Assembler.parseImmediate, hdrop, hneg, if_true, List.drop_succ_cons, List.drop_zero]
    rw [h.digitsLoop (by omega)]
    exact castTo_eq hlo hhi

theorem IsImmChar.parseRegister {c : Char} (h : IsImmChar c) (s : List Char) : parseRegister (c :: s) = none := by
  obtain ⟨_, hblank, hr, he⟩ := h
  have hdrop : (c :: s).dropWhile isBlank = c :: s := List.dropWhile_cons_of_neg (by simp [hblank])
  simp [Assembler.parseRegister, hdrop, isName, charAt, hr, he]

theorem ImmText.parseRegister {s : List Char} {v : Int} (h : ImmText s v) : parseRegister s = none := by
  obtain ⟨c, s', rfl, hc⟩ := h.head
  exact hc.parseRegister s'

theorem parseRegister_regName (r : Reg) : parseRegister (regName r) = some r.val := by
  revert r
  decide

theorem isArg_regName (r : Reg) : ∀ c ∈ regName r, isArg c = true := by
  apply List.all_eq_true.mp
  revert r
  decide

theorem OperandText.isArg {s : List Char} {o : Operand} (h : OperandText s o) : ∀ c ∈ s, isArg c = true := by
  cases h with
  | reg r => exact isArg_regName r
  | imm h => exact h.isArg

theorem OperandText.ne_nil {s : List Char} {o : Operand} (h : OperandText s o) : s ≠ [] := by
  cases h with
  | reg r =>
    revert r
    decide
  | imm h =>
    obtain ⟨c, s', rfl, _⟩ := h.head
    simp

/-! ## Lines are taken apart -/

/-- A character of a mnemonic. -/
def isPlain (c : Char) : Bool := !(isBlank c || c = ';' || c = '#')

theorem isPlain_of_lower {c : Char} (h : isPlain (lower c) = true) : isPlain c = true := by
  by_contra hc
  have hspecial : c = ' ' ∨ c = '\t' ∨ c = ';' ∨ c = '#' := by
    simp only [isPlain, isBlank, Bool.not_eq_true', Bool.not_eq_false, Bool.or_eq_true, decide_eq_true_eq] at hc
    tauto
  rcases hspecial with rfl | rfl | rfl | rfl <;> exact absurd h (by decide)

/-- The mnemonics. -/
def words : List String :=
  ["mov", "add", "or", "and", "sub", "xor", "cmp", "inc", "dec", "not", "neg", "shl", "shr", "call", "push", "pop",
    "syscall", "ret", "nop"]

theorem mnemonic_mem (ins : Instr) : mnemonic ins ∈ words := by
  cases ins with
  | aluReg op _ _ => cases op <;> simp [mnemonic, aluMnemonic, words]
  | aluImm op _ _ => cases op <;> simp [mnemonic, aluMnemonic, words]
  | unary op _ => cases op <;> simp [mnemonic, unaryMnemonic, words]
  | shift op _ _ => cases op <;> simp [mnemonic, shiftMnemonic, words]
  | _ => simp [mnemonic, words]

theorem words_spec : ∀ w ∈ words, w.toList.all isPlain = true ∧ w.toList.length ≤ 31 ∧ w.toList ≠ [] := by
  decide

/-- A mnemonic in any case. -/
theorem word_spec {word : List Char} {ins : Instr} (h : word.map lower = (mnemonic ins).toList) :
    (∀ c ∈ word, isPlain c = true) ∧ word.length ≤ 31 ∧ word ≠ [] := by
  obtain ⟨hall, hlen, hne⟩ := words_spec _ (mnemonic_mem ins)
  rw [← h] at hall hlen hne
  refine ⟨?_, by simpa using hlen, by simpa using hne⟩
  intro c hc
  exact isPlain_of_lower (List.all_eq_true.mp hall _ (List.mem_map_of_mem hc))

theorem not_blank_of_isPlain {c : Char} (h : isPlain c = true) : (!isBlank c) = true := by
  cases hb : isBlank c with
  | false => rfl
  | true => simp [isPlain, hb] at h

/-- What follows the operands starts with a character that is not part of one. -/
theorem stopsAt_tail {blanks tail : List Char} (hblanks : Blanks blanks) (htail : CommentOrEnd tail) :
    StopsAt isArg (blanks ++ tail) := by
  cases blanks with
  | cons c blanks => exact stopsAt_cons (by simp [isArg, hblanks c List.mem_cons_self])
  | nil =>
    rcases htail with rfl | ⟨c, s, rfl, hc⟩
    · exact stopsAt_nil
    · apply stopsAt_cons
      rcases hc with rfl | rfl <;> decide

theorem scan_word {word gap rest : List Char} {ins : Instr} (hword : word.map lower = (mnemonic ins).toList)
    (hgap : Blanks gap) (hne : gap ≠ []) :
    scan (fun c => !isBlank c) 31 (word ++ (gap ++ rest)) = (word, gap ++ rest) := by
  obtain ⟨hplain, hlen, _⟩ := word_spec hword
  apply scan_append
  · exact fun c hc => not_blank_of_isPlain (hplain c hc)
  · exact hlen
  · obtain ⟨c, gap, rfl⟩ := List.exists_cons_of_ne_nil hne
    exact stopsAt_cons (by simp [hgap c List.mem_cons_self])

/-- An instruction without operands: only the start of the first word matters. -/
theorem splitLine_none {word rest : List Char} {ins : Instr} (hword : word.map lower = (mnemonic ins).toList) :
    ∃ u, (splitLine (word ++ rest)).1 = (mnemonic ins).toList ++ u := by
  obtain ⟨hplain, hlen, _⟩ := word_spec hword
  obtain ⟨u, v, hscan⟩ : ∃ u v, scan (fun c => !isBlank c) 31 (word ++ rest) = (word ++ u, v) :=
    scan_prefix (fun c hc => not_blank_of_isPlain (hplain c hc)) hlen
  refine ⟨u.map lower, ?_⟩
  simp only [splitLine, hscan]
  rw [List.map_append, hword]

/-- The text of an operand ends with no separator, and starts with none. -/
theorem stopsAt_arg {s rest : List Char} (hs : ∀ c ∈ s, isArg c = true) (hne : s ≠ []) :
    StopsAt isBlank (s ++ rest) ∧ StopsAt (fun c => isBlank c || c = ',') (s ++ rest) := by
  obtain ⟨c, s, rfl⟩ := List.exists_cons_of_ne_nil hne
  have hc := hs c List.mem_cons_self
  simp only [isArg, Bool.not_eq_true', Bool.or_eq_false_iff] at hc
  have hblank : isBlank c = false := hc.1.1.1.1.2
  have hsep : (isBlank c || decide (c = ',')) = false := by simp [hblank, hc.1.1.1.1.1]
  exact ⟨stopsAt_cons hblank, stopsAt_cons hsep⟩

/-- Of a text for an operand the first 63 characters are taken. -/
theorem scan_arg {s rest : List Char} (hs : ∀ c ∈ s, isArg c = true) (hrest : StopsAt isArg rest) :
    (scan isArg 63 (s ++ rest)).1 = s.take 63 := by
  rw [scan_eq, takeWhile_append hs hrest]

theorem splitLine_arg {word gap s rest : List Char} {ins : Instr} (hword : word.map lower = (mnemonic ins).toList)
    (hgap : Blanks gap) (hne : gap ≠ []) (hs : ∀ c ∈ s, isArg c = true) (hsne : s ≠ []) (hrest : StopsAt isArg rest) :
    (splitLine (word ++ (gap ++ (s ++ rest)))).1 = (mnemonic ins).toList ∧
      (splitLine (word ++ (gap ++ (s ++ rest)))).2.1 = s.take 63 := by
  simp only [splitLine, scan_word hword hgap hne, dropWhile_append hgap (stopsAt_arg hs hsne).1, scan_arg hs hrest]
  exact ⟨hword, trivial⟩

theorem splitLine_args {word gap s sep t rest : List Char} {ins : Instr}
    (hword : word.map lower = (mnemonic ins).toList) (hgap : Blanks gap) (hne : gap ≠ [])
    (hs : ∀ c ∈ s, isArg c = true) (hsne : s ≠ []) (hlen : s.length ≤ 63) (hsep : Separators sep) (hsepne : sep ≠ [])
    (ht : ∀ c ∈ t, isArg c = true) (htne : t ≠ []) (hrest : StopsAt isArg rest) :
    splitLine (word ++ (gap ++ (s ++ (sep ++ (t ++ rest))))) = ((mnemonic ins).toList, s, t.take 63) := by
  have hstop : StopsAt isArg (sep ++ (t ++ rest)) := by
    obtain ⟨c, sep, rfl⟩ := List.exists_cons_of_ne_nil hsepne
    have hc := hsep c List.mem_cons_self
    apply stopsAt_cons
    rcases Bool.or_eq_true_iff.mp hc with hc | hc <;> simp_all [isArg]
  simp only [splitLine, scan_word hword hgap hne, dropWhile_append hgap (stopsAt_arg hs hsne).1,
    scan_append hs hlen hstop, dropWhile_append hsep (stopsAt_arg ht htne).2, scan_arg ht hrest]
  rw [hword]

theorem splitLine_one {word gap s rest : List Char} {ins : Instr} {o : Operand}
    (hword : word.map lower = (mnemonic ins).toList) (hgap : Blanks gap) (hne : gap ≠ []) (hs : OperandText s o)
    (hlen : s.length ≤ 63) (hrest : StopsAt isArg rest) :
    (splitLine (word ++ (gap ++ (s ++ rest)))).1 = (mnemonic ins).toList ∧
      (splitLine (word ++ (gap ++ (s ++ rest)))).2.1 = s := by
  have hsplit := splitLine_arg hword hgap hne hs.isArg hs.ne_nil hrest
  rwa [List.take_of_length_le hlen] at hsplit

theorem splitLine_two {word gap s sep t rest : List Char} {ins : Instr} {o q : Operand}
    (hword : word.map lower = (mnemonic ins).toList) (hgap : Blanks gap) (hne : gap ≠ []) (hs : OperandText s o)
    (hlen : s.length ≤ 63) (hsep : Separators sep) (hsne : sep ≠ []) (ht : OperandText t q) (htlen : t.length ≤ 63)
    (hrest : StopsAt isArg rest) :
    splitLine (word ++ (gap ++ (s ++ (sep ++ (t ++ rest))))) = ((mnemonic ins).toList, s, t) := by
  rw [splitLine_args hword hgap hne hs.isArg hs.ne_nil hlen hsep hsne ht.isArg ht.ne_nil hrest,
    List.take_of_length_le htlen]

/-! ## The instruction is emitted -/

/-- What the parsers make of the text of an operand. -/
def Parsed (s : List Char) : Operand → Prop
  | .reg r => parseRegister s = some r.val
  | .imm value => parseRegister s = none ∧ (-2 ^ 63 < value → value < 2 ^ 63 → parseImmediate s = value)

theorem OperandText.parse {s : List Char} {o : Operand} (h : OperandText s o) : Parsed s o := by
  cases h with
  | reg r => exact parseRegister_regName r
  | imm h => exact ⟨h.parseRegister, h.parseImmediate⟩

/-- An instruction without operands. -/
theorem assemble_none {ins : Instr} (hops : operands ins = []) (ctx : AsmContext) (u arg1 arg2 : List Char) :
    assemble ctx ((mnemonic ins).toList ++ u) arg1 arg2 = done ctx (encode ins) := by
  cases ins <;> simp [operands] at hops <;>
    simp [assemble, startsWith, mnemonic, encode, List.isPrefixOf]

theorem castTo_small {n : Nat} {v : Int} (hlo : -2 ^ (8 * n) ≤ v * 2) (hhi : v * 2 < 2 ^ (8 * n)) : castTo n v = v := by
  unfold castTo
  apply Int.bmod_eq_of_le_mul_two
  · push_cast
    exact hlo
  · push_cast
    exact hhi

/-- An instruction with one operand. -/
theorem assemble_one {ins : Instr} {o : Operand} {s : List Char} (hrange : InRange ins) (hops : operands ins = [o])
    (hs : Parsed s o) (ctx : AsmContext) (arg2 : List Char) :
    assemble ctx (mnemonic ins).toList s arg2 = done ctx (encode ins) := by
  cases ins <;> simp only [operands, List.cons.injEq, reduceCtorEq, and_false, and_true] at hops <;> subst hops <;>
    simp only [Parsed] at hs
  case unary op reg =>
    cases op <;> simp [assemble, startsWith, mnemonic, unaryMnemonic, encode, List.isPrefixOf, lineReg, hs]
  case callReg reg => simp [assemble, startsWith, mnemonic, encode, List.isPrefixOf, lineCall, hs]
  case callRel offset =>
    obtain ⟨hlo, hhi⟩ : -2 ^ 31 ≤ offset ∧ offset < 2 ^ 31 := hrange
    have hcast : castTo 4 offset = offset := castTo_small (by omega) (by omega)
    simp [assemble, startsWith, mnemonic, encode, List.isPrefixOf, lineCall, hs.1, hs.2 (by omega) (by omega), hcast]
  case push reg => simp [assemble, startsWith, mnemonic, encode, List.isPrefixOf, lineReg, hs]
  case pop reg => simp [assemble, startsWith, mnemonic, encode, List.isPrefixOf, lineReg, hs]

theorem lineMov_imm {s t : List Char} {dst : Reg} {imm : Int} (hrange : InRange (.movImm dst imm))
    (hs : parseRegister s = some dst.val) (ht : Parsed t (.imm imm)) (ctx : AsmContext) :
    lineMov ctx s t = done ctx (encode (.movImm dst imm)) := by
  have hwide : -2 ^ 63 < imm ∧ imm < 2 ^ 63 := by
    rw [InRange] at hrange
    split at hrange <;> omega
  have himm : parseImmediate t = imm := ht.2 hwide.1 hwide.2
  simp only [lineMov, hs, ht.1, himm, encode]
  split
  · rfl
  · rename_i hnarrow
    have hcast : castTo 4 imm = imm := by
      rw [InRange] at hrange
      apply castTo_small <;> split at hrange <;> omega
    rw [hcast]

theorem lineRegImm_imm {s t : List Char} {dst : Reg} {imm : Int} (hlo : -128 ≤ imm) (hhi : imm ≤ 127)
    (hs : parseRegister s = some dst.val) (ht : Parsed t (.imm imm)) (ctx : AsmContext) (msg : String)
    (regs : Nat → Nat → List UInt8) (imm8 : Nat → Int → List UInt8) :
    lineRegImm ctx s t msg regs imm8 = done ctx (imm8 dst.val imm) := by
  have himm : parseImmediate t = imm := ht.2 (by omega) (by omega)
  have hcast : castTo 1 imm = imm := castTo_small (by omega) (by omega)
  simp [lineRegImm, hs, ht.1, himm, hlo, hhi, hcast]

theorem lineShift_imm {s t : List Char} {dst : Reg} {count : Nat} (hcount : count ≤ 63)
    (hs : parseRegister s = some dst.val) (ht : Parsed t (.imm count)) (ctx : AsmContext)
    (enc : Nat → Int → List UInt8) : lineShift ctx s t enc = done ctx (enc dst.val count) := by
  have himm : parseImmediate t = count := ht.2 (by omega) (by omega)
  have hcast : castTo 1 (count : Int) = count := castTo_small (by omega) (by omega)
  have hfit : ¬ ((count : Int) < 0 ∨ (count : Int) > 63) := by omega
  simp only [lineShift, hs, himm, if_neg hfit, hcast]

/-- An instruction with two operands. -/
theorem assemble_two {ins : Instr} {o q : Operand} {s t : List Char} (hrange : InRange ins)
    (hops : operands ins = [o, q]) (hs : Parsed s o) (ht : Parsed t q) (ctx : AsmContext) :
    assemble ctx (mnemonic ins).toList s t = done ctx (encode ins) := by
  cases ins <;> simp only [operands, List.cons.injEq, reduceCtorEq, and_false, and_true] at hops <;>
    obtain ⟨rfl, rfl⟩ := hops <;> simp only [Parsed] at hs
  case movReg dst src =>
    simp only [Parsed] at ht
    simp [assemble, startsWith, mnemonic, encode, lineMov, hs, ht]
  case movImm dst imm =>
    rw [← lineMov_imm hrange hs ht]
    simp [assemble, startsWith, mnemonic]
  case aluReg op dst src =>
    simp only [Parsed] at ht
    cases op <;>
      simp [assemble, startsWith, mnemonic, aluMnemonic, encode, List.isPrefixOf, lineRegImm, lineRegs, hs, ht]
  case aluImm op dst imm =>
    obtain ⟨hop, hlo, hhi⟩ := hrange
    rcases hop with rfl | rfl | rfl
    · rw [encode, ← lineRegImm_imm hlo hhi hs ht ctx "Invalid destination register" asmAddRegReg]
      simp [assemble, startsWith, mnemonic, aluMnemonic, List.isPrefixOf]
    · rw [encode, ← lineRegImm_imm hlo hhi hs ht ctx "Invalid destination register" asmSubRegReg]
      simp [assemble, startsWith, mnemonic, aluMnemonic, List.isPrefixOf]
    · rw [encode, ← lineRegImm_imm hlo hhi hs ht ctx "Invalid register" asmCmpRegReg]
      simp [assemble, startsWith, mnemonic, aluMnemonic, List.isPrefixOf]
  case shift op reg count =>
    cases op with
    | shl =>
      rw [encode, ← lineShift_imm hrange hs ht]
      simp [assemble, startsWith, mnemonic, shiftMnemonic, List.isPrefixOf]
    | shr =>
      rw [encode, ← lineShift_imm hrange hs ht]
      simp [assemble, startsWith, mnemonic, shiftMnemonic, List.isPrefixOf]

/-- The condition of the buffers for operands. -/
def FitsBuffer (s : List Char) : Prop := s.length ≤ 63

instance (s : List Char) : Decidable (FitsBuffer s) := inferInstanceAs (Decidable (s.length ≤ 63))

theorem assemble_operands {word args rest : List Char} {ins : Instr} (hrange : InRange ins)
    (hword : word.map lower = (mnemonic ins).toList) (hargs : OperandsText FitsBuffer args (operands ins))
    (hrest : StopsAt isArg rest) (ctx : AsmContext) :
    assemble ctx (splitLine (word ++ (args ++ rest))).1 (splitLine (word ++ (args ++ rest))).2.1
      (splitLine (word ++ (args ++ rest))).2.2 = done ctx (encode ins) := by
  generalize hops : operands ins = ops at hargs
  cases hargs with
  | none =>
    obtain ⟨u, hu⟩ : ∃ u, (splitLine (word ++ rest)).1 = (mnemonic ins).toList ++ u := splitLine_none hword
    rw [List.nil_append, hu]
    exact assemble_none hops ctx u _ _
  | @one gap s o hgap hne hs hfit =>
    obtain ⟨hword', harg⟩ := splitLine_one hword hgap hne hs hfit hrest
    rw [List.append_assoc, hword', harg]
    exact assemble_one hrange hops hs.parse ctx _
  | @two gap s sep t o q hgap hne hs hfit hsep hsne ht htfit =>
    simp only [List.append_assoc]
    rw [splitLine_two hword hgap hne hs hfit hsep hsne ht htfit hrest]
    exact assemble_two hrange hops hs.parse ht.parse ctx

theorem asmLine_comment {blanks tail : List Char} {ctx : AsmContext} (herr : ctx.error = false)
    (hblanks : Blanks blanks) (htail : CommentOrEnd tail) : asmLine ctx (blanks ++ tail) = (0, ctx) := by
  rcases htail with rfl | ⟨c, s, rfl, hc⟩
  · have hdrop : (blanks ++ []).dropWhile isBlank = [] := dropWhile_append hblanks stopsAt_nil
    simp only [asmLine, herr, hdrop]
    rfl
  · have hstop : StopsAt isBlank (c :: s) := by
      apply stopsAt_cons
      rcases hc with rfl | rfl <;> decide
    have hc' : (c = ';' || c = '#') = true := by simpa using hc
    simp only [asmLine, herr, dropWhile_append hblanks hstop, hc']
    rfl

/-- A line that starts with a mnemonic is taken apart. -/
theorem asmLine_word {blanks word rest : List Char} {ins : Instr} {ctx : AsmContext} (herr : ctx.error = false)
    (hblanks : Blanks blanks) (hword : word.map lower = (mnemonic ins).toList) :
    asmLine ctx (blanks ++ (word ++ rest)) = assemble ctx (splitLine (word ++ rest)).1 (splitLine (word ++ rest)).2.1
      (splitLine (word ++ rest)).2.2 := by
  obtain ⟨hplain, _, hne⟩ := word_spec hword
  obtain ⟨c, word, rfl⟩ := List.exists_cons_of_ne_nil hne
  have hc : (isBlank c = false ∧ c ≠ ';') ∧ c ≠ '#' := by simpa [isPlain] using hplain c List.mem_cons_self
  have hdrop : (blanks ++ (c :: word ++ rest)).dropWhile isBlank = c :: (word ++ rest) :=
    dropWhile_append hblanks (stopsAt_cons hc.1.1)
  simp only [asmLine, herr, hdrop, hc.1.2, hc.2, decide_false, Bool.or_self, Bool.false_eq_true, if_false]
  rfl

/-- **A line of the language is assembled**: the encoding of its instruction is emitted. -/
theorem asmLine_source {line : List Char} {o : Option Instr} {ctx : AsmContext} (h : SourceLine FitsBuffer line o)
    (herr : ctx.error = false) (hfit : ctx.code.length + (o.toList.flatMap encode).length ≤ maxAsmSize) :
    asmLine ctx line = (0, { ctx with code := ctx.code ++ o.toList.flatMap encode }) := by
  cases h with
  | comment hblanks htail => simp [asmLine_comment herr hblanks htail]
  | @instr blanks word args blanks' tail ins hrange hblanks hword hargs hblanks' htail =>
    have hasm := assemble_operands hrange hword hargs (stopsAt_tail hblanks' htail) ctx
    simp only [Option.toList_some, List.flatMap_singleton] at hfit ⊢
    rw [done, emitBytes_eq hfit] at hasm
    rw [asmLine_word herr hblanks hword, hasm]

/-! ## Programs -/

theorem programLoop_line {line rest : List Char} {ctx ctx' : AsmContext} (hline : '\n' ∉ line)
    (hlen : line.length ≤ 255) (hasm : asmLine ctx line = (0, ctx')) (fuel lineNum : Nat) :
    programLoop (fuel + 1) lineNum ctx (line ++ '\n' :: rest) = programLoop fuel (lineNum + 1) ctx' rest := by
  have htake := takeLine_line hline hlen rest
  obtain ⟨c, program, hcons⟩ : ∃ c program, line ++ '\n' :: rest = c :: program :=
    List.exists_cons_of_ne_nil (by simp)
  rw [hcons] at htake ⊢
  simp [programLoop_cons, htake, hasm]

theorem programLoop_last {line : List Char} {ctx ctx' : AsmContext} (hline : '\n' ∉ line) (hlen : line.length ≤ 255)
    (hasm : asmLine ctx line = (0, ctx')) {fuel : Nat} (hfuel : line.length ≤ fuel) (lineNum : Nat) :
    programLoop fuel lineNum ctx line = (0, ctx') := by
  cases line with
  | nil =>
    have hnil : asmLine ctx [] = (0, ctx') := hasm
    have hsame : ctx = ctx' := by
      simp only [asmLine, List.dropWhile_nil] at hnil
      split at hnil <;> simp_all
    cases fuel <;> simp [programLoop, hsame]
  | cons c program =>
    cases fuel with
    | zero => simp at hfuel
    | succ fuel =>
      rw [programLoop_cons, takeLine_last hline hlen, hasm]
      cases fuel <;> simp [programLoop]

/-- **A program of the language is assembled**: the encodings of its instructions are emitted in order. -/
theorem programLoop_source {lines : List (List Char)} {instrs : List Instr} (h : SourceProgram FitsBuffer lines instrs)
    (hlen : ∀ line ∈ lines, line.length ≤ 255) {ctx : AsmContext} (herr : ctx.error = false)
    (hfit : ctx.code.length + (instrs.flatMap encode).length ≤ maxAsmSize) {fuel : Nat}
    (hfuel : (['\n'].intercalate lines).length ≤ fuel) (lineNum : Nat) :
    programLoop fuel lineNum ctx (['\n'].intercalate lines) =
      (0, { ctx with code := ctx.code ++ instrs.flatMap encode }) := by
  induction h generalizing ctx fuel lineNum with
  | nil => cases fuel <;> simp [programLoop]
  | @cons line o lines instrs hline hnl hrest ih =>
    rw [List.flatMap_append, List.length_append] at hfit
    have hasm := asmLine_source hline herr (by omega)
    have hshort := hlen line List.mem_cons_self
    cases hrest with
    | nil =>
      simp only [List.intercalate_singleton] at hfuel ⊢
      rw [programLoop_last hnl hshort hasm hfuel]
      simp
    | @cons line' o' lines instrs hline' hnl' hrest' =>
      rw [List.intercalate_cons_cons] at hfuel ⊢
      cases fuel with
      | zero => simp at hfuel
      | succ fuel =>
        rw [List.append_assoc, List.singleton_append, programLoop_line hnl hshort hasm]
        refine (ih (fun l hl => hlen l (List.mem_cons_of_mem _ hl)) ?_ ?_ ?_ _).trans ?_
        · exact herr
        · simp only [List.length_append] at hfit ⊢
          omega
        · simp only [List.length_append, List.length_singleton] at hfuel
          omega
        · simp

theorem SourceLine.inRange {P : List Char → Prop} {line : List Char} {o : Option Instr} (h : SourceLine P line o) :
    ∀ ins ∈ o.toList, InRange ins := by
  cases h with
  | comment => simp
  | instr hrange => simpa using hrange

theorem SourceProgram.inRange {P : List Char → Prop} {lines : List (List Char)} {instrs : List Instr}
    (h : SourceProgram P lines instrs) : ∀ ins ∈ instrs, InRange ins := by
  induction h with
  | nil => simp
  | cons hline _ _ ih =>
    intro ins hmem
    rcases List.mem_append.mp hmem with hmem | hmem
    · exact hline.inRange ins hmem
    · exact ih ins hmem

/-- **The assembler is right**: what it emits for a program of the language is decoded as the instructions of the
program. -/
theorem asmProgram_decode {lines : List (List Char)} {instrs : List Instr} (h : SourceProgram FitsBuffer lines instrs)
    (hlen : ∀ line ∈ lines, line.length ≤ 255) (hfit : (instrs.flatMap encode).length ≤ maxAsmSize) :
    (asmProgram asmInit (['\n'].intercalate lines)).1 = 0 ∧
      decodeAll (asmProgram asmInit (['\n'].intercalate lines)).2.code = some instrs := by
  have hrun : asmProgram asmInit (['\n'].intercalate lines) =
      (0, { asmInit with code := asmInit.code ++ instrs.flatMap encode }) :=
    programLoop_source h hlen rfl (by simpa [asmInit] using hfit) (le_refl _) 1
  rw [hrun]
  refine ⟨rfl, ?_⟩
  apply decodeAll_flatMap
  intro ins hins
  have hrange := h.inRange ins hins
  exact ⟨encode_ne_nil hrange, decode_encode hrange⟩

/-- `MOV r9, -0x1F;`, a comment and `syscall`. -/
def sampleLines : List (List Char) :=
  [['M', 'O', 'V', ' ', 'r', '9', ',', ' ', '-', '0', 'x', '1', 'F', ' ', ';'], ['#', ' ', 'c', 'a', 'l', 'l'],
    ['s', 'y', 's', 'c', 'a', 'l', 'l']]

theorem sourceProgram_sample : SourceProgram FitsBuffer sampleLines [.movImm 9 (-31), .syscall] := by
  have hone : Numeral hexDigit 16 ['1'] 1 := .one (by decide)
  have hdigits : Numeral hexDigit 16 ['1', 'F'] 31 := .snoc hone (show hexDigit 'F' = some 15 by decide)
  have himm : ImmText ['-', '0', 'x', '1', 'F'] (-31) := .neg (.hex (.inl rfl) hdigits)
  have hargs : OperandsText FitsBuffer ([' '] ++ ['r', '9'] ++ [',', ' '] ++ ['-', '0', 'x', '1', 'F'])
      (operands (.movImm 9 (-31))) :=
    .two (by decide) (by decide) (.reg 9) (by decide) (by decide) (by decide) (.imm himm) (by decide)
  have hmov : SourceLine FitsBuffer ([] ++ (['M', 'O', 'V'] ++ (([' '] ++ ['r', '9'] ++ [',', ' '] ++
      ['-', '0', 'x', '1', 'F']) ++ ([' '] ++ [';'])))) (some (.movImm 9 (-31))) :=
    .instr (by norm_num [InRange]) (by decide) (by decide) hargs (by decide) (.inr ⟨_, _, rfl, .inl rfl⟩)
  have hcomment : SourceLine FitsBuffer ([] ++ ['#', ' ', 'c', 'a', 'l', 'l']) none :=
    .comment (by decide) (.inr ⟨_, _, rfl, .inr rfl⟩)
  have hsyscall : SourceLine FitsBuffer ([] ++ (['s', 'y', 's', 'c', 'a', 'l', 'l'] ++ ([] ++ ([] ++ []))))
      (some .syscall) := .instr trivial (by decide) (by decide) .none (by decide) (.inl rfl)
  exact .cons hmov (by decide) (.cons hcomment (by decide) (.cons hsyscall (by decide) .nil))

theorem asmProgram_decode_sample :
    (asmProgram asmInit (['\n'].intercalate sampleLines)).1 = 0 ∧
      decodeAll (asmProgram asmInit (['\n'].intercalate sampleLines)).2.code = some [.movImm 9 (-31), .syscall] :=
  asmProgram_decode sourceProgram_sample (by decide) (by decide)

/-- Zeros have the value zero. -/
theorem numeral_zeros (n : Nat) : Numeral decDigit 10 (List.replicate (n + 1) '0') 0 := by
  induction n with
  | zero => exact .one (by decide)
  | succ n ih =>
    have hstep := Numeral.snoc ih (show decDigit '0' = some 0 by decide)
    rwa [← List.replicate_succ'] at hstep

/-- `1` with 63 zeros in front. -/
def longOne : List Char := List.replicate 63 '0' ++ ['1']

theorem immText_longOne : ImmText longOne 1 :=
  .pos (.dec (.snoc (numeral_zeros 62) (show decDigit '1' = some 1 by decide)))

/-- The text of an operand is cut off after 63 characters: `mov rcx, 0…01` with 63 zeros sets the register to zero. -/
theorem asmProgram_longOperand :
    ¬ ∀ (lines : List (List Char)) (instrs : List Instr), SourceProgram (fun _ => True) lines instrs →
      (∀ line ∈ lines, line.length ≤ 255) → (instrs.flatMap encode).length ≤ maxAsmSize →
      (asmProgram asmInit (['\n'].intercalate lines)).1 = 0 ∧
        decodeAll (asmProgram asmInit (['\n'].intercalate lines)).2.code = some instrs := by
  intro hall
  have hargs : OperandsText (fun _ => True) ([' '] ++ ['r', 'c', 'x'] ++ [','] ++ longOne) (operands (.movImm 1 1)) :=
    .two (by decide) (by decide) (.reg 1) trivial (by decide) (by decide) (.imm immText_longOne) trivial
  have hmov : SourceLine (fun _ => True) ([] ++ (['m', 'o', 'v'] ++ (([' '] ++ ['r', 'c', 'x'] ++ [','] ++ longOne) ++
      ([] ++ [])))) (some (.movImm 1 1)) :=
    .instr (by norm_num [InRange]) (by decide) (by decide) hargs (by decide) (.inl rfl)
  have hprogram := hall _ _ (.cons hmov (by decide) .nil) (by decide) (by decide)
  exact absurd hprogram.2 (by decide +kernel)

end AmqOs.Assembler
