import AmqOs.Lib.Scan

/-!
# The assembler

`asm.c`: the instruction encoders, the operand parsers, `asm_line` and `asm_program`. A C string is the list of its
characters before the terminator. `code` holds the first `size` bytes of the array of that name. `int64_t` values are
integers that wrap; the casts of an immediate to a narrower type wrap too.
-/

set_option autoImplicit false

namespace AmqOs.Assembler

open AmqOs.Lib

/-- `MAX_ASM_SIZE`. -/
def maxAsmSize : Nat := 4096

/-- `asm_context_t`. -/
structure AsmContext where
  code : List UInt8
  error : Bool
  errorMsg : List Char

/-- `asm_init`. -/
def asmInit : AsmContext := ⟨[], false, []⟩

/-- `asm_error`. -/
def asmError (ctx : AsmContext) (msg : String) : AsmContext :=
  { ctx with error := true, errorMsg := msg.toList.take 255 }

/-- `asm_emit`. -/
def asmEmit (ctx : AsmContext) (byte : UInt8) : AsmContext :=
  if ctx.code.length ≥ maxAsmSize then asmError ctx "Code size exceeded" else { ctx with code := ctx.code ++ [byte] }

/-- The calls of `asm_emit` in an encoder. -/
def emitBytes (ctx : AsmContext) (bytes : List UInt8) : AsmContext := bytes.foldl asmEmit ctx

/-! ## Encoders -/

/-- `(imm >> (i * 8)) & 0xFF`. -/
def byteAt (imm : Int) (i : Nat) : UInt8 := UInt8.ofNat (imm / 2 ^ (8 * i) % 256).toNat

/-- The first `n` bytes of an immediate. -/
def immBytes (n : Nat) (imm : Int) : List UInt8 := (List.range n).map (byteAt imm)

/-- A cast to a signed type of `n` bytes. -/
def castTo (n : Nat) (imm : Int) : Int := Int.bmod imm (2 ^ (8 * n))

/-- REX, opcode and ModRM of an instruction with two registers. -/
def regReg (opcode : UInt8) (dst src : Nat) : List UInt8 :=
  let rex : UInt8 := 0x48
  let (rex, src) := if src ≥ 8 then (rex ||| 0x04, src - 8) else (rex, src)
  let (rex, dst) := if dst ≥ 8 then (rex ||| 0x01, dst - 8) else (rex, dst)
  [rex, opcode, (0xC0 : UInt8) ||| (UInt8.ofNat src <<< 3) ||| UInt8.ofNat dst]

/-- REX, opcode and ModRM of an instruction with one register; `base` holds the opcode extension. -/
def oneReg (opcode base : UInt8) (reg : Nat) : List UInt8 :=
  let rex : UInt8 := 0x48
  let (rex, reg) := if reg ≥ 8 then (rex ||| 0x01, reg - 8) else (rex, reg)
  [rex, opcode, base ||| UInt8.ofNat reg]

/-- An instruction of one byte that holds the register. -/
def shortReg (base : UInt8) (reg : Nat) : List UInt8 :=
  if reg ≥ 8 then [0x41, base ||| UInt8.ofNat (reg - 8)] else [base ||| UInt8.ofNat reg]

/-- `asm_call_rel32`. -/
def asmCallRel32 (offset : Int) : List UInt8 := 0xE8 :: immBytes 4 offset

/-- `asm_call_reg`. -/
def asmCallReg (reg : Nat) : List UInt8 := oneReg 0xFF 0xD0 reg

/-- `asm_mov_rax_imm64`. -/
def asmMovRaxImm64 (imm : Int) : List UInt8 := 0x48 :: 0xB8 :: immBytes 8 imm

/-- `asm_mov_reg_imm32`. -/
def asmMovRegImm32 (reg : Nat) (imm : Int) : List UInt8 := oneReg 0xC7 0xC0 reg ++ immBytes 4 imm

/-- `asm_mov_reg_reg`. -/
def asmMovRegReg (dst src : Nat) : List UInt8 := regReg 0x89 dst src

/-- `asm_add_reg_imm8`. -/
def asmAddRegImm8 (reg : Nat) (imm : Int) : List UInt8 := oneReg 0x83 0xC0 reg ++ immBytes 1 imm

/-- `asm_add_reg_reg`. -/
def asmAddRegReg (dst src : Nat) : List UInt8 := regReg 0x01 dst src

/-- `asm_sub_reg_imm8`. -/
def asmSubRegImm8 (reg : Nat) (imm : Int) : List UInt8 := oneReg 0x83 0xE8 reg ++ immBytes 1 imm

/-- `asm_sub_reg_reg`. -/
def asmSubRegReg (dst src : Nat) : List UInt8 := regReg 0x29 dst src

/-- `asm_xor_reg_reg`. -/
def asmXorRegReg (dst src : Nat) : List UInt8 := regReg 0x31 dst src

/-- `asm_or_reg_reg`. -/
def asmOrRegReg (dst src : Nat) : List UInt8 := regReg 0x09 dst src

/-- `asm_and_reg_reg`. -/
def asmAndRegReg (dst src : Nat) : List UInt8 := regReg 0x21 dst src

/-- `asm_cmp_reg_imm8`. -/
def asmCmpRegImm8 (reg : Nat) (imm : Int) : List UInt8 := oneReg 0x83 0xF8 reg ++ immBytes 1 imm

/-- `asm_cmp_reg_reg`. -/
def asmCmpRegReg (dst src : Nat) : List UInt8 := regReg 0x39 dst src

/-- `asm_push_reg`. -/
def asmPushReg (reg : Nat) : List UInt8 := shortReg 0x50 reg

/-- `asm_pop_reg`. -/
def asmPopReg (reg : Nat) : List UInt8 := shortReg 0x58 reg

/-- `asm_syscall`. -/
def asmSyscall : List UInt8 := [0x0F, 0x05]

/-- `asm_ret`. -/
def asmRet : List UInt8 := [0xC3]

/-- `asm_nop`. -/
def asmNop : List UInt8 := [0x90]

/-- `asm_inc_reg`. -/
def asmIncReg (reg : Nat) : List UInt8 := oneReg 0xFF 0xC0 reg

/-- `asm_dec_reg`. -/
def asmDecReg (reg : Nat) : List UInt8 := oneReg 0xFF 0xC8 reg

/-- `asm_neg_reg`. -/
def asmNegReg (reg : Nat) : List UInt8 := oneReg 0xF7 0xD8 reg

/-- `asm_not_reg`. -/
def asmNotReg (reg : Nat) : List UInt8 := oneReg 0xF7 0xD0 reg

/-- `asm_shl_reg_imm8`. -/
def asmShlRegImm8 (reg : Nat) (imm : Int) : List UInt8 := oneReg 0xC1 0xE0 reg ++ immBytes 1 imm

/-- `asm_shr_reg_imm8`. -/
def asmShrRegImm8 (reg : Nat) (imm : Int) : List UInt8 := oneReg 0xC1 0xE8 reg ++ immBytes 1 imm

/-! ## Operands -/

def isBlank (c : Char) : Bool := c = ' ' || c = '\t'

/-- `s[i]`, which is the terminator at the end. -/
def charAt (s : List Char) (i : Nat) : Char := s.getD i '\x00'

/-- `c == '\0' || c == ' ' || c == ','`. -/
def endsName (c : Char) : Bool := c = '\x00' || c = ' ' || c = ','

/-- The name of a register with three letters. -/
def isName (reg : List Char) (a b c : Char) : Bool :=
  charAt reg 0 = a && charAt reg 1 = b && charAt reg 2 = c && endsName (charAt reg 3)

/-- `parse_register`. -/
def parseRegister (reg : List Char) : Option Nat :=
  let reg := reg.dropWhile isBlank
  if isName reg 'r' 'a' 'x' then some 0
  else if isName reg 'r' 'c' 'x' then some 1
  else if isName reg 'r' 'd' 'x' then some 2
  else if isName reg 'r' 'b' 'x' then some 3
  else if isName reg 'r' 's' 'p' then some 4
  else if isName reg 'r' 'b' 'p' then some 5
  else if isName reg 'r' 's' 'i' then some 6
  else if isName reg 'r' 'd' 'i' then some 7
  else if charAt reg 0 = 'r' && '8' ≤ charAt reg 1 && charAt reg 1 ≤ '9' && endsName (charAt reg 2) then
    some (8 + ((charAt reg 1).toNat - '8'.toNat))
  else if charAt reg 0 = 'r' && charAt reg 1 = '1' && '0' ≤ charAt reg 2 && charAt reg 2 ≤ '5' &&
      endsName (charAt reg 3) then
    some (10 + ((charAt reg 2).toNat - '0'.toNat))
  else if isName reg 'e' 'a' 'x' then some 0
  else if isName reg 'e' 'c' 'x' then some 1
  else if isName reg 'e' 'd' 'x' then some 2
  else if isName reg 'e' 'b' 'x' then some 3
  else if isName reg 'e' 's' 'p' then some 4
  else if isName reg 'e' 'b' 'p' then some 5
  else if isName reg 'e' 's' 'i' then some 6
  else if isName reg 'e' 'd' 'i' then some 7
  else none

def decDigit (c : Char) : Option Nat := if '0' ≤ c && c ≤ '9' then some (c.toNat - '0'.toNat) else none

def hexDigit (c : Char) : Option Nat :=
  if '0' ≤ c && c ≤ '9' then some (c.toNat - '0'.toNat)
  else if 'a' ≤ c && c ≤ 'f' then some (c.toNat - 'a'.toNat + 10)
  else if 'A' ≤ c && c ≤ 'F' then some (c.toNat - 'A'.toNat + 10)
  else none

/-- The loops of `parse_immediate`. -/
def digitsLoop (digit : Char → Option Nat) (base : Int) : Int → List Char → Int
  | val, [] => val
  | val, c :: s =>
    match digit c with
    | none => val
    | some d => digitsLoop digit base (castTo 8 (val * base + d)) s

/-- `parse_immediate`. -/
def parseImmediate (str : List Char) : Int :=
  let str := str.dropWhile isBlank
  let neg := charAt str 0 = '-'
  let str := if neg then str.drop 1 else str
  let val :=
    if charAt str 0 = '0' && (charAt str 1 = 'x' || charAt str 1 = 'X') then digitsLoop hexDigit 16 0 (str.drop 2)
    else digitsLoop decDigit 10 0 str
  if neg then castTo 8 (-val) else val

/-! ## Lines -/

/-- `STRNCMP(s, literal, n) == 0` with the length of the literal. -/
def startsWith (s : List Char) (literal : String) : Bool := literal.toList.isPrefixOf s

/-- `c += 32` for upper case letters. -/
def lower (c : Char) : Char := if 'A' ≤ c && c ≤ 'Z' then Char.ofNat (c.toNat + 32) else c

/-- A character of an operand. -/
def isArg (c : Char) : Bool := !(c = ',' || isBlank c || c = ';' || c = '#' || c = '\n' || c = '\r')

/-- The mnemonic and the operands, with the sizes of their buffers. -/
def splitLine (line : List Char) : List Char × List Char × List Char :=
  let (mnemonic, line) := scan (fun c => !isBlank c) 31 line
  let (arg1, line) := scan isArg 63 (line.dropWhile isBlank)
  let (arg2, _) := scan isArg 63 (line.dropWhile fun c => isBlank c || c = ',')
  (mnemonic.map lower, arg1, arg2)

def fail (ctx : AsmContext) (msg : String) : Int × AsmContext := (-1, asmError ctx msg)

def done (ctx : AsmContext) (bytes : List UInt8) : Int × AsmContext := (0, emitBytes ctx bytes)

/-- `mov`. -/
def lineMov (ctx : AsmContext) (arg1 arg2 : List Char) : Int × AsmContext :=
  match parseRegister arg1, parseRegister arg2 with
  | none, _ => fail ctx "Invalid destination register"
  | some reg1, some reg2 => done ctx (asmMovRegReg reg1 reg2)
  | some reg1, none =>
    let imm := parseImmediate arg2
    if reg1 = 0 ∧ (imm > 0x7FFFFFFF ∨ imm < -0x80000000) then done ctx (asmMovRaxImm64 imm)
    else done ctx (asmMovRegImm32 reg1 (castTo 4 imm))

/-- `add`, `sub` and `cmp`: the second operand is a register or an immediate of one byte. -/
def lineRegImm (ctx : AsmContext) (arg1 arg2 : List Char) (msg : String) (regs : Nat → Nat → List UInt8)
    (imm8 : Nat → Int → List UInt8) : Int × AsmContext :=
  match parseRegister arg1, parseRegister arg2 with
  | none, _ => fail ctx msg
  | some reg1, some reg2 => done ctx (regs reg1 reg2)
  | some reg1, none =>
    let imm := parseImmediate arg2
    if imm ≥ -128 ∧ imm ≤ 127 then done ctx (imm8 reg1 (castTo 1 imm))
    else fail ctx "Immediate out of range (-128 to 127)"

/-- `xor`, `or` and `and`. -/
def lineRegs (ctx : AsmContext) (arg1 arg2 : List Char) (regs : Nat → Nat → List UInt8) : Int × AsmContext :=
  match parseRegister arg1, parseRegister arg2 with
  | some reg1, some reg2 => done ctx (regs reg1 reg2)
  | _, _ => fail ctx "Invalid register"

/-- `call`. -/
def lineCall (ctx : AsmContext) (arg1 : List Char) : Int × AsmContext :=
  match parseRegister arg1 with
  | some reg => done ctx (asmCallReg reg)
  | none => done ctx (asmCallRel32 (castTo 4 (parseImmediate arg1)))

/-- The instructions with one register. -/
def lineReg (ctx : AsmContext) (arg1 : List Char) (encode : Nat → List UInt8) : Int × AsmContext :=
  match parseRegister arg1 with
  | some reg => done ctx (encode reg)
  | none => fail ctx "Invalid register"

/-- `shl` and `shr`. -/
def lineShift (ctx : AsmContext) (arg1 arg2 : List Char) (encode : Nat → Int → List UInt8) : Int × AsmContext :=
  match parseRegister arg1 with
  | none => fail ctx "Invalid register"
  | some reg =>
    let imm := parseImmediate arg2
    if imm < 0 ∨ imm > 63 then fail ctx "Shift count out of range (0-63)" else done ctx (encode reg (castTo 1 imm))

/-- The instruction that the mnemonic names. -/
def assemble (ctx : AsmContext) (mnemonic arg1 arg2 : List Char) : Int × AsmContext :=
  if startsWith mnemonic "mov" then lineMov ctx arg1 arg2
  else if startsWith mnemonic "add" then
    lineRegImm ctx arg1 arg2 "Invalid destination register" asmAddRegReg asmAddRegImm8
  else if startsWith mnemonic "sub" then
    lineRegImm ctx arg1 arg2 "Invalid destination register" asmSubRegReg asmSubRegImm8
  else if startsWith mnemonic "xor" then lineRegs ctx arg1 arg2 asmXorRegReg
  else if startsWith mnemonic "or" then lineRegs ctx arg1 arg2 asmOrRegReg
  else if startsWith mnemonic "and" then lineRegs ctx arg1 arg2 asmAndRegReg
  else if startsWith mnemonic "cmp" then lineRegImm ctx arg1 arg2 "Invalid register" asmCmpRegReg asmCmpRegImm8
  else if startsWith mnemonic "call" then lineCall ctx arg1
  else if startsWith mnemonic "push" then lineReg ctx arg1 asmPushReg
  else if startsWith mnemonic "pop" then lineReg ctx arg1 asmPopReg
  else if startsWith mnemonic "inc" then lineReg ctx arg1 asmIncReg
  else if startsWith mnemonic "dec" then lineReg ctx arg1 asmDecReg
  else if startsWith mnemonic "neg" then lineReg ctx arg1 asmNegReg
  else if startsWith mnemonic "not" then lineReg ctx arg1 asmNotReg
  else if startsWith mnemonic "shl" then lineShift ctx arg1 arg2 asmShlRegImm8
  else if startsWith mnemonic "shr" then lineShift ctx arg1 arg2 asmShrRegImm8
  else if startsWith mnemonic "syscall" then done ctx asmSyscall
  else if startsWith mnemonic "ret" then done ctx asmRet
  else if startsWith mnemonic "nop" then done ctx asmNop
  else fail ctx "Unknown instruction"

/-- `asm_line`. -/
def asmLine (ctx : AsmContext) (line : List Char) : Int × AsmContext :=
  if ctx.error then (-1, ctx)
  else
    match line.dropWhile isBlank with
    | [] => (0, ctx)
    | c :: line =>
      if c = ';' || c = '#' then (0, ctx)
      else
        let (mnemonic, arg1, arg2) := splitLine (c :: line)
        assemble ctx mnemonic arg1 arg2

/-! ## Programs -/

/-- The message of a failed line. -/
def lineError (ctx : AsmContext) (lineNum : Nat) : AsmContext :=
  { ctx with errorMsg := ("Line ".toList ++ Nat.toDigits 10 lineNum ++ ": ".toList ++ ctx.errorMsg).take 255 }

/-- The loop of `asm_program`; every iteration takes at least one character. -/
def programLoop : Nat → Nat → AsmContext → List Char → Int × AsmContext
  | _, _, ctx, [] => (0, ctx)
  | 0, _, ctx, _ :: _ => (0, ctx)
  | fuel + 1, lineNum, ctx, c :: program =>
    let (line, rest) := scan (fun c => !(c = '\n')) 255 (c :: program)
    let rest := if charAt rest 0 = '\n' then rest.drop 1 else rest
    let (result, ctx) := asmLine ctx line
    if result < 0 then (-1, lineError ctx lineNum) else programLoop fuel (lineNum + 1) ctx rest

/-- `asm_program`. -/
def asmProgram (ctx : AsmContext) (program : List Char) : Int × AsmContext :=
  programLoop program.length 1 ctx program

end AmqOs.Assembler
