import Mathlib

/-!
# The x86-64 instruction format

Decoding of some 64-bit instructions whose operands are registers and immediates: an optional REX prefix, one or two
opcode bytes, a ModRM byte that addresses a register (`mod` = 3), and an immediate in little-endian order.
`decodeAll` decodes a sequence of bytes linearly.

- A REX prefix is `0100WRXB`: `W` selects 64-bit operands, `R` and `B` extend the two register fields of ModRM, and `B`
  the register field of an opcode.
- In the forms `op r/m64, r64` the destination is the `r/m` field.
- Immediates of 1 and 4 bytes are sign-extended, but for shift counts.
-/

set_option autoImplicit false

namespace AmqOs.Lib.X86

/-- A general-purpose register. -/
abbrev Reg := Fin 16

inductive AluOp
  | add
  | or
  | and
  | sub
  | xor
  | cmp
  deriving DecidableEq

inductive UnaryOp
  | inc
  | dec
  | not
  | neg
  deriving DecidableEq

inductive ShiftOp
  | shl
  | shr
  deriving DecidableEq

inductive Instr
  | movReg (dst src : Reg)
  | movImm (dst : Reg) (imm : Int)
  | aluReg (op : AluOp) (dst src : Reg)
  | aluImm (op : AluOp) (dst : Reg) (imm : Int)
  | unary (op : UnaryOp) (reg : Reg)
  | shift (op : ShiftOp) (reg : Reg) (count : Nat)
  | callReg (reg : Reg)
  | callRel (offset : Int)
  | push (reg : Reg)
  | pop (reg : Reg)
  | syscall
  | ret
  | nop
  deriving DecidableEq

/-! ## Fields -/

structure Rex where
  w : Bool
  r : Bool
  b : Bool
  deriving DecidableEq

/-- The REX prefix, if the first byte is one. -/
def takeRex : List UInt8 → Rex × List UInt8
  | [] => (⟨false, false, false⟩, [])
  | c :: l =>
    if c.toNat / 16 = 4 then (⟨c.toNat.testBit 3, c.toNat.testBit 2, c.toNat.testBit 0⟩, l)
    else (⟨false, false, false⟩, c :: l)

/-- A register field of three bits with its extension. -/
def extend (ext : Bool) (field : Nat) : Reg := Fin.ofNat 16 (field % 8 + if ext then 8 else 0)

/-- The value of bytes in little-endian order. -/
def ofLE : List UInt8 → Nat
  | [] => 0
  | c :: l => c.toNat + 256 * ofLE l

/-- An immediate of `n` bytes. -/
def takeImm (n : Nat) (l : List UInt8) : Option (Nat × List UInt8) :=
  if l.length < n then none else some (ofLE (l.take n), l.drop n)

/-- A number of `n` bytes, in two's complement. -/
def signed (n : Nat) (value : Nat) : Int := Int.bmod value (2 ^ (8 * n))

def takeSigned (n : Nat) (l : List UInt8) : Option (Int × List UInt8) :=
  (takeImm n l).map fun out => (signed n out.1, out.2)

/-- The fields `reg` and `r/m` of a ModRM byte with `mod` = 3. -/
def takeModRM : List UInt8 → Option (Nat × Nat × List UInt8)
  | [] => none
  | c :: l => if c.toNat / 64 = 3 then some (c.toNat / 8 % 8, c.toNat % 8, l) else none

/-! ## Instructions -/

/-- The operation of the opcodes `op r/m64, r64`. -/
def aluOpcode (opcode : Nat) : Option AluOp :=
  if opcode = 0x01 then some .add
  else if opcode = 0x09 then some .or
  else if opcode = 0x21 then some .and
  else if opcode = 0x29 then some .sub
  else if opcode = 0x31 then some .xor
  else if opcode = 0x39 then some .cmp
  else none

/-- The operation that the `reg` field selects in opcode 83. -/
def aluField : Nat → Option AluOp
  | 0 => some .add
  | 1 => some .or
  | 4 => some .and
  | 5 => some .sub
  | 6 => some .xor
  | 7 => some .cmp
  | _ => none

/-- An instruction with a ModRM byte and 64-bit operands. -/
def decodeModRM (rex : Rex) (opcode reg rm : Nat) (l : List UInt8) : Option (Instr × List UInt8) :=
  let dst := extend rex.b rm
  if opcode = 0x89 then some (.movReg dst (extend rex.r reg), l)
  else if opcode = 0xC7 then
    if reg = 0 then (takeSigned 4 l).map fun out => (.movImm dst out.1, out.2) else none
  else if opcode = 0x83 then
    (aluField reg).bind fun op => (takeSigned 1 l).map fun out => (.aluImm op dst out.1, out.2)
  else if opcode = 0xC1 then
    if reg = 4 then (takeImm 1 l).map fun out => (.shift .shl dst out.1, out.2)
    else if reg = 5 then (takeImm 1 l).map fun out => (.shift .shr dst out.1, out.2)
    else none
  else if opcode = 0xF7 then
    if reg = 2 then some (.unary .not dst, l) else if reg = 3 then some (.unary .neg dst, l) else none
  else if opcode = 0xFF then
    if reg = 0 then some (.unary .inc dst, l)
    else if reg = 1 then some (.unary .dec dst, l)
    else if reg = 2 then some (.callReg dst, l)
    else none
  else (aluOpcode opcode).map fun op => (.aluReg op dst (extend rex.r reg), l)

/-- An instruction after its REX prefix. -/
def decodeOpcode (rex : Rex) : List UInt8 → Option (Instr × List UInt8)
  | [] => none
  | c :: l =>
    let opcode := c.toNat
    if opcode / 8 = 0x50 / 8 then some (.push (extend rex.b opcode), l)
    else if opcode / 8 = 0x58 / 8 then some (.pop (extend rex.b opcode), l)
    else if opcode = 0xC3 then some (.ret, l)
    else if opcode = 0xE8 then (takeSigned 4 l).map fun out => (.callRel out.1, out.2)
    else if opcode = 0x90 then if rex.b then none else some (.nop, l)
    else if opcode = 0x0F then
      match l with
      | [] => none
      | d :: l => if d.toNat = 0x05 then some (.syscall, l) else none
    else if rex.w = false then none
    else if opcode / 8 = 0xB8 / 8 then
      (takeSigned 8 l).map fun out => (.movImm (extend rex.b opcode) out.1, out.2)
    else (takeModRM l).bind fun out => decodeModRM rex opcode out.1 out.2.1 out.2.2

def decode (l : List UInt8) : Option (Instr × List UInt8) := decodeOpcode (takeRex l).1 (takeRex l).2

/-- At most `fuel` instructions, to the end of the bytes. -/
def decodeFrom : Nat → List UInt8 → Option (List Instr)
  | _, [] => some []
  | 0, _ :: _ => none
  | fuel + 1, c :: l =>
    match decode (c :: l) with
    | none => none
    | some (ins, rest) => (decodeFrom fuel rest).map (ins :: ·)

/-- The instructions of a sequence of bytes. An instruction takes at least one. -/
def decodeAll (l : List UInt8) : Option (List Instr) := decodeFrom l.length l

/-! ## Linear decoding -/

/-- Encodings that `decode` reads back are decoded one after the other. -/
theorem decodeAll_flatMap {encode : Instr → List UInt8} {instrs : List Instr}
    (h : ∀ ins ∈ instrs, encode ins ≠ [] ∧ ∀ rest, decode (encode ins ++ rest) = some (ins, rest)) :
    decodeAll (instrs.flatMap encode) = some instrs := by
  have hgo : ∀ fuel, (instrs.flatMap encode).length ≤ fuel →
      decodeFrom fuel (instrs.flatMap encode) = some instrs := by
    induction instrs with
    | nil =>
      intro fuel _
      cases fuel <;> rfl
    | cons ins instrs ih =>
      intro fuel hfuel
      obtain ⟨hne, hdec⟩ := h ins List.mem_cons_self
      have hrest := ih fun i hi => h i (List.mem_cons_of_mem _ hi)
      have hread := hdec (instrs.flatMap encode)
      rw [List.flatMap_cons] at hfuel ⊢
      obtain ⟨c, l, hcl⟩ := List.exists_cons_of_ne_nil hne
      rw [hcl, List.cons_append] at hfuel hread ⊢
      cases fuel with
      | zero => simp at hfuel
      | succ fuel =>
        have hlen : (instrs.flatMap encode).length ≤ fuel := by
          simp only [List.length_cons, List.length_append] at hfuel
          omega
        simp only [decodeFrom, hread, hrest fuel hlen, Option.map_some]
  exact hgo _ (le_refl _)

end AmqOs.Lib.X86
