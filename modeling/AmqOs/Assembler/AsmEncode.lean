import AmqOs.Assembler.AsmOutcome
import AmqOs.Lib.X86

/-!
# The encoders against the instruction format

`encode` chooses the encoder of an instruction. What it emits is decoded as that instruction (`decode_encode`), for every
register and every immediate in range (`InRange`).
-/

set_option autoImplicit false

namespace AmqOs.Assembler

open AmqOs.Lib AmqOs.Lib.X86

/-- The encoding of an instruction; `or`, `and` and `xor` with an immediate are not part of the language. -/
def encode : Instr → List UInt8
  | .movReg dst src => asmMovRegReg dst src
  | .movImm dst imm =>
    if dst.val = 0 ∧ (imm > 0x7FFFFFFF ∨ imm < -0x80000000) then asmMovRaxImm64 imm else asmMovRegImm32 dst imm
  | .aluReg .add dst src => asmAddRegReg dst src
  | .aluReg .or dst src => asmOrRegReg dst src
  | .aluReg .and dst src => asmAndRegReg dst src
  | .aluReg .sub dst src => asmSubRegReg dst src
  | .aluReg .xor dst src => asmXorRegReg dst src
  | .aluReg .cmp dst src => asmCmpRegReg dst src
  | .aluImm .add dst imm => asmAddRegImm8 dst imm
  | .aluImm .sub dst imm => asmSubRegImm8 dst imm
  | .aluImm .cmp dst imm => asmCmpRegImm8 dst imm
  | .aluImm _ _ _ => []
  | .unary .inc reg => asmIncReg reg
  | .unary .dec reg => asmDecReg reg
  | .unary .not reg => asmNotReg reg
  | .unary .neg reg => asmNegReg reg
  | .shift .shl reg count => asmShlRegImm8 reg count
  | .shift .shr reg count => asmShrRegImm8 reg count
  | .callReg reg => asmCallReg reg
  | .callRel offset => asmCallRel32 offset
  | .push reg => asmPushReg reg
  | .pop reg => asmPopReg reg
  | .syscall => asmSyscall
  | .ret => asmRet
  | .nop => asmNop

/-- The immediates of the language. -/
def InRange : Instr → Prop
  | .movImm dst imm => if dst.val = 0 then -2 ^ 63 < imm ∧ imm < 2 ^ 63 else -2 ^ 31 ≤ imm ∧ imm < 2 ^ 31
  | .aluImm op _ imm => (op = .add ∨ op = .sub ∨ op = .cmp) ∧ -128 ≤ imm ∧ imm ≤ 127
  | .shift _ _ count => count ≤ 63
  | .callRel offset => -2 ^ 31 ≤ offset ∧ offset < 2 ^ 31
  | _ => True

/-! ## Immediates -/

theorem immBytes_succ (n : Nat) (imm : Int) : immBytes (n + 1) imm = byteAt imm 0 :: immBytes n (imm / 256) := by
  unfold immBytes
  rw [List.range_succ_eq_map, List.map_cons, List.map_map]
  congr 2
  funext i
  simp only [Function.comp_apply, byteAt]
  rw [show 8 * (i + 1) = 8 + 8 * i by omega, pow_add, ← Int.ediv_ediv_of_nonneg (by norm_num)]
  norm_num

/-- The bytes are the value but for a multiple of the modulus. -/
theorem ofLE_immBytes (n : Nat) (imm : Int) :
    (ofLE (immBytes n imm) : Int) = imm - 2 ^ (8 * n) * (imm / 2 ^ (8 * n)) := by
  induction n generalizing imm with
  | zero => simp [immBytes, ofLE]
  | succ n ih =>
    have hbyte : ((byteAt imm 0).toNat : Int) = imm % 256 := by
      have h0 : 0 ≤ imm % 256 := Int.emod_nonneg _ (by norm_num)
      have h1 : imm % 256 < 256 := Int.emod_lt_of_pos _ (by norm_num)
      simp only [byteAt, Nat.mul_zero, pow_zero, Int.ediv_one, UInt8.toNat_ofNat']
      omega
    have hdiv : imm / 256 / 2 ^ (8 * n) = imm / 2 ^ (8 * (n + 1)) := by
      rw [Int.ediv_ediv_of_nonneg (by norm_num), show 8 * (n + 1) = 8 + 8 * n by omega, pow_add]
      norm_num
    rw [immBytes_succ, ofLE]
    push_cast
    rw [hbyte, ih, hdiv, Int.emod_def, show 8 * (n + 1) = 8 + 8 * n by omega, pow_add]
    ring

theorem takeImm_append (n : Nat) (imm : Int) (rest : List UInt8) :
    takeImm n (immBytes n imm ++ rest) = some (ofLE (immBytes n imm), rest) := by
  have hlen := length_immBytes n imm
  have hlong : ¬ (immBytes n imm ++ rest).length < n := by
    rw [List.length_append]
    omega
  rw [takeImm, if_neg hlong, List.take_left' hlen, List.drop_left' hlen]

theorem signed_immBytes {n : Nat} {imm : Int} (hlo : -2 ^ (8 * n) ≤ imm * 2) (hhi : imm * 2 < 2 ^ (8 * n)) :
    signed n (ofLE (immBytes n imm)) = imm := by
  unfold signed
  rw [ofLE_immBytes]
  have hcast : (2 : Int) ^ (8 * n) = ((2 ^ (8 * n) : Nat) : Int) := by push_cast; rfl
  rw [hcast, Int.sub_mul_bmod_self_left]
  rw [hcast] at hlo hhi
  exact Int.bmod_eq_of_le_mul_two hlo hhi

/-- An immediate in range is read back. -/
theorem takeSigned_append {n : Nat} {imm : Int} (hlo : -2 ^ (8 * n) ≤ imm * 2) (hhi : imm * 2 < 2 ^ (8 * n))
    (rest : List UInt8) : takeSigned n (immBytes n imm ++ rest) = some (imm, rest) := by
  rw [takeSigned, takeImm_append, Option.map_some, signed_immBytes hlo hhi]

/-- A shift count is read back. -/
theorem takeImm_count {count : Nat} (h : count ≤ 63) (rest : List UInt8) :
    takeImm 1 (immBytes 1 count ++ rest) = some (count, rest) := by
  rw [takeImm_append]
  have hval := ofLE_immBytes 1 count
  have hdiv : (count : Int) / 2 ^ (8 * 1) = 0 := Int.ediv_eq_zero_of_lt (by omega) (by norm_num; omega)
  rw [hdiv, mul_zero, sub_zero] at hval
  rw [Nat.cast_inj.mp hval]

/-! ## Registers -/

/-- The rest of the bits of a register, and the bit that goes into the prefix. -/
theorem extend_mod (reg : Reg) : extend (decide (8 ≤ reg.val)) (reg.val % 8) = reg := by
  revert reg
  decide

theorem modrm_toNat (hi lo : Fin 8) :
    ((0xC0 : UInt8) ||| (UInt8.ofNat hi.val <<< 3) ||| UInt8.ofNat lo.val).toNat = 192 + 8 * hi.val + lo.val := by
  revert hi lo
  decide

/-- An opcode that is followed by a ModRM byte. -/
def HasModRM (opcode : UInt8) : Prop :=
  opcode.toNat / 8 ≠ 0x50 / 8 ∧ opcode.toNat / 8 ≠ 0x58 / 8 ∧ opcode.toNat ≠ 0xC3 ∧ opcode.toNat ≠ 0xE8 ∧
    opcode.toNat ≠ 0x90 ∧ opcode.toNat ≠ 0x0F ∧ opcode.toNat / 8 ≠ 0xB8 / 8

instance (opcode : UInt8) : Decidable (HasModRM opcode) := inferInstanceAs (Decidable (_ ∧ _))

/-- A prefix with `W`, an opcode, and a ModRM byte that addresses a register. -/
theorem decode_modRM {prefixByte opcode : UInt8} {r b : Bool} (hi lo : Fin 8)
    (hrex : takeRex [prefixByte] = (⟨true, r, b⟩, [])) (hop : HasModRM opcode) (rest : List UInt8) :
    decode (prefixByte :: opcode ::
      ((0xC0 : UInt8) ||| (UInt8.ofNat hi.val <<< 3) ||| UInt8.ofNat lo.val) :: rest) =
      decodeModRM ⟨true, r, b⟩ opcode.toNat hi.val lo.val rest := by
  have hm := modrm_toNat hi lo
  generalize (0xC0 : UInt8) ||| (UInt8.ofNat hi.val <<< 3) ||| UInt8.ofNat lo.val = m at hm ⊢
  have htake : takeRex (prefixByte :: opcode :: m :: rest) = (⟨true, r, b⟩, opcode :: m :: rest) := by
    simp only [takeRex] at hrex ⊢
    split at hrex
    · rename_i h4
      rw [if_pos h4]
      rw [Prod.mk.injEq] at hrex ⊢
      exact ⟨hrex.1, rfl⟩
    · simp at hrex
  obtain ⟨h1, h2, h3, h4, h5, h6, h7⟩ := hop
  have hmod : m.toNat / 64 = 3 := by omega
  have hreg : m.toNat / 8 % 8 = hi.val := by omega
  have hrm : m.toNat % 8 = lo.val := by omega
  simp [decode, htake, decodeOpcode, h1, h2, h3, h4, h5, h6, h7, takeModRM, hmod, hreg, hrm]

theorem sub_eight {reg : Reg} (h : 8 ≤ reg.val) : reg.val - 8 = reg.val % 8 := by
  have := reg.isLt
  omega

theorem mod_eight {reg : Reg} (h : ¬ 8 ≤ reg.val) : reg.val = reg.val % 8 := by omega

theorem decode_regReg {opcode : UInt8} (hop : HasModRM opcode) (dst src : Reg) (rest : List UInt8) :
    decode (regReg opcode dst src ++ rest) = decodeModRM ⟨true, decide (8 ≤ src.val), decide (8 ≤ dst.val)⟩
      opcode.toNat (src.val % 8) (dst.val % 8) rest := by
  have hlt : ∀ reg : Reg, reg.val % 8 < 8 := fun reg => Nat.mod_lt _ (by norm_num)
  by_cases hs : 8 ≤ src.val <;> by_cases hd : 8 ≤ dst.val <;>
    simp only [regReg, ge_iff_le, hs, hd, if_true, if_false, decide_true, decide_false, List.cons_append,
      List.nil_append]
  · rw [sub_eight hs, sub_eight hd]
    exact decode_modRM ⟨_, hlt src⟩ ⟨_, hlt dst⟩ (by decide) hop rest
  · rw [sub_eight hs, mod_eight hd, Nat.mod_mod]
    exact decode_modRM ⟨_, hlt src⟩ ⟨_, hlt dst⟩ (by decide) hop rest
  · rw [sub_eight hd, mod_eight hs, Nat.mod_mod]
    exact decode_modRM ⟨_, hlt src⟩ ⟨_, hlt dst⟩ (by decide) hop rest
  · rw [mod_eight hs, mod_eight hd, Nat.mod_mod, Nat.mod_mod]
    exact decode_modRM ⟨_, hlt src⟩ ⟨_, hlt dst⟩ (by decide) hop rest

theorem decode_oneReg {opcode base : UInt8} (hop : HasModRM opcode) (ext : Fin 8)
    (hbase : base = (0xC0 : UInt8) ||| (UInt8.ofNat ext.val <<< 3)) (reg : Reg) (rest : List UInt8) :
    decode (oneReg opcode base reg ++ rest) =
      decodeModRM ⟨true, false, decide (8 ≤ reg.val)⟩ opcode.toNat ext.val (reg.val % 8) rest := by
  have hlt : reg.val % 8 < 8 := Nat.mod_lt _ (by norm_num)
  subst hbase
  by_cases hr : 8 ≤ reg.val <;>
    simp only [oneReg, ge_iff_le, hr, if_true, if_false, decide_true, decide_false, List.cons_append, List.nil_append]
  · rw [sub_eight hr]
    exact decode_modRM ext ⟨_, hlt⟩ (by decide) hop rest
  · rw [mod_eight hr, Nat.mod_mod]
    exact decode_modRM ext ⟨_, hlt⟩ (by decide) hop rest

/-! ## Instructions -/

theorem decode_push (reg : Reg) (rest : List UInt8) : decode (asmPushReg reg ++ rest) = some (.push reg, rest) := by
  fin_cases reg <;> rfl

theorem decode_pop (reg : Reg) (rest : List UInt8) : decode (asmPopReg reg ++ rest) = some (.pop reg, rest) := by
  fin_cases reg <;> rfl

theorem decode_movRax {imm : Int} (hlo : -2 ^ 63 ≤ imm) (hhi : imm < 2 ^ 63) (rest : List UInt8) :
    decode (asmMovRaxImm64 imm ++ rest) = some (.movImm 0 imm, rest) := by
  have hread : takeSigned 8 (immBytes 8 imm ++ rest) = some (imm, rest) :=
    takeSigned_append (by omega) (by omega) rest
  have htake : takeRex (0x48 :: 0xB8 :: (immBytes 8 imm ++ rest)) =
      (⟨true, false, false⟩, 0xB8 :: (immBytes 8 imm ++ rest)) := rfl
  simp [asmMovRaxImm64, decode, htake, decodeOpcode, hread]
  rfl

theorem decode_movImm {imm : Int} (hlo : -2 ^ 31 ≤ imm) (hhi : imm < 2 ^ 31) (reg : Reg) (rest : List UInt8) :
    decode (asmMovRegImm32 reg imm ++ rest) = some (.movImm reg imm, rest) := by
  have hread : takeSigned 4 (immBytes 4 imm ++ rest) = some (imm, rest) :=
    takeSigned_append (by omega) (by omega) rest
  rw [asmMovRegImm32, List.append_assoc, decode_oneReg (by decide) 0 (by decide)]
  simp [decodeModRM, hread, extend_mod]

theorem decode_callRel {offset : Int} (hlo : -2 ^ 31 ≤ offset) (hhi : offset < 2 ^ 31) (rest : List UInt8) :
    decode (asmCallRel32 offset ++ rest) = some (.callRel offset, rest) := by
  have hread : takeSigned 4 (immBytes 4 offset ++ rest) = some (offset, rest) :=
    takeSigned_append (by omega) (by omega) rest
  have htake : takeRex (0xE8 :: (immBytes 4 offset ++ rest)) =
      (⟨false, false, false⟩, 0xE8 :: (immBytes 4 offset ++ rest)) := rfl
  simp [asmCallRel32, decode, htake, decodeOpcode, hread]

/-- An operation with an immediate of one byte. -/
theorem decode_imm8 {base : UInt8} {op : AluOp} {imm : Int} (ext : Fin 8)
    (hbase : base = (0xC0 : UInt8) ||| (UInt8.ofNat ext.val <<< 3)) (hop : aluField ext.val = some op)
    (hlo : -128 ≤ imm) (hhi : imm ≤ 127) (reg : Reg) (rest : List UInt8) :
    decode (oneReg 0x83 base reg ++ immBytes 1 imm ++ rest) = some (.aluImm op reg imm, rest) := by
  have hread : takeSigned 1 (immBytes 1 imm ++ rest) = some (imm, rest) :=
    takeSigned_append (by omega) (by omega) rest
  rw [List.append_assoc, decode_oneReg (by decide) ext hbase]
  simp [decodeModRM, hop, hread, extend_mod]

/-- **The encoders are right**: what is emitted for an instruction is decoded as that instruction. -/
theorem decode_encode {ins : Instr} (h : InRange ins) (rest : List UInt8) :
    decode (encode ins ++ rest) = some (ins, rest) := by
  cases ins with
  | movReg dst src =>
    rw [encode, asmMovRegReg, decode_regReg (by decide)]
    simp [decodeModRM, extend_mod]
  | movImm dst imm =>
    rw [encode]
    rw [InRange] at h
    split
    · rename_i hwide
      rw [if_pos hwide.1] at h
      rw [decode_movRax h.1.le h.2, show (0 : Reg) = dst from Fin.ext hwide.1.symm]
    · rename_i hnarrow
      have hfit : -2 ^ 31 ≤ imm ∧ imm < 2 ^ 31 := by
        split at h
        · rename_i h0
          have := not_and.mp hnarrow h0
          omega
        · exact h
      exact decode_movImm hfit.1 hfit.2 dst rest
  | aluReg op dst src =>
    cases op <;> simp only [encode, asmAddRegReg, asmOrRegReg, asmAndRegReg, asmSubRegReg, asmXorRegReg, asmCmpRegReg] <;>
      rw [decode_regReg (by decide)] <;> simp [decodeModRM, aluOpcode, extend_mod]
  | aluImm op dst imm =>
    obtain ⟨hop, hlo, hhi⟩ := h
    rcases hop with rfl | rfl | rfl
    · exact decode_imm8 0 (by decide) rfl hlo hhi dst rest
    · exact decode_imm8 5 (by decide) rfl hlo hhi dst rest
    · exact decode_imm8 7 (by decide) rfl hlo hhi dst rest
  | unary op reg =>
    cases op with
    | inc =>
      rw [encode, asmIncReg, decode_oneReg (by decide) 0 (by decide)]
      simp [decodeModRM, extend_mod]
    | dec =>
      rw [encode, asmDecReg, decode_oneReg (by decide) 1 (by decide)]
      simp [decodeModRM, extend_mod]
    | not =>
      rw [encode, asmNotReg, decode_oneReg (by decide) 2 (by decide)]
      simp [decodeModRM, extend_mod]
    | neg =>
      rw [encode, asmNegReg, decode_oneReg (by decide) 3 (by decide)]
      simp [decodeModRM, extend_mod]
  | shift op reg count =>
    have hread := takeImm_count h rest
    cases op with
    | shl =>
      rw [encode, asmShlRegImm8, List.append_assoc, decode_oneReg (by decide) 4 (by decide)]
      simp [decodeModRM, hread, extend_mod]
    | shr =>
      rw [encode, asmShrRegImm8, List.append_assoc, decode_oneReg (by decide) 5 (by decide)]
      simp [decodeModRM, hread, extend_mod]
  | callReg reg =>
    rw [encode, asmCallReg, decode_oneReg (by decide) 2 (by decide)]
    simp [decodeModRM, extend_mod]
  | callRel offset => exact decode_callRel h.1 h.2 rest
  | push reg => exact decode_push reg rest
  | pop reg => exact decode_pop reg rest
  | syscall => rfl
  | ret => rfl
  | nop => rfl

theorem encode_ne_nil {ins : Instr} (h : InRange ins) : encode ins ≠ [] := by
  intro hnil
  have hdec := decode_encode h []
  rw [hnil] at hdec
  cases hdec

end AmqOs.Assembler
