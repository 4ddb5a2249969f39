import AmqOs.Assembler.AsmAccept

/-!
# Immediates

`parse_immediate` computes the value of a literal modulo 2^64, from the 63 characters that the buffer for an operand
holds. `used` is the immediate that each mnemonic makes of it: `add`, `sub`, `cmp` and the shifts test the range, `mov` to
a register other than `rax` and `call` keep the lower 32 bits. The emitted instruction holds the value of the literal, and
what no immediate can hold is rejected, if and only if `Keeps` (`asmLine_immediate_iff`).
-/

set_option autoImplicit false

namespace AmqOs.Assembler

open AmqOs.Lib AmqOs.Lib.X86

/-! ## Values of literals -/

/-- The loops of `parse_immediate` without wrapping. -/
def digitsValue (digit : Char → Option Nat) (base : Int) : Int → List Char → Int
  | val, [] => val
  | val, c :: s =>
    match digit c with
    | none => val
    | some d => digitsValue digit base (val * base + d) s

/-- `parse_immediate` without wrapping. -/
def literalValue (str : List Char) : Int :=
  let str := str.dropWhile isBlank
  let neg := charAt str 0 = '-'
  let str := if neg then str.drop 1 else str
  let val :=
    if charAt str 0 = '0' && (charAt str 1 = 'x' || charAt str 1 = 'X') then digitsValue hexDigit 16 0 (str.drop 2)
    else digitsValue decDigit 10 0 str
  if neg then -val else val

section Values

variable {digit : Char → Option Nat} {base : Nat}

/-- Every step of the loop is right modulo 2^64. -/
theorem digitsLoop_wrap (base val : Int) (s : List Char) :
    digitsLoop digit base (castTo 8 val) s = castTo 8 (digitsValue digit base val s) := by
  induction s generalizing val with
  | nil => rfl
  | cons c s ih =>
    simp only [digitsLoop, digitsValue]
    cases digit c with
    | none => rfl
    | some d =>
      have hstep : castTo 8 (castTo 8 val * base + d) = castTo 8 (val * base + d) := by
        unfold castTo
        rw [← Int.bmod_add_bmod, Int.bmod_mul_bmod, Int.bmod_add_bmod]
      simp only [hstep]
      exact ih _

/-- **Immediates are parsed modulo 2^64.** -/
theorem parseImmediate_wrap (str : List Char) : parseImmediate str = castTo 8 (literalValue str) := by
  have hzero : ∀ (digit : Char → Option Nat) (base : Int) (s : List Char),
      digitsLoop digit base 0 s = castTo 8 (digitsValue digit base 0 s) := fun digit base s => digitsLoop_wrap base 0 s
  simp only [parseImmediate, literalValue, hzero]
  split <;> split <;> first
    | rfl
    | (unfold castTo; rw [Int.bmod_neg_bmod])

theorem Numeral.digitsValue {s : List Char} {n : Nat} (h : Numeral digit base s n) (rest : List Char) :
    digitsValue digit base 0 (s ++ rest) = Assembler.digitsValue digit base n rest := by
  induction h generalizing rest with
  | one hc => simp [Assembler.digitsValue, hc]
  | @snoc s c n d hs hc ih =>
    rw [List.append_assoc, ih, List.singleton_append]
    simp only [Assembler.digitsValue, hc]
    push_cast
    rfl

theorem Numeral.digitsValue_zero {s : List Char} {n : Nat} (h : Numeral digit base s n) :
    Assembler.digitsValue digit base 0 s = n := by
  have hvalue := h.digitsValue []
  rwa [List.append_nil] at hvalue

theorem UnsignedText.digitsValue {s : List Char} {n : Nat} (h : UnsignedText s n) :
    (if charAt s 0 = '0' && (charAt s 1 = 'x' || charAt s 1 = 'X') then digitsValue hexDigit 16 0 (s.drop 2)
      else digitsValue decDigit 10 0 s) = n := by
  rcases h.digits with ⟨hx, h⟩ | ⟨hx, h⟩
  · rw [if_pos hx]
    exact h.digitsValue_zero
  · rw [if_neg (Bool.eq_false_iff.mp hx)]
    exact h.digitsValue_zero

theorem ImmText.literalValue {s : List Char} {v : Int} (h : ImmText s v) : literalValue s = v := by
  have hdrop := h.dropWhile
  cases h with
  | pos h =>
    simp only [Assembler.literalValue, hdrop, h.no_sign, if_false]
    exact h.digitsValue
  | @neg s n h =>
    have hneg : charAt ('-' :: s) 0 = '-' := rfl
    simp only [Assembler.literalValue, hdrop, hneg, if_true, List.drop_succ_cons, List.drop_zero]
    rw [h.digitsValue]

end Values

/-! ## Instructions with an immediate -/

inductive ImmForm
  | mov (dst : Reg)
  | add (dst : Reg)
  | sub (dst : Reg)
  | cmp (dst : Reg)
  | shl (dst : Reg)
  | shr (dst : Reg)
  | call

def ImmForm.instr : ImmForm → Int → Instr
  | .mov dst, imm => .movImm dst imm
  | .add dst, imm => .aluImm .add dst imm
  | .sub dst, imm => .aluImm .sub dst imm
  | .cmp dst, imm => .aluImm .cmp dst imm
  | .shl dst, imm => .shift .shl dst imm.toNat
  | .shr dst, imm => .shift .shr dst imm.toNat
  | .call, imm => .callRel imm

/-- The register that is written before the immediate. -/
def ImmForm.dst : ImmForm → Option Reg
  | .mov dst => some dst
  | .add dst => some dst
  | .sub dst => some dst
  | .cmp dst => some dst
  | .shl dst => some dst
  | .shr dst => some dst
  | .call => none

/-- The immediates that the instruction can hold. -/
def ImmForm.Fits : ImmForm → Int → Prop
  | .mov dst, imm => if dst.val = 0 then -2 ^ 63 ≤ imm ∧ imm < 2 ^ 63 else -2 ^ 31 ≤ imm ∧ imm < 2 ^ 31
  | .add _, imm => -128 ≤ imm ∧ imm ≤ 127
  | .sub _, imm => -128 ≤ imm ∧ imm ≤ 127
  | .cmp _, imm => -128 ≤ imm ∧ imm ≤ 127
  | .shl _, imm => 0 ≤ imm ∧ imm ≤ 63
  | .shr _, imm => 0 ≤ imm ∧ imm ≤ 63
  | .call, imm => -2 ^ 31 ≤ imm ∧ imm < 2 ^ 31

/-- The immediate is the value; for `mov` modulo 2^64. -/
def ImmForm.Exact : ImmForm → Int → Int → Prop
  | .mov _, imm, v => imm ≡ v [ZMOD 2 ^ 64]
  | _, imm, v => imm = v

/-- A name of the register. -/
def NameOf (r : Reg) (s : List Char) : Prop :=
  ∃ i : Fin 24, s = (registerNames.getD i.val "").toList ∧ r.val = i.val % 16

/-- The instruction with the literal `s`. -/
inductive ImmLine (f : ImmForm) (s : List Char) : List Char → Prop
  | two {blanks word gap reg sep blanks' tail : List Char} {dst : Reg} : f.dst = some dst → Blanks blanks →
      word.map lower = (mnemonic (f.instr 0)).toList → Blanks gap → gap ≠ [] → NameOf dst reg → Separators sep → sep ≠ [] →
      Blanks blanks' → CommentOrEnd tail →
      ImmLine f s (blanks ++ (word ++ (gap ++ (reg ++ (sep ++ (s ++ (blanks' ++ tail)))))))
  | one {blanks word gap blanks' tail : List Char} : f.dst = none → Blanks blanks →
      word.map lower = (mnemonic (f.instr 0)).toList → Blanks gap → gap ≠ [] → Blanks blanks' → CommentOrEnd tail →
      ImmLine f s (blanks ++ (word ++ (gap ++ (s ++ (blanks' ++ tail)))))

/-- An accepted immediate has the value of its literal, and a value that no immediate can have is rejected. -/
structure Faithful (f : ImmForm) (v : Int) (line : List Char) : Prop where
  exact : ∀ ctx : AsmContext, ctx.error = false → (asmLine ctx line).1 = 0 → (asmLine ctx line).2.error = false →
    ∃ bytes imm, (asmLine ctx line).2.code = ctx.code ++ bytes ∧ decode bytes = some (f.instr imm, []) ∧ f.Fits imm ∧
      f.Exact imm v
  rejects : (∀ imm, f.Fits imm → ¬f.Exact imm v) → ∀ ctx : AsmContext, ctx.error = false →
    (asmLine ctx line).1 = -1 ∧ (asmLine ctx line).2.error = true

/-! ## The immediate that is used -/

/-- The range test of an immediate. -/
def within (lo hi imm : Int) : Option Int := if lo ≤ imm ∧ imm ≤ hi then some imm else none

/-- What `asm_line` makes of a parsed immediate, when it is in range. -/
def ImmForm.used : ImmForm → Int → Option Int
  | .mov dst, imm => some (if dst.val = 0 then imm else castTo 4 imm)
  | .add _, imm => within (-128) 127 imm
  | .sub _, imm => within (-128) 127 imm
  | .cmp _, imm => within (-128) 127 imm
  | .shl _, imm => within 0 63 imm
  | .shr _, imm => within 0 63 imm
  | .call, imm => some (castTo 4 imm)

/-- An immediate that passes the range test has the value `v`. -/
def KeepsWithin (lo hi v w : Int) : Prop := lo ≤ castTo 8 w → castTo 8 w ≤ hi → castTo 8 w = v

/-- The immediate that is used, if any, has the value `v`, where `w` is the value of the text that is read. -/
def ImmForm.Keeps : ImmForm → Int → Int → Prop
  | .mov dst, v, w => if dst.val = 0 then w ≡ v [ZMOD 2 ^ 64] else castTo 4 w ≡ v [ZMOD 2 ^ 64]
  | .add _, v, w => KeepsWithin (-128) 127 v w
  | .sub _, v, w => KeepsWithin (-128) 127 v w
  | .cmp _, v, w => KeepsWithin (-128) 127 v w
  | .shl _, v, w => KeepsWithin 0 63 v w
  | .shr _, v, w => KeepsWithin 0 63 v w
  | .call, v, w => castTo 4 w = v

section Used

variable {f : ImmForm} {imm v w : Int}

theorem castTo_range {n : Nat} (hn : 0 < n) (imm : Int) :
    -2 ^ (8 * n) ≤ castTo n imm * 2 ∧ castTo n imm * 2 < 2 ^ (8 * n) := by
  obtain ⟨half, hhalf⟩ : ∃ half, 2 ^ (8 * n) = 2 * half := ⟨2 ^ (8 * n - 1), by rw [← pow_succ']; congr 1; omega⟩
  have hpos : 0 < 2 ^ (8 * n) := by positivity
  have hlo := Int.le_bmod (x := imm) hpos
  have hhi := Int.bmod_lt (x := imm) hpos
  have hcast : (2 : Int) ^ (8 * n) = 2 * half := by exact_mod_cast hhalf
  rw [hcast, castTo]
  omega

theorem castTo_modEq (n : Nat) (imm : Int) : castTo n imm ≡ imm [ZMOD 2 ^ (8 * n)] := by
  have hmod : castTo n imm % ((2 ^ (8 * n) : Nat) : Int) = imm % ((2 ^ (8 * n) : Nat) : Int) := Int.bmod_emod
  simpa [Int.ModEq] using hmod

/-- A cast to 8 bytes leaves the lower 4 as they are. -/
theorem castTo_castTo (imm : Int) : castTo 4 (castTo 8 imm) = castTo 4 imm := by
  unfold castTo
  exact Int.bmod_bmod_of_dvd (by norm_num)

theorem cast4_range (imm : Int) : -2 ^ 31 ≤ castTo 4 imm ∧ castTo 4 imm < 2 ^ 31 := by
  have hrange := castTo_range (n := 4) (by norm_num) imm
  omega

theorem cast8_range (imm : Int) : -2 ^ 63 ≤ castTo 8 imm ∧ castTo 8 imm < 2 ^ 63 := by
  have hrange := castTo_range (n := 8) (by norm_num) imm
  omega

theorem within_range {lo hi : Int} (h : within lo hi w = some imm) : lo ≤ imm ∧ imm ≤ hi := by
  unfold within at h
  split at h
  · cases h
    assumption
  · cases h

theorem keepsWithin_iff {lo hi : Int} :
    KeepsWithin lo hi v w ↔ ∀ imm, within lo hi (castTo 8 w) = some imm → imm = v := by
  unfold KeepsWithin within
  by_cases h : lo ≤ castTo 8 w ∧ castTo 8 w ≤ hi
  · simp [h]
  · simp only [if_neg h, reduceCtorEq, false_implies, implies_true, iff_true]
    exact fun hlo hhi => absurd ⟨hlo, hhi⟩ h

/-- An immediate that is used fits. -/
theorem ImmForm.used_fits (h : f.used (castTo 8 w) = some imm) : f.Fits imm := by
  cases f with
  | mov dst =>
    simp only [used, Option.some.injEq] at h
    subst h
    by_cases hdst : dst.val = 0
    · simp only [Fits, if_pos hdst]
      exact cast8_range w
    · simp only [Fits, if_neg hdst]
      exact cast4_range _
  | call =>
    simp only [used, Option.some.injEq] at h
    subst h
    exact cast4_range _
  | add dst => exact within_range h
  | sub dst => exact within_range h
  | cmp dst => exact within_range h
  | shl dst => exact within_range h
  | shr dst => exact within_range h

theorem ImmForm.keeps_iff : f.Keeps v w ↔ ∀ imm, f.used (castTo 8 w) = some imm → f.Exact imm v := by
  cases f with
  | mov dst =>
    simp only [Keeps, used, Option.some.injEq, forall_eq', Exact]
    split
    · have hw : castTo 8 w ≡ w [ZMOD 2 ^ 64] := castTo_modEq 8 w
      exact ⟨hw.trans, hw.symm.trans⟩
    · rw [castTo_castTo]
  | call =>
    simp only [Keeps, used, Option.some.injEq, forall_eq', Exact]
    rw [castTo_castTo]
  | add dst => exact keepsWithin_iff
  | sub dst => exact keepsWithin_iff
  | cmp dst => exact keepsWithin_iff
  | shl dst => exact keepsWithin_iff
  | shr dst => exact keepsWithin_iff

/-- What is emitted for an immediate that fits is decoded as the instruction with that immediate. -/
theorem ImmForm.decode_encode (h : f.Fits imm) : decode (encode (f.instr imm)) = some (f.instr imm, []) := by
  have hdec : InRange (f.instr imm) → decode (encode (f.instr imm)) = some (f.instr imm, []) := by
    intro hrange
    have hread := Assembler.decode_encode hrange []
    rwa [List.append_nil] at hread
  cases f with
  | mov dst =>
    by_cases hmin : dst.val = 0 ∧ imm = -2 ^ 63
    · obtain ⟨hdst, rfl⟩ := hmin
      have hread := decode_movRax (le_refl (-2 ^ 63)) (by norm_num) []
      rw [List.append_nil, show (0 : Reg) = dst from Fin.ext hdst.symm] at hread
      simpa [instr, encode, hdst] using hread
    · apply hdec
      simp only [Fits] at h
      simp only [instr, InRange]
      split at h
      · rename_i hdst
        have hne : imm ≠ -2 ^ 63 := fun heq => hmin ⟨hdst, heq⟩
        rw [if_pos hdst]
        omega
      · rename_i hdst
        rw [if_neg hdst]
        exact h
  | add dst => exact hdec ⟨Or.inl rfl, h⟩
  | sub dst => exact hdec ⟨Or.inr (Or.inl rfl), h⟩
  | cmp dst => exact hdec ⟨Or.inr (Or.inr rfl), h⟩
  | shl dst => exact hdec (by simp only [Fits] at h; simp only [instr, InRange]; omega)
  | shr dst => exact hdec (by simp only [Fits] at h; simp only [instr, InRange]; omega)
  | call => exact hdec h

theorem ImmForm.length_encode_le (f : ImmForm) (imm : Int) : (encode (f.instr imm)).length ≤ 10 := by
  cases f with
  | mov dst =>
    simp only [instr, encode]
    split <;> simp [asmMovRaxImm64, asmMovRegImm32, length_oneReg, length_immBytes]
  | add dst => simp [instr, encode, asmAddRegImm8, length_oneReg, length_immBytes]
  | sub dst => simp [instr, encode, asmSubRegImm8, length_oneReg, length_immBytes]
  | cmp dst => simp [instr, encode, asmCmpRegImm8, length_oneReg, length_immBytes]
  | shl dst => simp [instr, encode, asmShlRegImm8, length_oneReg, length_immBytes]
  | shr dst => simp [instr, encode, asmShrRegImm8, length_oneReg, length_immBytes]
  | call => simp [instr, encode, asmCallRel32, length_immBytes]

/-- The instruction determines the immediate. -/
theorem ImmForm.instr_inj {imm' : Int} (h : f.Fits imm) (h' : f.Fits imm') (heq : f.instr imm = f.instr imm') :
    imm = imm' := by
  cases f with
  | shl dst =>
    simp only [instr, Instr.shift.injEq, true_and] at heq
    simp only [Fits] at h h'
    omega
  | shr dst =>
    simp only [instr, Instr.shift.injEq, true_and] at heq
    simp only [Fits] at h h'
    omega
  | _ => simpa [instr] using heq

end Used

/-! ## The line is assembled -/

section Line

variable {f : ImmForm} {v w : Int} {arg1 arg2 : List Char} {ctx : AsmContext}

/-- The operands of the instruction, where `w` is the parsed immediate. -/
def ImmForm.Operands (f : ImmForm) (w : Int) (arg1 arg2 : List Char) : Prop :=
  match f.dst with
  | some dst => parseRegister arg1 = some dst.val ∧ parseRegister arg2 = none ∧ parseImmediate arg2 = w
  | none => parseRegister arg1 = none ∧ parseImmediate arg1 = w

theorem lineMov_used {dst : Reg} (hreg : parseRegister arg1 = some dst.val) (hnone : parseRegister arg2 = none)
    (ctx : AsmContext) : lineMov ctx arg1 arg2 = done ctx (encode (.movImm dst
      (if dst.val = 0 then parseImmediate arg2 else castTo 4 (parseImmediate arg2)))) := by
  simp only [lineMov, hreg, hnone, encode]
  by_cases hdst : dst.val = 0
  · simp only [hdst, true_and, if_true]
    split
    · rfl
    · have hcast : castTo 4 (parseImmediate arg2) = parseImmediate arg2 := castTo_small (by omega) (by omega)
      rw [hcast]
  · simp [hdst]

theorem lineRegImm_used {dst : Nat} (hreg : parseRegister arg1 = some dst) (hnone : parseRegister arg2 = none)
    (ctx : AsmContext) (msg : String) (regs : Nat → Nat → List UInt8) (imm8 : Nat → Int → List UInt8) :
    lineRegImm ctx arg1 arg2 msg regs imm8 =
      if -128 ≤ parseImmediate arg2 ∧ parseImmediate arg2 ≤ 127 then done ctx (imm8 dst (parseImmediate arg2))
      else fail ctx "Immediate out of range (-128 to 127)" := by
  simp only [lineRegImm, hreg, hnone, ge_iff_le]
  by_cases h : -128 ≤ parseImmediate arg2 ∧ parseImmediate arg2 ≤ 127
  · have hcast : castTo 1 (parseImmediate arg2) = parseImmediate arg2 := castTo_small (by omega) (by omega)
    rw [if_pos h, if_pos h, hcast]
  · rw [if_neg h, if_neg h]

theorem lineShift_used {dst : Nat} (hreg : parseRegister arg1 = some dst) (ctx : AsmContext)
    (enc : Nat → Int → List UInt8) : lineShift ctx arg1 arg2 enc =
      if 0 ≤ parseImmediate arg2 ∧ parseImmediate arg2 ≤ 63 then done ctx (enc dst ((parseImmediate arg2).toNat : Int))
      else fail ctx "Shift count out of range (0-63)" := by
  simp only [lineShift, hreg]
  by_cases h : 0 ≤ parseImmediate arg2 ∧ parseImmediate arg2 ≤ 63
  · have hcast : castTo 1 (parseImmediate arg2) = parseImmediate arg2 := castTo_small (by omega) (by omega)
    have hnat : ((parseImmediate arg2).toNat : Int) = parseImmediate arg2 := Int.toNat_of_nonneg h.1
    rw [if_pos h, if_neg (by omega), hcast, hnat]
  · rw [if_neg h, if_pos (by omega)]

/-- The immediate that is used is emitted, and without one the line is rejected. -/
def Assembled (f : ImmForm) (w : Int) (ctx : AsmContext) (out : Int × AsmContext) : Prop :=
  (∃ imm, f.used w = some imm ∧ out = done ctx (encode (f.instr imm))) ∨ (f.used w = none ∧ ∃ msg, out = fail ctx msg)

theorem assembled_within {lo hi : Int} {out : Int × AsmContext} {msg : String} (hused : f.used w = within lo hi w)
    (hout : out = if lo ≤ w ∧ w ≤ hi then done ctx (encode (f.instr w)) else fail ctx msg) : Assembled f w ctx out := by
  unfold Assembled
  rw [hused, hout, within]
  by_cases h : lo ≤ w ∧ w ≤ hi
  · rw [if_pos h, if_pos h]
    exact Or.inl ⟨w, rfl, rfl⟩
  · rw [if_neg h, if_neg h]
    exact Or.inr ⟨rfl, msg, rfl⟩

theorem assemble_used (h : f.Operands w arg1 arg2) (ctx : AsmContext) :
    Assembled f w ctx (assemble ctx (mnemonic (f.instr 0)).toList arg1 arg2) := by
  cases f with
  | mov dst =>
    obtain ⟨hreg, hnone, rfl⟩ := h
    have hline : assemble ctx "mov".toList arg1 arg2 = lineMov ctx arg1 arg2 := by simp [assemble, startsWith]
    exact Or.inl ⟨_, rfl, hline.trans (lineMov_used hreg hnone ctx)⟩
  | add dst =>
    obtain ⟨hreg, hnone, rfl⟩ := h
    have hline : assemble ctx "add".toList arg1 arg2 =
        lineRegImm ctx arg1 arg2 "Invalid destination register" asmAddRegReg asmAddRegImm8 := by
      simp [assemble, startsWith, List.isPrefixOf]
    exact assembled_within rfl (hline.trans (lineRegImm_used hreg hnone ctx _ _ _))
  | sub dst =>
    obtain ⟨hreg, hnone, rfl⟩ := h
    have hline : assemble ctx "sub".toList arg1 arg2 =
        lineRegImm ctx arg1 arg2 "Invalid destination register" asmSubRegReg asmSubRegImm8 := by
      simp [assemble, startsWith, List.isPrefixOf]
    exact assembled_within rfl (hline.trans (lineRegImm_used hreg hnone ctx _ _ _))
  | cmp dst =>
    obtain ⟨hreg, hnone, rfl⟩ := h
    have hline : assemble ctx "cmp".toList arg1 arg2 =
        lineRegImm ctx arg1 arg2 "Invalid register" asmCmpRegReg asmCmpRegImm8 := by
      simp [assemble, startsWith, List.isPrefixOf]
    exact assembled_within rfl (hline.trans (lineRegImm_used hreg hnone ctx _ _ _))
  | shl dst =>
    obtain ⟨hreg, -, rfl⟩ := h
    have hline : assemble ctx "shl".toList arg1 arg2 =
        lineShift ctx arg1 arg2 asmShlRegImm8 := by
      simp [assemble, startsWith, List.isPrefixOf]
    exact assembled_within rfl (hline.trans (lineShift_used hreg ctx _))
  | shr dst =>
    obtain ⟨hreg, -, rfl⟩ := h
    have hline : assemble ctx "shr".toList arg1 arg2 =
        lineShift ctx arg1 arg2 asmShrRegImm8 := by
      simp [assemble, startsWith, List.isPrefixOf]
    exact assembled_within rfl (hline.trans (lineShift_used hreg ctx _))
  | call =>
    obtain ⟨hnone, rfl⟩ := h
    refine Or.inl ⟨_, rfl, ?_⟩
    simp [assemble, startsWith, ImmForm.instr, mnemonic, encode, List.isPrefixOf, lineCall, hnone]

theorem nameOf_spec {r : Reg} {s : List Char} (h : NameOf r s) :
    parseRegister s = some r.val ∧ (∀ c ∈ s, isArg c = true) ∧ s ≠ [] ∧ s.length ≤ 63 := by
  obtain ⟨i, rfl, hr⟩ := h
  rw [hr, ← List.all_eq_true]
  clear hr
  revert i
  decide

variable {s line : List Char}

/-- What is read of a literal. -/
theorem ImmText.parseRegister_take (h : ImmText s v) : Assembler.parseRegister (s.take 63) = none := by
  obtain ⟨c, s', rfl, hc⟩ := h.head
  exact hc.parseRegister _

theorem ImmText.ne_nil (h : ImmText s v) : s ≠ [] := by
  obtain ⟨c, s', rfl, -⟩ := h.head
  exact List.cons_ne_nil c s'

/-- A line with an immediate is assembled from the first 63 characters of the literal. -/
theorem asmLine_used (h : ImmLine f s line) (hs : ImmText s v) (herr : ctx.error = false) :
    Assembled f (parseImmediate (s.take 63)) ctx (asmLine ctx line) := by
  cases h with
  | @two blanks word gap reg sep blanks' tail dst hdst hblanks hword hgap hne hname hsep hsepne hblanks' htail =>
    obtain ⟨hreg, harg, hregne, hlen⟩ := nameOf_spec hname
    rw [asmLine_word herr hblanks hword,
      splitLine_args hword hgap hne harg hregne hlen hsep hsepne hs.isArg hs.ne_nil (stopsAt_tail hblanks' htail)]
    exact assemble_used (by simp [ImmForm.Operands, hdst, hreg, hs.parseRegister_take]) ctx
  | @one blanks word gap blanks' tail hdst hblanks hword hgap hne hblanks' htail =>
    obtain ⟨hword', harg⟩ := splitLine_arg hword hgap hne hs.isArg hs.ne_nil (stopsAt_tail hblanks' htail)
    rw [asmLine_word herr hblanks hword, hword', harg]
    exact assemble_used (by simp [ImmForm.Operands, hdst, hs.parseRegister_take]) ctx

/-- **Immediates.** -/
theorem asmLine_immediate_iff (hs : ImmText s v) (hline : ImmLine f s line) :
    (Faithful f v line ↔ f.Keeps v (literalValue (s.take 63))) ∧ (s.length ≤ 63 → literalValue (s.take 63) = v) := by
  refine ⟨?_, fun hlen => by rw [List.take_of_length_le hlen, hs.literalValue]⟩
  have hasm : ∀ ctx : AsmContext, ctx.error = false →
      Assembled f (castTo 8 (literalValue (s.take 63))) ctx (asmLine ctx line) := by
    intro ctx herr
    rw [← parseImmediate_wrap]
    exact asmLine_used hline hs herr
  rw [ImmForm.keeps_iff]
  constructor
  · intro h imm hused
    have hfits := ImmForm.used_fits hused
    have hdec := ImmForm.decode_encode hfits
    have hout : asmLine asmInit line = (0, { asmInit with code := encode (f.instr imm) }) := by
      rcases hasm asmInit rfl with ⟨imm', hused', hout⟩ | ⟨hnone, -⟩
      · obtain rfl : imm = imm' := Option.some.inj (hused.symm.trans hused')
        have hroom : asmInit.code.length + (encode (f.instr imm)).length ≤ maxAsmSize := by
          have hlen := f.length_encode_le imm
          rw [show asmInit.code.length = 0 from rfl, maxAsmSize]
          omega
        rw [hout, done, emitBytes_eq hroom]
        rfl
      · rw [hused] at hnone
        cases hnone
    obtain ⟨bytes, imm', hcode, hdec', hfits', hexact⟩ := h.exact asmInit rfl (by rw [hout]) (by rw [hout]; rfl)
    rw [hout] at hcode
    obtain rfl : encode (f.instr imm) = bytes := hcode
    rw [hdec] at hdec'
    rw [ImmForm.instr_inj hfits hfits' (by simpa using hdec')]
    exact hexact
  · intro h
    refine ⟨fun ctx herr hzero hok => ?_, fun hnone ctx herr => ?_⟩
    · rcases hasm ctx herr with ⟨imm, hused, hout⟩ | ⟨hused, msg, hout⟩
      · have hfits := ImmForm.used_fits hused
        have hdec := ImmForm.decode_encode hfits
        have hne : encode (f.instr imm) ≠ [] := by
          intro hnil
          rw [hnil] at hdec
          cases hdec
        rw [hout] at hok ⊢
        refine ⟨_, imm, ?_, hdec, hfits, h imm hused⟩
        rw [done, emitBytes_eq (emitBytes_room hok hne)]
      · rw [hout] at hzero
        cases hzero
    · rcases hasm ctx herr with ⟨imm, hused, hout⟩ | ⟨hused, msg, hout⟩
      · exact absurd (h imm hused) (hnone imm (ImmForm.used_fits hused))
      · rw [hout]
        exact ⟨rfl, rfl⟩

end Line

/-! ## A shift and a wide immediate -/

/-- `shl rdx, 12`. -/
def shlLine : List Char := ['s', 'h', 'l', ' ', 'r', 'd', 'x', ',', ' ', '1', '2']

theorem asmLine_immediate_iff_shl : Faithful (.shl 2) 12 shlLine := by
  have hs : ImmText ['1', '2'] 12 := .pos (.dec (.snoc (.one (show decDigit '1' = some 1 by decide))
    (show decDigit '2' = some 2 by decide)))
  have hline : ImmLine (.shl 2) ['1', '2'] ([] ++ (['s', 'h', 'l'] ++ ([' '] ++ (['r', 'd', 'x'] ++ ([',', ' '] ++
      (['1', '2'] ++ ([] ++ []))))))) :=
    .two rfl (by decide) (by decide) (by decide) (by decide) ⟨2, by decide, by decide⟩ (by decide) (by decide) (by decide)
      (.inl rfl)
  exact (asmLine_immediate_iff hs hline).1.mpr fun _ _ => by decide

/-- The literal `0x100000000`. -/
def wideLiteral : List Char := ['0', 'x', '1', '0', '0', '0', '0', '0', '0', '0', '0']

/-- `mov rcx, 0x100000000`. -/
def wideLine : List Char := ['m', 'o', 'v', ' ', 'r', 'c', 'x', ',', ' '] ++ wideLiteral

theorem immText_wide : ImmText wideLiteral (2 ^ 32) := by
  have hone : Numeral hexDigit 16 ['1'] 1 := .one (by decide)
  have hzeros : ∀ n : Nat, Numeral hexDigit 16 ('1' :: List.replicate n '0') (16 ^ n) := by
    intro n
    induction n with
    | zero => exact hone
    | succ n ih =>
      have hstep := Numeral.snoc ih (show hexDigit '0' = some 0 by decide)
      rwa [List.cons_append, ← List.replicate_succ', Nat.add_zero, ← pow_succ] at hstep
  exact .pos (.hex (.inl rfl) (hzeros 8))

theorem immLine_wide : ImmLine (.mov 1) wideLiteral wideLine := by
  have hline : ImmLine (.mov 1) wideLiteral ([] ++ (['m', 'o', 'v'] ++ ([' '] ++ (['r', 'c', 'x'] ++ ([',', ' '] ++
      (wideLiteral ++ ([] ++ []))))))) :=
    .two rfl (by decide) (by decide) (by decide) (by decide) ⟨1, by decide, by decide⟩ (by decide) (by decide) (by decide)
      (.inl rfl)
  exact hline

/-- The upper bits of the immediate are dropped: `rcx` is set to zero. -/
theorem wideLine_drops : ImmText wideLiteral (2 ^ 32) ∧ ImmLine (.mov 1) wideLiteral wideLine ∧
    asmLine asmInit wideLine = (0, { asmInit with code := asmMovRegImm32 1 0 }) ∧
    decode (asmMovRegImm32 1 0) = some (.movImm 1 0, []) ∧ ¬Faithful (.mov 1) (2 ^ 32) wideLine := by
  have hout : asmLine asmInit wideLine = (0, { asmInit with code := asmMovRegImm32 1 0 }) := by rfl
  have hdec : decode (asmMovRegImm32 1 0) = some (.movImm 1 0, []) := by decide
  refine ⟨immText_wide, immLine_wide, hout, hdec, fun h => ?_⟩
  obtain ⟨bytes, imm, hcode, hdec', -, hexact⟩ := h.exact asmInit rfl (by rw [hout]) (by rw [hout]; rfl)
  rw [hout] at hcode
  obtain rfl : asmMovRegImm32 1 0 = bytes := hcode
  rw [hdec] at hdec'
  obtain rfl : 0 = imm := by simpa [ImmForm.instr] using hdec'
  exact absurd hexact (by norm_num [ImmForm.Exact, Int.ModEq])

end AmqOs.Assembler
