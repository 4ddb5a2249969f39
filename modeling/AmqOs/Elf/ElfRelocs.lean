import AmqOs.Elf.ElfBounds

/-!
# What a relocation stores

`elf_apply_rela_relocations` computes 64-bit values and stores 64 or 32 bits of them; nothing looks at the bits that a 32-bit
field leaves out. So such a field holds its value modulo 2^32, which represents the value exactly when it is in range
(`extension_eq_iff`), and `ELF_ERROR_RELOC` tells of a type that the loader does not know, and of nothing else
(`elfApplyRelaRelocations_fields`).
-/

set_option autoImplicit false

namespace AmqOs.Elf

open AmqOs.Lib AmqOs.Lib.Guarded

variable {img : Image} {m : Mem} {st t : Loader}

/-! ## Relocation tables -/

/-- The field of a relocation table lies in the image, if the table is there. -/
def Image.TableIn (img : Image) (inImage : Bool) (p off n : Nat) : Prop := inImage = true → img.FieldIn p off n

/-- The arguments of `elf_apply_rela_relocations`, and whether the table lies in the image. -/
structure RelaTable where
  inImage : Bool
  rela : Nat
  count : Nat
  symtab : Nat
  strtab : Nat
  deriving DecidableEq

namespace RelaTable

/-- The entry `i`. -/
def rel (T : RelaTable) (i : Nat) : Nat := wrap (T.rela + 24 * i)

def rType (T : RelaTable) (m : Mem) (i : Nat) : Nat := fieldVal m (T.rel i) 8 8 % 2 ^ 32

def rSym (T : RelaTable) (m : Mem) (i : Nat) : Nat := fieldVal m (T.rel i) 8 8 / 2 ^ 32

def addend (T : RelaTable) (m : Mem) (i : Nat) : Nat := fieldVal m (T.rel i) 16 8

/-- The address that is relocated. -/
def ref (T : RelaTable) (m : Mem) (bias i : Nat) : Nat := wrap (fieldVal m (T.rel i) 0 8 + bias)

/-- The entry names a symbol. -/
def HasSym (T : RelaTable) (m : Mem) (i : Nat) : Prop := T.rSym m i ≠ 0 ∧ T.symtab ≠ 0

instance (T : RelaTable) (m : Mem) (i : Nat) : Decidable (T.HasSym m i) := inferInstanceAs (Decidable (_ ∧ _))

/-- The symbol of the entry. -/
def sym (T : RelaTable) (m : Mem) (i : Nat) : Nat := symAt T.symtab (T.rSym m i)

/-- The value of the symbol. -/
def symval (T : RelaTable) (img : Image) (i : Nat) (st : Loader) : M Nat :=
  if T.HasSym st.mem i then symbolValue img (T.sym st.mem i) T.strtab st else pure 0

/-- One iteration. -/
def step (T : RelaTable) (img : Image) (i : Nat) (st : Loader) : M Loader :=
  relaStep img T.inImage T.rela T.symtab T.strtab i st

/-- The call with these arguments. -/
def apply (T : RelaTable) (img : Image) (st : Loader) : M Loader :=
  elfApplyRelaRelocations img T.inImage T.rela T.count T.symtab T.strtab st

/-- The fields of the entry that every iteration reads. -/
def EntryIn (T : RelaTable) (img : Image) (i : Nat) : Prop :=
  img.TableIn T.inImage (T.rel i) 8 8 ∧ img.TableIn T.inImage (T.rel i) 0 8

variable {T : RelaTable} {i : Nat}

theorem apply_eq (T : RelaTable) (img : Image) (st : Loader) : T.apply img st = forLoop (T.step img) T.count st := rfl

theorem tableField_bind {α : Type} {inImage : Bool} {p off n : Nat} {f : Nat → M α} (h : img.TableIn inImage p off n) :
    tableField img inImage m p off n >>= f = f (fieldVal m p off n) := by
  unfold tableField
  cases inImage with
  | true => exact field_bind (h rfl)
  | false => rfl

/-- An iteration is the value of the symbol, and then the store. -/
theorem step_eq (h : T.EntryIn img i) : T.step img i st = T.symval img i st >>= fun symval =>
    relocate img T.inImage (T.rel i) (T.ref st.mem st.ctx.loadBias i) symval st (relocation (T.rType st.mem i)) := by
  refine (tableField_bind h.1).trans ((tableField_bind h.2).trans ?_)
  unfold symval
  by_cases hsym : T.HasSym st.mem i
  · rw [if_pos hsym]
    exact if_pos hsym
  · rw [if_neg hsym]
    exact if_neg hsym

end RelaTable

/-! ## What is read of a relocation -/

/-- The name of a symbol. -/
def symName (img : Image) (m : Mem) (sym strtab : Nat) : List UInt8 := img.nameAt m (wrap (strtab + fieldVal m sym 0 4))

/-- What is read of and through the symbol of a relocation. -/
def SymbolOk (img : Image) (sym strtab : Nat) (st : Loader) : Prop :=
  let shndx := fieldVal st.mem sym 6 2
  let stName := fieldVal st.mem sym 0 4
  img.FieldIn sym 6 2 ∧
    (shndx = 0 → strtab ≠ 0 → img.FieldIn sym 0 4 ∧ (stName ≠ 0 → img.HasStr st.mem (wrap (strtab + stName)) ∧
      (findSymbol st.ctx (symName img st.mem sym strtab) = none → img.FieldIn sym 4 1))) ∧
    (shndx ≠ 0 → img.FieldIn sym 8 8)

/-- The symbol of a relocation is undefined, which ends the loader. -/
def Undefined (img : Image) (sym strtab : Nat) (st : Loader) : Prop :=
  fieldVal st.mem sym 6 2 = 0 ∧ strtab ≠ 0 ∧ fieldVal st.mem sym 0 4 ≠ 0 ∧
    findSymbol st.ctx (symName img st.mem sym strtab) = none ∧ fieldVal st.mem sym 4 1 / 16 ≠ stbWeak

theorem decides_foundValue {sym : Nat} {found : Option ElfSymbol} : Decides (foundValue img m sym found)
    (found = none → img.FieldIn sym 4 1) (¬ (found = none ∧ fieldVal m sym 4 1 / 16 ≠ stbWeak)) fun _ => True := by
  cases found with
  | some s => exact (decides_pure trivial).congr (by simp) (fun _ => by simp) fun _ h => h
  | none =>
    refine (decides_field_bind fun _ => decides_ite (fun _ => decides_pure trivial) fun _ => decides_throw).congr
      (by simp) (fun _ => ?_) fun _ h => h
    simp

/-- A symbol has a value unless it is undefined. -/
theorem decides_symbolValue {sym strtab : Nat} : Decides (symbolValue img sym strtab st) (SymbolOk img sym strtab st)
    (¬ Undefined img sym strtab st) fun _ => True := by
  have hname : Decides (img.str st.mem (wrap (strtab + fieldVal st.mem sym 0 4)) >>= fun name =>
      foundValue img st.mem sym (findSymbol st.ctx name))
      (img.HasStr st.mem (wrap (strtab + fieldVal st.mem sym 0 4)) ∧
        (findSymbol st.ctx (symName img st.mem sym strtab) = none → img.FieldIn sym 4 1))
      (¬ (findSymbol st.ctx (symName img st.mem sym strtab) = none ∧ fieldVal st.mem sym 4 1 / 16 ≠ stbWeak))
      fun _ => True := decides_nameAt_bind fun _ => decides_foundValue
  have hnamed : Decides (img.field st.mem sym 0 4 >>= fun stName =>
      if stName = 0 then pure 0
      else img.str st.mem (wrap (strtab + stName)) >>= fun name => foundValue img st.mem sym (findSymbol st.ctx name))
      (img.FieldIn sym 0 4 ∧ (fieldVal st.mem sym 0 4 ≠ 0 → img.HasStr st.mem (wrap (strtab + fieldVal st.mem sym 0 4)) ∧
        (findSymbol st.ctx (symName img st.mem sym strtab) = none → img.FieldIn sym 4 1)))
      (¬ (fieldVal st.mem sym 0 4 ≠ 0 ∧ findSymbol st.ctx (symName img st.mem sym strtab) = none ∧
        fieldVal st.mem sym 4 1 / 16 ≠ stbWeak)) fun _ => True := by
    refine decides_field_bind fun _ => ?_
    by_cases hzero : fieldVal st.mem sym 0 4 = 0
    · rw [if_pos hzero]
      exact (decides_pure trivial).congr (by simp [hzero]) (fun _ => by simp [hzero]) fun _ h => h
    · rw [if_neg hzero]
      exact hname.congr (by simp [hzero]) (fun _ => by simp [hzero]) fun _ h => h
  unfold symbolValue SymbolOk Undefined
  refine decides_field_bind fun _ => ?_
  by_cases hundef : fieldVal st.mem sym 6 2 = 0
  · rw [if_pos hundef]
    by_cases hstr : strtab = 0
    · rw [if_pos hstr]
      exact (decides_pure trivial).congr (by simp [hundef, hstr]) (fun _ => by simp [hstr]) fun _ h => h
    · rw [if_neg hstr]
      exact hnamed.congr (by simp [hundef, hstr]) (fun _ => by simp [hundef, hstr]) fun _ h => h
  · rw [if_neg hundef]
    exact (decides_field_pure fun _ => trivial).congr (by simp [hundef]) (fun _ => by simp [hundef]) fun _ h => h

/-- The type of relocation uses the addend. -/
def usesAddend (rType : Nat) : Bool :=
  match relocation rType with
  | some (.withAddend _ _) => true
  | _ => false

/-- The bytes that a store writes. -/
def storeWidth : Option Store → Nat
  | none => 0
  | some .nothing => 0
  | some (.plain width _) => width
  | some (.withAddend width _) => width

theorem storeWidth_le (rType : Nat) : storeWidth (relocation rType) ≤ 8 := by
  unfold relocation
  repeat' split
  all_goals decide

theorem safe_tableField_bind {α : Type} {inImage : Bool} {p off n : Nat} {f : Nat → M α} :
    Safe (tableField img inImage m p off n >>= f) ↔ img.TableIn inImage p off n ∧ Safe (f (fieldVal m p off n)) := by
  unfold tableField Image.TableIn
  cases inImage with
  | true => simp
  | false =>
    simp only [Bool.false_eq_true, if_false, pure_bind, false_implies, true_and]
    rfl

theorem decides_tableField_pure {α : Type} {inImage : Bool} {p off n : Nat} {g : Nat → α} {R : α → Prop}
    (h : R (g (fieldVal m p off n))) :
    Decides (tableField img inImage m p off n >>= fun v => pure (g v)) (img.TableIn inImage p off n) True R := by
  unfold tableField Image.TableIn
  cases inImage with
  | true => exact (decides_field_pure (R := R) fun _ => h).congr (by simp) (fun _ => Iff.rfl) fun _ h => h
  | false => exact (decides_pure (R := R) h).congr (by simp) (fun _ => Iff.rfl) fun _ h => h

namespace RelaTable

theorem entryIn_of_safe {T : RelaTable} {i : Nat} (h : Safe (T.step img i st)) : T.EntryIn img i := by
  unfold step relaStep at h
  rw [safe_tableField_bind, safe_tableField_bind] at h
  exact ⟨h.1, h.2.1⟩

end RelaTable

/-! ## The tables of an image -/

/-- The section header `i`. -/
def shdrAt (st : Loader) (i : Nat) : Nat := wrap (st.ctx.shdrs + 64 * i)

/-- The address of the data of a section. -/
def dataOf (img : Image) (st : Loader) (i : Nat) : Nat := wrap (img.data + fieldVal st.mem (shdrAt st i) 24 8)

/-- The table of a section header, if it is one of relocations. -/
def sectionTable (img : Image) (i : Nat) (st : Loader) : M (Option RelaTable) := do
  let shdr := wrap (st.ctx.shdrs + 64 * i)
  let shType ← img.field st.mem shdr 4 4
  if shType = shtRela then do
    let rela ← sectionData img i st
    let size ← img.field st.mem shdr 32 8
    let link ← img.field st.mem shdr 40 4
    let shnum ← img.field st.mem img.data 60 2
    if link < shnum then do
      let symtab ← sectionData img link st
      let strLink ← img.field st.mem (wrap (st.ctx.shdrs + 64 * link)) 40 4
      let strtab ← if strLink < shnum then sectionData img strLink st else pure 0
      pure (some ⟨true, rela, size / 24, symtab, strtab⟩)
    else pure none
  else pure none

/-- The table that one iteration over the section headers applies. -/
def stepTable (img : Image) (i : Nat) (st : Loader) : M (Option RelaTable) := do
  let shnum ← img.field st.mem img.data 60 2
  if i < shnum then sectionTable img i st else pure none

/-- The table that the dynamic section gives by address and size. -/
def dynamicTable (table size : Nat) (st : Loader) : Option RelaTable :=
  if table ≠ 0 ∧ size > 0 then some ⟨false, table, size / 24, st.ctx.dynsym, st.ctx.dynstr⟩ else none

def applyTable (img : Image) (st : Loader) : Option RelaTable → M Loader
  | none => pure st
  | some T => T.apply img st

theorem ite_bind {α β : Type} {p : Prop} [Decidable p] {x y : M α} {f : α → M β} :
    (if p then x else y) >>= f = if p then x >>= f else y >>= f := by
  split
  · rfl
  · rfl

theorem relaSection_eq (i : Nat) : relaSection img i st = sectionTable img i st >>= applyTable img st := by
  unfold relaSection sectionTable
  simp only [bind_assoc, ite_bind, pure_bind]
  rfl

theorem relaSectionStep_eq (i : Nat) : relaSectionStep img i st = stepTable img i st >>= applyTable img st := by
  unfold relaSectionStep stepTable
  simp only [bind_assoc, ite_bind, pure_bind, relaSection_eq]
  rfl

theorem dynamicRela_eq (table size : Nat) : dynamicRela img table size st = applyTable img st (dynamicTable table size st) := by
  unfold dynamicRela dynamicTable
  split
  · rfl
  · rfl

/-- The entry `k` of the dynamic section. -/
def dynAt (dyn k : Nat) : Nat := wrap (dyn + 16 * k)

theorem dynAt_succ (dyn k : Nat) : dynAt (wrap (dyn + 16)) k = dynAt dyn (k + 1) := by
  unfold dynAt wrap
  rw [Nat.mod_add_mod]
  congr 1
  omega

theorem dynAt_zero (dyn off : Nat) : wrap (dynAt dyn 0 + off) = wrap (dyn + off) := by
  unfold dynAt wrap
  rw [Nat.mod_add_mod]
  congr 1

theorem fieldVal_dynAt_zero {dyn off n : Nat} : fieldVal m (dynAt dyn 0) off n = fieldVal m dyn off n := by
  unfold fieldVal
  rw [dynAt_zero]

/-- What the dynamic section says. -/
def dynamicInfo (img : Image) (st : Loader) : M DynInfo :=
  dynamicFrom img st.mem st.ctx.loadBias (2 ^ 64) st.ctx.dynamic ⟨0, 0, 0, 0⟩

/-- The calls of `elf_apply_rela_relocations` by `elf_apply_relocations`: the table, and the state before. -/
inductive Runs (img : Image) (st : Loader) : RelaTable → Loader → Prop
  | ofSection {k : Nat} {u : Loader} {T : RelaTable} : k < 2 ^ 16 → Returns (forLoop (relaSectionStep img) k st) u →
      Returns (stepTable img k u) (some T) → Runs img st T u
  | ofRela {u : Loader} {d : DynInfo} {T : RelaTable} : Returns (relaSections img st) u → u.ctx.dynamic ≠ 0 →
      Returns (dynamicInfo img u) d → dynamicTable d.rela d.relaSize u = some T → Runs img st T u
  | ofJmprel {u v : Loader} {d : DynInfo} {T : RelaTable} : Returns (relaSections img st) u → u.ctx.dynamic ≠ 0 →
      Returns (dynamicInfo img u) d → Returns (dynamicRela img d.rela d.relaSize u) v →
      dynamicTable d.jmprel d.jmprelSize v = some T → Runs img st T v

/-- A call that fails ends `elf_apply_relocations`. -/
theorem Runs.eq_throw {T : RelaTable} {u : Loader} {e : Int} (h : Runs img st T u) (he : T.apply img u = throw e) :
    elfApplyRelocations img st = throw e := by
  unfold elfApplyRelocations
  cases h with
  | ofSection hk hu hT =>
    rw [bind_eq_throw]
    refine .inl (forLoop_eq_throw.mpr ⟨_, hk, u, hu, ?_⟩)
    rw [relaSectionStep_eq, hT.bind]
    exact he
  | ofRela hu hdyn hd hT =>
    rw [hu.bind, if_neg hdyn]
    refine (congrArg (· = throw e) hd.bind).mpr (bind_eq_throw.mpr (.inl ?_))
    rw [dynamicRela_eq, hT]
    exact he
  | ofJmprel hu hdyn hd hv hT =>
    rw [hu.bind, if_neg hdyn]
    refine (congrArg (· = throw e) hd.bind).mpr (bind_eq_throw.mpr (.inr ⟨_, hv, ?_⟩))
    rw [dynamicRela_eq, hT]
    exact he

/-! ## Fields of 32 bits -/

/-- The types whose field has 32 bits. -/
def Is32 (rType : Nat) : Prop := rType = 2 ∨ rType = 4 ∨ rType = 9 ∨ rType = 10 ∨ rType = 11

instance (rType : Nat) : Decidable (Is32 rType) := inferInstanceAs (Decidable (_ ∨ _))

/-- The 64-bit value of a 32-bit relocation: relative to the place, or not. -/
def value64 (rType symval addend ref : Nat) : Nat :=
  if rType = 2 ∨ rType = 4 ∨ rType = 9 then wrap (symval + addend + (2 ^ 64 - ref)) else wrap (symval + addend)

/-- The 64-bit number that 32 bits stand for: zero extended for `R_X86_64_32`, sign extended for the others. -/
def extension (rType v : Nat) : Nat := if rType = 10 ∨ v < 2 ^ 31 then v else v + (2 ^ 64 - 2 ^ 32)

/-- The value is in the range of the 32-bit field. -/
def Fits32 (rType v : Nat) : Prop := if rType = 10 then v < 2 ^ 32 else v < 2 ^ 31 ∨ 2 ^ 64 - 2 ^ 31 ≤ v

/-- The low 32 bits stand for the value exactly when it is in range. -/
theorem extension_eq_iff {rType v : Nat} (hv : v < 2 ^ 64) : extension rType (v % 2 ^ 32) = v ↔ Fits32 rType v := by
  unfold extension Fits32
  by_cases hzero : rType = 10
  · simp only [hzero, true_or, if_true]
    omega
  · simp only [hzero, false_or, if_false]
    split
    · omega
    · omega

/-- The number in the `n` bytes at `a`, with addresses of 64 bits. -/
def peek (m : Mem) : Nat → Nat → Nat
  | _, 0 => 0
  | a, n + 1 => (m (wrap a)).toNat + 256 * peek m (a + 1) n

theorem peek_of_bytes {a n v : Nat} (h : ∀ k < n, m (wrap (a + k)) = UInt8.ofNat (v / 256 ^ k)) : peek m a n = v % 256 ^ n := by
  induction n generalizing a v with
  | zero => simp [peek, Nat.mod_one]
  | succ n ih =>
    have htail : ∀ k < n, m (wrap (a + 1 + k)) = UInt8.ofNat (v / 256 / 256 ^ k) := by
      intro k hk
      rw [show a + 1 + k = a + (k + 1) by omega, h (k + 1) (by omega), Nat.div_div_eq_div_mul, pow_succ']
    have hhead : (m (wrap a)).toNat = v % 256 := by
      have h0 := h 0 (by omega)
      rw [Nat.add_zero, pow_zero, Nat.div_one] at h0
      rw [h0, UInt8.toNat_ofNat']
    rw [peek, hhead, ih htail, pow_succ', Nat.mod_mul]

/-- A store, byte by byte. -/
theorem poke_eq {a n v : Nat} (hn : n ≤ 2 ^ 64) (x : Nat) : poke m a n v x =
    if x < 2 ^ 64 ∧ wrap (x + (2 ^ 64 - wrap a)) < n then UInt8.ofNat (v / 256 ^ wrap (x + (2 ^ 64 - wrap a))) else m x := by
  unfold poke
  induction n with
  | zero => simp [forUpTo]
  | succ n ih =>
    rw [forUpTo, setByte, ih (by omega)]
    have hat : x = wrap (a + n) ↔ x < 2 ^ 64 ∧ wrap (x + (2 ^ 64 - wrap a)) = n := by
      unfold wrap
      omega
    by_cases hx : x = wrap (a + n)
    · obtain ⟨hlt, hk⟩ := hat.mp hx
      rw [if_pos hx, if_pos ⟨hlt, by omega⟩, hk]
    · rw [if_neg hx]
      by_cases hin : x < 2 ^ 64 ∧ wrap (x + (2 ^ 64 - wrap a)) < n
      · rw [if_pos hin, if_pos ⟨hin.1, by omega⟩]
      · rw [if_neg hin, if_neg fun h => hx (hat.mpr ⟨h.1, by omega⟩)]

theorem peek_poke {a n v : Nat} (hn : n ≤ 2 ^ 64) : peek (poke m a n v) a n = v % 256 ^ n := by
  apply peek_of_bytes
  intro k hk
  have hat : wrap (wrap (a + k) + (2 ^ 64 - wrap a)) = k := by
    unfold wrap
    omega
  rw [poke_eq hn, hat, if_pos ⟨Nat.mod_lt _ (by norm_num), hk⟩]

/-! ## One relocation -/

theorem wrap_lt (a : Nat) : wrap a < 2 ^ 64 := Nat.mod_lt _ (by norm_num)

theorem value64_lt {rType symval addend ref : Nat} : value64 rType symval addend ref < 2 ^ 64 := by
  unfold value64
  split
  · exact wrap_lt _
  · exact wrap_lt _

/-- What is stored in a field of 32 bits. -/
theorem relocation_is32 {rType : Nat} (h : Is32 rType) :
    relocation rType = some (.withAddend 4 fun symval addend ref _ => value64 rType symval addend ref) := by
  rcases h with rfl | rfl | rfl | rfl | rfl <;> rfl

/-- A relocation stores a value in its bytes, and nothing else. -/
theorem decides_relocate {inImage : Bool} {rel ref symval rType : Nat} :
    Decides (relocate img inImage rel ref symval st (relocation rType))
      (usesAddend rType = true → img.TableIn inImage rel 16 8) ((relocation rType).isSome = true) fun t =>
        t.ctx = st.ctx ∧ ∀ x, ¬ (x < 2 ^ 64 ∧ wrap (x + (2 ^ 64 - wrap ref)) < storeWidth (relocation rType)) →
          t.mem x = st.mem x := by
  have hle := storeWidth_le rType
  have hpoke : ∀ v x, ¬ (x < 2 ^ 64 ∧ wrap (x + (2 ^ 64 - wrap ref)) < storeWidth (relocation rType)) →
      poke st.mem ref (storeWidth (relocation rType)) v x = st.mem x := by
    intro v x hx
    rw [poke_eq (by omega)]
    exact if_neg hx
  unfold usesAddend
  match relocation rType, hpoke with
  | none, _ => exact decides_throw.congr (by simp) (fun _ => by simp) fun _ h => h
  | some .nothing, _ => exact (decides_pure ⟨rfl, fun _ _ => rfl⟩).congr (by simp) (fun _ => by simp) fun _ h => h
  | some (.plain width value), hpoke =>
    exact (decides_pure ⟨rfl, hpoke _⟩).congr (by simp) (fun _ => by simp) fun _ h => h
  | some (.withAddend width value), hpoke =>
    exact (decides_tableField_pure (R := fun t => t.ctx = st.ctx ∧
      ∀ x, ¬ (x < 2 ^ 64 ∧ wrap (x + (2 ^ 64 - wrap ref)) < width) → t.mem x = st.mem x) ⟨rfl, hpoke _⟩).congr
      (by simp) (fun _ => by simp) fun _ h => h

namespace RelaTable

variable {T : RelaTable} {i : Nat}

/-- What entry `i` relocates. -/
def Writes (T : RelaTable) (m : Mem) (bias i x : Nat) : Prop :=
  x < 2 ^ 64 ∧ wrap (x + (2 ^ 64 - wrap (T.ref m bias i))) < storeWidth (relocation (T.rType m i))

/-- The symbol of the entry is undefined. -/
def SymUndefined (T : RelaTable) (img : Image) (st : Loader) (i : Nat) : Prop :=
  T.HasSym st.mem i ∧ Undefined img (T.sym st.mem i) T.strtab st

/-- What is read of and through the entry. -/
def EntryOk (T : RelaTable) (img : Image) (st : Loader) (i : Nat) : Prop :=
  T.EntryIn img i ∧ (T.HasSym st.mem i → SymbolOk img (T.sym st.mem i) T.strtab st) ∧
    (¬ T.SymUndefined img st i → usesAddend (T.rType st.mem i) = true → img.TableIn T.inImage (T.rel i) 16 8)

/-- The entry does not end the loop: its symbol is not undefined and its type is known. -/
def GoesOn (T : RelaTable) (img : Image) (st : Loader) (i : Nat) : Prop :=
  ¬ T.SymUndefined img st i ∧ (relocation (T.rType st.mem i)).isSome = true

theorem decides_step : Decides (T.step img i st) (T.EntryOk img st i) (T.GoesOn img st i) fun t =>
    t.ctx = st.ctx ∧ ∀ x, ¬ T.Writes st.mem st.ctx.loadBias i x → t.mem x = st.mem x := by
  have hsym : Decides (T.symval img i st) (T.HasSym st.mem i → SymbolOk img (T.sym st.mem i) T.strtab st)
      (¬ T.SymUndefined img st i) fun _ => True := by
    unfold symval SymUndefined
    by_cases h : T.HasSym st.mem i
    · rw [if_pos h]
      exact decides_symbolValue.congr (by simp [h]) (fun _ => by simp [h]) fun _ h => h
    · rw [if_neg h]
      exact (decides_pure trivial).congr (by simp [h]) (fun _ => by simp [h]) fun _ h => h
  by_cases hin : T.EntryIn img i
  · rw [step_eq hin]
    exact (decides_bind hsym fun _ _ _ _ => decides_relocate).congr ⟨fun h => ⟨hin, h⟩, fun h => h.2⟩ (fun _ => Iff.rfl)
      fun _ h => h
  · have hunsafe : ¬ Safe (T.step img i st) := fun h => hin (entryIn_of_safe h)
    exact ⟨iff_of_false hunsafe fun h => hin h.1, fun h => absurd h.1 hin, fun h => absurd h.1 hin⟩

end RelaTable

/-- A relocation of 32 bits stores its value modulo 2^32. -/
theorem returns_relocate32 {inImage : Bool} {rel ref symval rType : Nat} (h : Is32 rType)
    (ht : Returns (relocate img inImage rel ref symval st (relocation rType)) t) :
    peek t.mem ref 4 = value64 rType symval (fieldVal st.mem rel 16 8) ref % 2 ^ 32 := by
  rw [relocation_is32 h, relocate] at ht
  have hin := (safe_tableField_bind.mp ht.safe).1
  rw [RelaTable.tableField_bind hin, returns_pure] at ht
  subst ht
  exact peek_poke (by norm_num)

/-- A store ends the loop only when the type is unknown. -/
theorem relocate_eq_throw {inImage : Bool} {rel ref symval : Nat} {store : Option Store} {e : Int} :
    relocate img inImage rel ref symval st store = throw e ↔ store = none ∧ e = elfErrorReloc := by
  match store with
  | none =>
    rw [relocate, throw_inj]
    exact ⟨fun h => ⟨rfl, h.symm⟩, fun h => h.2.symm⟩
  | some .nothing => simp [relocate, pure_ne_throw]
  | some (.plain width value) => simp [relocate, pure_ne_throw]
  | some (.withAddend width value) =>
    simp only [relocate, bind_eq_throw, pure_ne_throw, and_false, exists_false, or_false, reduceCtorEq, false_and, iff_false]
    unfold tableField
    split
    · exact require_ne_throw
    · exact pure_ne_throw

theorem field_ne_throw {p off n : Nat} {e : Int} : img.field m p off n ≠ throw e := require_ne_throw

theorem str_ne_throw {a : Nat} {e : Int} : img.str m a ≠ throw e := by
  by_cases hstr : img.HasStr m a
  · obtain ⟨s, hs, _⟩ := goes_str (safe_str.mpr hstr)
    rw [hs]
    exact pure_ne_throw
  · intro h
    apply hstr
    rw [← safe_str, h]
    exact safe_throw e

/-- A symbol without a value ends the loop with its own code. -/
theorem symbolValue_eq_throw {sym strtab : Nat} {e : Int} (h : symbolValue img sym strtab st = throw e) :
    e = elfErrorSymbol := by
  unfold symbolValue at h
  simp only [bind_eq_throw, field_ne_throw, false_or] at h
  obtain ⟨_, _, h⟩ := h
  split at h
  · split at h
    · exact absurd h pure_ne_throw
    · simp only [bind_eq_throw, field_ne_throw, false_or] at h
      obtain ⟨_, _, h⟩ := h
      split at h
      · exact absurd h pure_ne_throw
      · simp only [bind_eq_throw, str_ne_throw, false_or] at h
        obtain ⟨name, _, h⟩ := h
        cases hf : findSymbol st.ctx name with
        | some found =>
          rw [hf] at h
          exact absurd h pure_ne_throw
        | none =>
          rw [hf, foundValue] at h
          simp only [bind_eq_throw, field_ne_throw, false_or] at h
          obtain ⟨_, _, h⟩ := h
          split at h
          · exact absurd h pure_ne_throw
          · exact (throw_inj.mp h).symm
  · simp only [bind_eq_throw, field_ne_throw, false_or] at h
    obtain ⟨_, _, h⟩ := h
    exact absurd h pure_ne_throw

/-- The codes with which relocations end the loader. -/
def RelocCode (e : Int) : Prop := e = elfErrorReloc ∨ e = elfErrorSymbol

theorem fails_tableField {inImage : Bool} {p off n : Nat} {E : Int → Prop} : Fails (tableField img inImage m p off n) E :=
  fails_ite goes_field.fails fails_pure

theorem fails_elfApplyRelaRelocations {inImage : Bool} {rela count symtab strtab : Nat} :
    Fails (elfApplyRelaRelocations img inImage rela count symtab strtab st) RelocCode := by
  refine fails_forLoop fun i t => fails_bind fails_tableField fun info => fails_bind fails_tableField fun offset => ?_
  have hstore : ∀ symval, Fails (relocate img inImage (wrap (rela + 24 * i)) (wrap (offset + t.ctx.loadBias)) symval t
      (relocation (info % 2 ^ 32))) RelocCode := fun symval e he => .inl (relocate_eq_throw.mp he).2
  exact fails_ite (fails_bind (fun e he => .inr (symbolValue_eq_throw he)) hstore) (fails_bind fails_pure hstore)

theorem fails_sectionData {i : Nat} {E : Int → Prop} : Fails (sectionData img i st) E :=
  fails_bind goes_field.fails fun _ => fails_pure

theorem fails_relaSections : Fails (relaSections img st) RelocCode := by
  refine fails_forLoop fun i t => fails_bind goes_field.fails fun shnum => fails_ite ?_ fails_pure
  refine fails_bind goes_field.fails fun shType => fails_ite ?_ fails_pure
  refine fails_bind fails_sectionData fun rela => fails_bind goes_field.fails fun size => fails_bind goes_field.fails fun link =>
    fails_bind goes_field.fails fun shnum => fails_ite ?_ fails_pure
  refine fails_bind fails_sectionData fun symtab => fails_bind goes_field.fails fun strLink => ?_
  exact fails_ite (fails_bind fails_sectionData fun strtab => fails_elfApplyRelaRelocations)
    (fails_bind fails_pure fun strtab => fails_elfApplyRelaRelocations)

theorem fails_dynamicFrom {bias fuel dyn : Nat} {d : DynInfo} {E : Int → Prop} :
    Fails (dynamicFrom img m bias fuel dyn d) E := by
  induction fuel generalizing dyn d with
  | zero =>
    intro e he
    cases he
  | succ fuel ih =>
    refine fails_bind goes_field.fails fun tag => fails_ite fails_pure (fails_bind ?_ fun d => ih)
    exact fails_ite (fails_bind goes_field.fails fun _ => fails_pure) <| fails_ite (fails_bind goes_field.fails fun _ => fails_pure) <|
      fails_ite (fails_bind goes_field.fails fun _ => fails_pure) <| fails_ite (fails_bind goes_field.fails fun _ => fails_pure) fails_pure

/-- Relocations end the loader with a code of their own. -/
theorem fails_elfApplyRelocations : Fails (elfApplyRelocations img st) RelocCode := by
  refine fails_bind fails_relaSections fun t => fails_ite fails_pure (fails_bind fails_dynamicFrom fun d => ?_)
  refine fails_bind (fails_ite fails_elfApplyRelaRelocations fails_pure) fun u => ?_
  exact fails_ite fails_elfApplyRelaRelocations fails_pure

namespace RelaTable

variable {T : RelaTable} {i : Nat}

/-- The loop reaches the entry in this state. -/
def Reaches (T : RelaTable) (img : Image) (st : Loader) (i : Nat) (t : Loader) : Prop :=
  i < T.count ∧ Returns (forLoop (T.step img) i st) t

/-- The type of the entry is one that the loader does not know; its symbol is not the problem. -/
def Unsupported (T : RelaTable) (img : Image) (i : Nat) (t : Loader) : Prop :=
  T.EntryIn img i ∧ relocation (T.rType t.mem i) = none ∧ ∃ v, Returns (T.symval img i t) v

theorem step_eq_throw_reloc : T.step img i st = throw elfErrorReloc ↔ T.Unsupported img i st := by
  have hsym : T.symval img i st ≠ throw elfErrorReloc := by
    unfold symval
    split
    · intro h
      exact absurd (symbolValue_eq_throw h) (by decide)
    · exact pure_ne_throw
  constructor
  · intro h
    have hin := entryIn_of_safe (h ▸ safe_throw _)
    rw [step_eq hin, bind_eq_throw] at h
    obtain ⟨v, hv, h⟩ := h.resolve_left hsym
    exact ⟨hin, (relocate_eq_throw.mp h).1, v, hv⟩
  · rintro ⟨hin, htype, v, hv⟩
    rw [step_eq hin, bind_eq_throw]
    exact .inr ⟨v, hv, relocate_eq_throw.mpr ⟨htype, rfl⟩⟩

end RelaTable

/-- **Fields of 32 bits**: when a table has been processed, every such field was given its value modulo 2^32, which stands
for the value exactly when it is in range; and `ELF_ERROR_RELOC` means that an entry with an unsupported type was reached. -/
theorem elfApplyRelaRelocations_fields (img : Image) (T : RelaTable) (st : Loader) :
    (∀ s, Returns (T.apply img st) s → ∀ i t, T.Reaches img st i t → Is32 (T.rType t.mem i) →
      ∃ symval t', Returns (T.symval img i t) symval ∧ Returns (T.step img i t) t' ∧
        let v := value64 (T.rType t.mem i) symval (T.addend t.mem i) (T.ref t.mem t.ctx.loadBias i)
        let stored := peek t'.mem (T.ref t.mem t.ctx.loadBias i) 4
        stored = v % 2 ^ 32 ∧ (extension (T.rType t.mem i) stored = v ↔ Fits32 (T.rType t.mem i) v)) ∧
    (T.apply img st = throw elfErrorReloc ↔ ∃ i t, T.Reaches img st i t ∧ T.Unsupported img i t) := by
  constructor
  · intro s hs i t ⟨hi, ht⟩ h32
    obtain ⟨t', ht'⟩ : ∃ t', Returns (T.step img i t) t' := returns_forLoop_lt hs hi ht
    have hstep := ht'
    rw [RelaTable.step_eq (RelaTable.entryIn_of_safe ht'.safe), returns_bind] at hstep
    obtain ⟨symval, hsym, hstore⟩ := hstep
    have hstored := returns_relocate32 h32 hstore
    refine ⟨symval, t', hsym, ht', hstored, ?_⟩
    rw [hstored]
    exact extension_eq_iff value64_lt
  · rw [RelaTable.apply_eq, forLoop_eq_throw]
    constructor
    · rintro ⟨i, hi, t, ht, h⟩
      exact ⟨i, t, ⟨hi, ht⟩, RelaTable.step_eq_throw_reloc.mp h⟩
    · rintro ⟨i, t, ⟨hi, ht⟩, h⟩
      exact ⟨i, hi, t, ht, RelaTable.step_eq_throw_reloc.mpr h⟩

/-- A table with one entry, of type `R_X86_64_32` without a symbol; its addend has two bytes that are given. -/
def wordTable : RelaTable := ⟨true, 4096, 1, 0, 0⟩

def wordImage : Image := ⟨4096, 24, by norm_num⟩

def wordLoader (lo hi : UInt8) : Loader :=
  ⟨fun a => ([0, 0x20, 0, 0, 0, 0, 0, 0, 10, 0, 0, 0, 0, 0, 0, 0, lo, 0, 0, 0, hi, 0, 0, 0] : List UInt8).getD (a - 4096) 0,
    [], [], emptyContext, emptyInfo⟩

theorem elfApplyRelaRelocations_fields_word : ∃ t', Returns (wordTable.step wordImage 0 (wordLoader 5 0)) t' ∧
    peek t'.mem 0x2000 4 = 5 := by
  obtain ⟨hfields, _⟩ := elfApplyRelaRelocations_fields wordImage wordTable (wordLoader 5 0)
  obtain ⟨symval, t', hsym, ht', hstored, _⟩ := hfields _ rfl 0 (wordLoader 5 0) ⟨by decide, rfl⟩ (by decide)
  obtain rfl : symval = 0 := hsym.inj rfl
  refine ⟨t', ht', ?_⟩
  have hvalue : value64 (wordTable.rType (wordLoader 5 0).mem 0) 0 (wordTable.addend (wordLoader 5 0).mem 0)
      (wordTable.ref (wordLoader 5 0).mem (wordLoader 5 0).ctx.loadBias 0) % 2 ^ 32 = 5 := by decide
  rw [hvalue] at hstored
  exact hstored

/-- The value 2^32 is stored as zero. -/
theorem elfApplyRelaRelocations_truncates : ¬ ∀ (img : Image) (T : RelaTable) (st s : Loader), Returns (T.apply img st) s →
    ∀ i t, T.Reaches img st i t → Is32 (T.rType t.mem i) →
      ∃ symval t', Returns (T.symval img i t) symval ∧ Returns (T.step img i t) t' ∧
        extension (T.rType t.mem i) (peek t'.mem (T.ref t.mem t.ctx.loadBias i) 4) =
          value64 (T.rType t.mem i) symval (T.addend t.mem i) (T.ref t.mem t.ctx.loadBias i) := by
  intro h
  obtain ⟨symval, t', hsym, ht', hfield⟩ := h wordImage wordTable (wordLoader 0 1) _ rfl 0 (wordLoader 0 1)
    ⟨by decide, rfl⟩ (by decide)
  obtain rfl : symval = 0 := hsym.inj rfl
  obtain rfl := ht'.inj rfl
  exact absurd hfield (by decide)

end AmqOs.Elf
