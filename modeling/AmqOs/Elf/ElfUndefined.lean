import AmqOs.Elf.ElfPlacement
import AmqOs.Elf.ElfRelocs
import AmqOs.Elf.ElfSymbols

/-!
# Undefined symbols

A relocation whose symbol is undefined takes the value of the entry with its name. But `elf_resolve_symbols` enters undefined
symbols too, so the entry may be that of the undefined symbol itself, and `elf_load` goes on with the load bias for a value.
`Handled` says what should be done with an undefined symbol; it is done exactly when the entry for the name, if there is one,
does no harm (`undefined_handled_iff`).
-/

set_option autoImplicit false

namespace AmqOs.Elf

open AmqOs.Lib AmqOs.Lib.Guarded

variable {img : Image} {m : Mem} {st s₁ s₂ t u : Loader} {T : RelaTable} {i : Nat} {name : List UInt8}

/-! ## What a step leaves of the context -/

theorem elfMapMemory_ctx {vaddr size : Nat} : (elfMapMemory st vaddr size).2.ctx = st.ctx := by
  unfold elfMapMemory pmmAllocPages
  dsimp only
  split <;> split <;> rfl

theorem fillPages_ctx {phdr vaddr page : Nat} (h : Returns (fillPages img phdr vaddr page st) t) : t.ctx = st.ctx := by
  obtain ⟨_, _, h⟩ := returns_bind.mp h
  obtain ⟨_, _, h⟩ := returns_bind.mp h
  rw [← returns_pure.mp h]

theorem loadSegment_ctx {phdr : Nat} (h : Returns (loadSegment img phdr st) t) : t.ctx = st.ctx := by
  unfold loadSegment at h
  simp only [returns_field_bind] at h
  obtain ⟨_, _, _, _, h⟩ := h
  generalize wrap (fieldVal st.mem phdr 16 8 + st.ctx.loadBias) = vaddr at h
  have hctx := @elfMapMemory_ctx st vaddr (fieldVal st.mem phdr 40 8)
  generalize elfMapMemory st vaddr (fieldVal st.mem phdr 40 8) = mapped at h hctx
  split at h
  · exact absurd h not_returns_throw
  · exact (fillPages_ctx h).trans hctx

theorem segmentStep_ctx (h : Returns (segmentStep img i st) t) : t.ctx = st.ctx := by
  by_cases hload : fieldVal st.mem (phdrAt st.ctx i) 0 4 = ptLoad
  · obtain ⟨_, h⟩ := returns_field_bind.mp h
    rw [if_pos hload] at h
    exact loadSegment_ctx h
  · exact (segmentStep_other h hload).ctx

/-- Nothing has been entered before `elf_resolve_symbols`. -/
theorem elfLoadSegments_symbolHash (h : Returns (elfLoadSegments img st) t) : t.ctx.symbolHash = st.ctx.symbolHash := by
  obtain ⟨s, hbias, h⟩ := returns_bind.mp h
  obtain ⟨u, hloop, h⟩ := returns_bind.mp h
  simp only [returns_field_bind, returns_pure] at h
  obtain ⟨_, _, _, rfl⟩ := h
  obtain ⟨_, hctx, _⟩ := forBelow_inv (fun _ t => t.ctx = s.ctx) rfl
    (fun _ _ _ _ ht _ _ hstep => (segmentStep_ctx hstep).trans ht) hloop
  show u.ctx.symbolHash = _
  rw [hctx, (decides_setLoadBias.of_returns hbias).2.2.ctx]
  rfl

/-- `elf_resolve_symbols` starts with empty chains and ends in `s₂`; the state before it is `s₁`. -/
def Resolved (img : Image) (st s₁ s₂ : Loader) : Prop :=
  ∃ s₀, Returns (elfCreateContext img { st with info := emptyInfo }) s₀ ∧ Returns (elfLoadSegments img s₀) s₁ ∧
    Returns (elfResolveSymbols img s₁) s₂

theorem Resolved.holding (h : Resolved img st s₁ s₂) : Holding s₁ (entriesOf img s₁) s₂ := by
  obtain ⟨s₀, hcreate, hload, hresolve⟩ := h
  apply (goes_elfResolveSymbols ?_).of_returns hresolve
  intro k
  rw [elfLoadSegments_symbolHash hload, (decides_elfCreateContext.of_returns hcreate).2.2]
  rfl

/-- The states differ in memory only. -/
def OnlyMem (st t : Loader) : Prop := ∃ m, t = { st with mem := m }

theorem OnlyMem.trans (hst : OnlyMem st t) (htu : OnlyMem t u) : OnlyMem st u := by
  obtain ⟨_, rfl⟩ := hst
  obtain ⟨m, rfl⟩ := htu
  exact ⟨m, rfl⟩

theorem OnlyMem.ctx (h : OnlyMem st t) : t.ctx = st.ctx := by
  obtain ⟨_, rfl⟩ := h
  rfl

/-- Relocations write to memory, and change nothing else. -/
theorem onlyMem_step (h : Returns (T.step img i st) t) : OnlyMem st t := by
  rw [RelaTable.step_eq (RelaTable.entryIn_of_safe h.safe), returns_bind] at h
  obtain ⟨symval, _, h⟩ := h
  match hstore : relocation (T.rType st.mem i), h with
  | none, h => exact absurd h not_returns_throw
  | some .nothing, h => exact ⟨st.mem, (returns_pure.mp h).symm⟩
  | some (.plain width value), h => exact ⟨_, (returns_pure.mp h).symm⟩
  | some (.withAddend width value), h =>
    obtain ⟨_, _, h⟩ := returns_bind.mp h
    exact ⟨_, (returns_pure.mp h).symm⟩

theorem onlyMem_steps {n : Nat} (h : Returns (forLoop (T.step img) n st) t) : OnlyMem st t :=
  forLoop_inv (fun _ => OnlyMem st) ⟨st.mem, rfl⟩ (fun _ _ _ _ ht hstep => ht.trans (onlyMem_step hstep)) h

theorem onlyMem_applyTable {table : Option RelaTable} (h : Returns (applyTable img st table) t) : OnlyMem st t := by
  cases table with
  | none => exact ⟨st.mem, (returns_pure.mp h).symm⟩
  | some T => exact onlyMem_steps h

theorem onlyMem_relaSections {n : Nat} (h : Returns (forLoop (relaSectionStep img) n st) t) : OnlyMem st t := by
  refine forLoop_inv (fun _ => OnlyMem st) ⟨st.mem, rfl⟩ (fun _ u v _ hu hstep => ?_) h
  rw [relaSectionStep_eq, returns_bind] at hstep
  obtain ⟨table, _, hstep⟩ := hstep
  exact hu.trans (onlyMem_applyTable hstep)

theorem onlyMem_elfApplyRelocations (h : Returns (elfApplyRelocations img st) t) : OnlyMem st t := by
  obtain ⟨u, hu, h⟩ := returns_bind.mp h
  have hsections := onlyMem_relaSections hu
  split at h
  · exact returns_pure.mp h ▸ hsections
  · obtain ⟨d, _, h⟩ := returns_bind.mp h
    obtain ⟨v, hv, h⟩ := returns_bind.mp h
    rw [dynamicRela_eq] at hv h
    exact (hsections.trans (onlyMem_applyTable hv)).trans (onlyMem_applyTable h)

theorem Runs.ctx (h : Runs img st T u) : u.ctx = st.ctx := by
  cases h with
  | ofSection _ hu _ => exact (onlyMem_relaSections hu).ctx
  | ofRela hu _ _ _ => exact (onlyMem_relaSections hu).ctx
  | ofJmprel hu _ _ hv _ =>
    rw [dynamicRela_eq] at hv
    exact ((onlyMem_relaSections hu).trans (onlyMem_applyTable hv)).ctx

/-! ## Relocations of a load -/

/-- Relocation `i` of the table comes up in the load, in the state `t`; `s₁` is the state before `elf_resolve_symbols`. -/
def ComesUp (img : Image) (st s₁ : Loader) (T : RelaTable) (i : Nat) (t : Loader) : Prop :=
  ∃ s₂ u, Resolved img st s₁ s₂ ∧ Runs img s₂ T u ∧ T.Reaches img u i t

theorem ComesUp.ctx (h : ComesUp img st s₁ T i t) : ∃ s₂, Resolved img st s₁ s₂ ∧ t.ctx = s₂.ctx := by
  obtain ⟨s₂, u, hresolved, hruns, _, ht⟩ := h
  exact ⟨s₂, hresolved, (onlyMem_steps ht).ctx.trans hruns.ctx⟩

theorem elfLoad_of_throw {e : Int} (h : elfLoadSteps img st = throw e) : elfLoad img st = some e := by
  unfold elfLoad
  rw [h]
  rfl

/-- A relocation that fails ends `elf_load`. -/
theorem ComesUp.elfLoad_eq {e : Int} (h : ComesUp img st s₁ T i t) (he : T.step img i t = throw e) :
    elfLoad img st = some e := by
  obtain ⟨s₂, u, ⟨s₀, hcreate, hload, hresolve⟩, hruns, hi, ht⟩ := h
  have happly : T.apply img u = throw e := forLoop_eq_throw.mpr ⟨i, hi, t, ht, he⟩
  refine elfLoad_of_throw ?_
  unfold elfLoadSteps
  rw [hcreate.bind, hload.bind, hresolve.bind, bind_eq_throw]
  exact .inl (hruns.eq_throw happly)

/-- The symbol of the relocation is undefined and has the name; the entry and the symbol lie in the image. -/
structure UndefinedRef (img : Image) (T : RelaTable) (i : Nat) (t : Loader) (name : List UInt8) : Prop where
  entry : T.EntryIn img i
  hasSym : T.HasSym t.mem i
  symbol : img.Has (T.sym t.mem i) 24
  undef : fieldVal t.mem (T.sym t.mem i) 6 2 = 0
  strings : T.strtab ≠ 0
  named : fieldVal t.mem (T.sym t.mem i) 0 4 ≠ 0
  name : Returns (img.str t.mem (wrap (T.strtab + fieldVal t.mem (T.sym t.mem i) 0 4))) name

/-- The symbol of the relocation is weak. -/
def Weak (T : RelaTable) (i : Nat) (t : Loader) : Prop := fieldVal t.mem (T.sym t.mem i) 4 1 / 16 = stbWeak

/-- Symbol `i` of the table is defined, has the name, and its value is `v`. -/
def SymTable.Defines (S : SymTable) (img : Image) (s : Loader) (name : List UInt8) (i v : Nat) : Prop :=
  S.Present ∧ i < S.count ∧ fieldVal s.mem (symAt S.table i) 6 2 ≠ 0 ∧ fieldVal s.mem (symAt S.table i) 0 4 ≠ 0 ∧
    Returns (img.str s.mem (S.nameAddr s.mem i)) name ∧
    v = if fieldVal s.mem (symAt S.table i) 6 2 = shnAbs then fieldVal s.mem (symAt S.table i) 8 8
      else S.value s.mem s.ctx.loadBias i

/-- A defined symbol of the image has the name and the value. -/
def DefinedAs (img : Image) (s : Loader) (name : List UInt8) (v : Nat) : Prop :=
  ∃ i, s.ctx.symtabTable.Defines img s name i v ∨ s.ctx.dynsymTable.Defines img s name i v

/-- What should be done with an undefined symbol: without a definition the load fails, or the value is zero if the symbol
is weak; otherwise the value is that of a definition. -/
def Handled (img : Image) (st s₁ : Loader) (T : RelaTable) (i : Nat) (t : Loader) (name : List UInt8) : Prop :=
  ((∀ v, ¬ DefinedAs img s₁ name v) →
    (¬ Weak T i t → T.step img i t = throw elfErrorSymbol ∧ elfLoad img st = some elfErrorSymbol) ∧
      (Weak T i t → Returns (T.symval img i t) 0)) ∧
  ((∃ v, DefinedAs img s₁ name v) → ∃ v, DefinedAs img s₁ name v ∧ Returns (T.symval img i t) v)

/-- The entry for a name: the last symbol of `.symtab`, or else the first one of `.dynsym`, among those with memory. -/
def entryFor (img : Image) (s : Loader) (name : List UInt8) : Option ElfSymbol :=
  (entriesOf img s).items.find? fun e => e.name = name

/-- The entry for the name, defined or not, does no harm: without a definition there is none, or the symbol is weak and the
value of the entry zero; otherwise its value is that of a definition. -/
def Harmless (img : Image) (s₁ : Loader) (T : RelaTable) (i : Nat) (t : Loader) (name : List UInt8) : Prop :=
  ((∀ v, ¬ DefinedAs img s₁ name v) → ∀ e, entryFor img s₁ name = some e → Weak T i t ∧ e.value = 0) ∧
  ((∃ v, DefinedAs img s₁ name v) →
    (∀ e, entryFor img s₁ name = some e → DefinedAs img s₁ name e.value) ∧
      (entryFor img s₁ name = none → Weak T i t ∧ DefinedAs img s₁ name 0))

theorem findSymbol_eq_entryFor (h : ComesUp img st s₁ T i t) : findSymbol t.ctx name = entryFor img s₁ name := by
  obtain ⟨s₂, hresolved, hctx⟩ := h.ctx
  rw [hctx]
  exact findSymbol_of_holding hresolved.holding name

/-- The value of an undefined symbol comes from the entry for its name. -/
theorem UndefinedRef.symval_eq (h : UndefinedRef img T i t name) :
    T.symval img i t = foundValue img t.mem (T.sym t.mem i) (findSymbol t.ctx name) := by
  unfold RelaTable.symval symbolValue
  rw [if_pos h.hasSym, field_bind (fieldIn_of_has h.symbol (by omega) (by omega)), if_pos h.undef, if_neg h.strings,
    field_bind (fieldIn_of_has h.symbol (by omega) (by omega)), if_neg h.named, h.name.bind]

theorem UndefinedRef.symval_of_some (h : UndefinedRef img T i t name) {e : ElfSymbol}
    (he : findSymbol t.ctx name = some e) : Returns (T.symval img i t) e.value := by
  rw [h.symval_eq, he]
  rfl

theorem UndefinedRef.symval_of_none (h : UndefinedRef img T i t name) (he : findSymbol t.ctx name = none) :
    (Weak T i t → Returns (T.symval img i t) 0) ∧ (¬ Weak T i t → T.symval img i t = throw elfErrorSymbol) := by
  rw [h.symval_eq, he, foundValue, field_bind (fieldIn_of_has h.symbol (by omega) (by omega))]
  exact ⟨fun hweak => (if_pos hweak).symm ▸ rfl, fun hweak => if_neg hweak⟩

/-- A symbol with a value does not end the load as undefined. -/
theorem step_ne_throw {v : Nat} (hin : T.EntryIn img i) (hv : Returns (T.symval img i t) v) :
    T.step img i t ≠ throw elfErrorSymbol := by
  rw [RelaTable.step_eq hin, hv.bind]
  intro h
  exact absurd (relocate_eq_throw.mp h).2 (by decide)

/-- With an entry for the name, its value is used. -/
theorem handled_of_some (h : ComesUp img st s₁ T i t) (href : UndefinedRef img T i t name) {e : ElfSymbol}
    (he : entryFor img s₁ name = some e) : Handled img st s₁ T i t name ↔
      ((∀ v, ¬ DefinedAs img s₁ name v) → Weak T i t ∧ e.value = 0) ∧
        ((∃ v, DefinedAs img s₁ name v) → DefinedAs img s₁ name e.value) := by
  have hval := href.symval_of_some ((findSymbol_eq_entryFor h).trans he)
  refine and_congr (imp_congr_right fun _ => ?_) (imp_congr_right fun _ => ?_)
  · constructor
    · rintro ⟨hstrong, hweak⟩
      by_cases hw : Weak T i t
      · exact ⟨hw, hval.inj (hweak hw)⟩
      · exact absurd (hstrong hw).1 (step_ne_throw href.entry hval)
    · rintro ⟨hw, hzero⟩
      exact ⟨fun hn => absurd hw hn, fun _ => hzero ▸ hval⟩
  · constructor
    · rintro ⟨v, hdef, hv⟩
      exact hval.inj hv ▸ hdef
    · intro hdef
      exact ⟨e.value, hdef, hval⟩

/-- Without one, the load fails unless the symbol is weak. -/
theorem handled_of_none (h : ComesUp img st s₁ T i t) (href : UndefinedRef img T i t name)
    (he : entryFor img s₁ name = none) : Handled img st s₁ T i t name ↔
      ((∃ v, DefinedAs img s₁ name v) → Weak T i t ∧ DefinedAs img s₁ name 0) := by
  obtain ⟨hweak, hstrong⟩ := href.symval_of_none ((findSymbol_eq_entryFor h).trans he)
  constructor
  · rintro ⟨_, hdefined⟩ hdef
    obtain ⟨v, hv, hval⟩ := hdefined hdef
    by_cases hw : Weak T i t
    · exact ⟨hw, (hweak hw).inj hval ▸ hv⟩
    · rw [hstrong hw] at hval
      exact absurd hval not_returns_throw
  · intro hdefined
    refine ⟨fun _ => ⟨fun hn => ?_, hweak⟩, fun hdef => ?_⟩
    · have hthrow : T.step img i t = throw elfErrorSymbol := by
        rw [RelaTable.step_eq href.entry, hstrong hn]
        rfl
      exact ⟨hthrow, h.elfLoad_eq hthrow⟩
    · obtain ⟨hw, hzero⟩ := hdefined hdef
      exact ⟨0, hzero, hweak hw⟩

/-- **Undefined symbols**: a relocation handles an undefined symbol as it should exactly when the entry for the name does no
harm. -/
theorem undefined_handled_iff (h : ComesUp img st s₁ T i t) (href : UndefinedRef img T i t name) :
    Handled img st s₁ T i t name ↔ Harmless img s₁ T i t name := by
  unfold Harmless
  cases he : entryFor img s₁ name with
  | none => simp [handled_of_none h href he]
  | some e => simp [handled_of_some h href he]

/-! ## An image with an undefined symbol -/

/-- A section header, from its name to its link. -/
def sectionBytes (shName shType offset size link : Nat) : List UInt8 :=
  fieldBytes 4 shName ++ fieldBytes 4 shType ++ fieldBytes 16 0 ++ fieldBytes 8 offset ++ fieldBytes 8 size ++
    fieldBytes 4 link ++ fieldBytes 20 0

/-- A file with one segment, and one relocation of it against the symbol `a`, which nothing defines. -/
def danglingFile : List UInt8 :=
  -- the file header
  [0x7F, 0x45, 0x4C, 0x46, 2, 1, 1, 0, 0, 0, 0, 0, 0, 0, 0, 0] ++ fieldBytes 2 etExec ++ fieldBytes 2 emX8664 ++
    fieldBytes 4 1 ++ fieldBytes 8 0x400000 ++ fieldBytes 8 64 ++ fieldBytes 8 120 ++ fieldBytes 4 0 ++ fieldBytes 2 64 ++
    fieldBytes 2 56 ++ fieldBytes 2 1 ++ fieldBytes 2 64 ++ fieldBytes 2 4 ++ fieldBytes 2 2 ++
    -- the program header
    fieldBytes 4 ptLoad ++ fieldBytes 4 6 ++ fieldBytes 8 0 ++ fieldBytes 8 0x400000 ++ fieldBytes 8 0x400000 ++
    fieldBytes 8 0 ++ fieldBytes 8 8 ++ fieldBytes 8 0x1000 ++
    -- the section headers
    sectionBytes 0 0 0 0 0 ++ sectionBytes 0 shtRela 376 24 3 ++ sectionBytes 1 shtStrtab 448 11 0 ++
    sectionBytes 0 shtSymtab 400 48 2 ++
    -- the relocation, the symbols and the strings
    fieldBytes 8 0x400000 ++ fieldBytes 8 (2 ^ 32 + 1) ++ fieldBytes 8 0 ++ fieldBytes 24 0 ++ fieldBytes 4 9 ++ [0x10] ++
    fieldBytes 19 0 ++ [0] ++ strtabName ++ [0x61, 0]

def danglingImage : Image := ⟨4096, 459, by norm_num⟩

def danglingLoader : Loader :=
  ⟨fun a => if 4096 ≤ a then danglingFile.getD (a - 4096) 0 else 0, [0x400000], [true, true, true], emptyContext, emptyInfo⟩

/-- The same without memory for the second block of an entry. -/
def crampedLoader : Loader := { danglingLoader with blocks := [true, true] }

instance (T : RelaTable) (i : Nat) : Decidable (T.EntryIn danglingImage i) :=
  inferInstanceAs (Decidable ((_ → danglingImage.Has _ _) ∧ (_ → danglingImage.Has _ _)))

/-- The symbol of the relocation is `a`, undefined and not weak, and no symbol is defined. -/
def Dangling (s₁ : Loader) (T : RelaTable) (u : Loader) (name : List UInt8) : Prop :=
  (name = [0x61] ∧ 0 < T.count ∧ T.EntryIn danglingImage 0 ∧ T.HasSym u.mem 0 ∧ danglingImage.Has (T.sym u.mem 0) 24 ∧
    fieldVal u.mem (T.sym u.mem 0) 6 2 = 0 ∧ T.strtab ≠ 0 ∧ fieldVal u.mem (T.sym u.mem 0) 0 4 ≠ 0 ∧
    fieldVal u.mem (T.sym u.mem 0) 4 1 / 16 ≠ stbWeak) ∧
  s₁.ctx.dynsym = 0 ∧ s₁.ctx.symtabCount = 2 ∧ fieldVal s₁.mem (symAt s₁.ctx.symtab 0) 6 2 = 0 ∧
    fieldVal s₁.mem (symAt s₁.ctx.symtab 1) 6 2 = 0

instance (s₁ : Loader) (T : RelaTable) (u : Loader) (name : List UInt8) : Decidable (Dangling s₁ T u name) :=
  inferInstanceAs (Decidable (_ ∧ _))

/-- The load up to the relocation, and whether there is an entry for the symbol. -/
def danglingRun (st : Loader) (found : Bool) : M Bool := do
  let s₀ ← elfCreateContext danglingImage { st with info := emptyInfo }
  let s₁ ← elfLoadSegments danglingImage s₀
  let s₂ ← elfResolveSymbols danglingImage s₁
  let u ← forLoop (relaSectionStep danglingImage) 1 s₂
  match ← stepTable danglingImage 1 u with
  | none => pure false
  | some T => do
    let name ← danglingImage.str u.mem (wrap (T.strtab + fieldVal u.mem (T.sym u.mem 0) 0 4))
    pure (decide (Dangling s₁ T u name ∧ (findSymbol u.ctx [0x61]).isSome = found))

/-- The relocation comes up. -/
theorem comesUp_dangling {st : Loader} {found : Bool} (hrun : Returns (danglingRun st found) true) :
    ∃ s₁ T t, ComesUp danglingImage st s₁ T 0 t ∧ UndefinedRef danglingImage T 0 t [0x61] ∧ ¬ Weak T 0 t ∧
      (∀ v, ¬ DefinedAs danglingImage s₁ [0x61] v) ∧ (findSymbol t.ctx [0x61]).isSome = found := by
  obtain ⟨s₀, hcreate, hrun⟩ := returns_bind.mp hrun
  obtain ⟨s₁, hload, hrun⟩ := returns_bind.mp hrun
  obtain ⟨s₂, hresolve, hrun⟩ := returns_bind.mp hrun
  obtain ⟨u, hu, hrun⟩ := returns_bind.mp hrun
  obtain ⟨table, hT, hrun⟩ := returns_bind.mp hrun
  cases table with
  | none => cases hrun
  | some T =>
    obtain ⟨name, hname, hrun⟩ := returns_bind.mp hrun
    obtain ⟨⟨⟨rfl, hcount, hin, hsym, hhas, hundef, hstr, hnamed, hweak⟩, hdyn, htwo, h0, h1⟩, hfound⟩ :=
      of_decide_eq_true (returns_pure.mp hrun)
    refine ⟨s₁, T, u, ⟨s₂, u, ⟨s₀, hcreate, hload, hresolve⟩, .ofSection (by norm_num) hu hT, hcount, rfl⟩,
      ⟨hin, hsym, hhas, hundef, hstr, hnamed, hname⟩, hweak, ?_, hfound⟩
    rintro v ⟨i, ⟨_, hi, hdef, _⟩ | ⟨hp, _⟩⟩
    · have hi' : i < 2 := htwo ▸ hi
      obtain rfl | rfl : i = 0 ∨ i = 1 := by omega
      · exact hdef h0
      · exact hdef h1
    · exact hp.1 hdyn

/-- Without an entry, the undefined symbol is reported. -/
theorem undefined_handled_iff_cramped : ∃ s₁ T t, ComesUp danglingImage crampedLoader s₁ T 0 t ∧
    UndefinedRef danglingImage T 0 t [0x61] ∧ Harmless danglingImage s₁ T 0 t [0x61] ∧
    Handled danglingImage crampedLoader s₁ T 0 t [0x61] := by
  have hrun : Returns (danglingRun crampedLoader false) true := returns_of_value? (by decide +kernel)
  obtain ⟨s₁, T, t, hup, href, -, hdef, hfound⟩ := comesUp_dangling hrun
  have hnone : entryFor danglingImage s₁ [0x61] = none := by
    rw [← findSymbol_eq_entryFor hup]
    exact Option.isSome_eq_false_iff.mp hfound |> Option.isNone_iff_eq_none.mp
  have hharmless : Harmless danglingImage s₁ T 0 t [0x61] := by
    refine ⟨fun _ e he => ?_, fun ⟨v, hv⟩ => absurd hv (hdef v)⟩
    rw [hnone] at he
    cases he
  exact ⟨s₁, T, t, hup, href, hharmless, (undefined_handled_iff hup href).mpr hharmless⟩

/-- The undefined symbol is found in its own entry, and the load goes on. -/
theorem undefined_unreported : ¬ ∀ (img : Image) (st s₁ : Loader) (T : RelaTable) (i : Nat) (t : Loader)
    (name : List UInt8), ComesUp img st s₁ T i t → UndefinedRef img T i t name → Handled img st s₁ T i t name := by
  intro h
  have hrun : Returns (danglingRun danglingLoader true) true := returns_of_value? (by decide +kernel)
  obtain ⟨s₁, T, t, hup, href, hweak, hdef, hfound⟩ := comesUp_dangling hrun
  obtain ⟨e, he⟩ := Option.isSome_iff_exists.mp hfound
  obtain ⟨hstrong, _⟩ := (h _ _ _ _ _ _ _ hup href).1 hdef
  exact step_ne_throw href.entry (href.symval_of_some he) (hstrong hweak).1

end AmqOs.Elf
