import AmqOs.Elf.ElfRelocs
import AmqOs.Lib.Patches

/-!
# Relocating twice

An entry of a relocation table reads itself, its symbol and the name of the symbol (`RelaTable.Reads`) and stores at most one
number. Where no entry relocates what an entry reads, each entry stores a constant, and the table is one patch of memory
(`RelaTable.run_eq`). So it may be applied twice, and an image with one table ends with the same code and the same memory
whichever way the table is found (`relocation_idempotent`). `RelaTable.run` and `elfApplyRelocationsRun` also keep the
memory that a failing call leaves; without it they are the functions of the loader (`forget_elfApplyRelocationsRun`).
-/

set_option autoImplicit false

namespace AmqOs.Elf

open AmqOs.Lib AmqOs.Lib.Guarded

variable {img : Image} {m m' : Mem} {st st' t : Loader} {T T' : RelaTable} {i : Nat}

/-! ## Runs that keep the memory of a failure -/

/-- `elf_apply_rela_relocations`: an entry that fails has stored nothing. -/
def RelaTable.run (T : RelaTable) (img : Image) (st : Loader) : Ending Int Loader :=
  forEnding (fun i t => ends (T.step img i t) t) T.count st

def tableRun (img : Image) (st : Loader) : Option RelaTable → Ending Int Loader
  | none => some (none, st)
  | some T => T.run img st

/-- `elf_apply_relocations`. -/
def elfApplyRelocationsRun (img : Image) (st : Loader) : Ending Int Loader :=
  andThen (forEnding (fun k st => onValue (stepTable img k st) st (tableRun img st)) (2 ^ 16) st) fun st =>
    if st.ctx.dynamic = 0 then some (none, st)
    else onValue (dynamicInfo img st) st fun d =>
      andThen (tableRun img st (dynamicTable d.rela d.relaSize st)) fun st =>
        tableRun img st (dynamicTable d.jmprel d.jmprelSize st)

theorem forget_run : forget (T.run img st) = T.apply img st :=
  forget_forEnding (fun _ _ => forget_ends _ _) _ _

theorem forget_tableRun {table : Option RelaTable} : forget (tableRun img st table) = applyTable img st table := by
  cases table with
  | none => rfl
  | some T => exact forget_run

/-- Without the memory of a failure, this is the function of the loader. -/
theorem forget_elfApplyRelocationsRun : forget (elfApplyRelocationsRun img st) = elfApplyRelocations img st := by
  unfold elfApplyRelocationsRun elfApplyRelocations
  have hsections : ∀ k s, forget (onValue (stepTable img k s) s (tableRun img s)) = relaSectionStep img k s := by
    intro k s
    rw [forget_onValue, relaSectionStep_eq]
    congr 1
    funext table
    exact forget_tableRun
  rw [forget_andThen, forget_forEnding hsections]
  congr 1
  funext s
  split
  · rfl
  · rw [forget_onValue]
    congr 1
    funext d
    rw [forget_andThen, forget_tableRun, ← dynamicRela_eq]
    congr 1
    funext u
    rw [forget_tableRun, ← dynamicRela_eq]

/-! ## The patch of an entry -/

/-- A store of `n` bytes as a patch. -/
def storePatch (a n v : Nat) : Patch Nat UInt8 := fun x =>
  if x < 2 ^ 64 ∧ wrap (x + (2 ^ 64 - wrap a)) < n then some (UInt8.ofNat (v / 256 ^ wrap (x + (2 ^ 64 - wrap a)))) else none

theorem poke_eq_patch {a n v : Nat} (hn : n ≤ 2 ^ 64) : poke m a n v = patch (storePatch a n v) m := by
  funext x
  rw [poke_eq hn]
  unfold patch storePatch
  split <;> rfl

/-- The state with another memory. -/
def Loader.withMem (st : Loader) (m : Mem) : Loader := { st with mem := m }

/-- What a relocation stores, as a patch. -/
def storeOf (img : Image) (inImage : Bool) (rel ref symval : Nat) (st : Loader) : Option Store → M (Patch Nat UInt8)
  | none => throw elfErrorReloc
  | some .nothing => pure Patch.empty
  | some (.plain width value) => pure (storePatch ref width (value symval ref))
  | some (.withAddend width value) => do
    let addend ← tableField img inImage st.mem rel 16 8
    pure (storePatch ref width (value symval addend ref st.ctx.loadBias))

/-- The patch of entry `i`. -/
def RelaTable.effect (T : RelaTable) (img : Image) (i : Nat) (st : Loader) : M (Patch Nat UInt8) := do
  let _ ← tableField img T.inImage st.mem (T.rel i) 8 8
  let _ ← tableField img T.inImage st.mem (T.rel i) 0 8
  let symval ← T.symval img i st
  storeOf img T.inImage (T.rel i) (T.ref st.mem st.ctx.loadBias i) symval st (relocation (T.rType st.mem i))

theorem relocate_eq {inImage : Bool} {rel ref symval : Nat} {store : Option Store} (h : storeWidth store ≤ 8) :
    relocate img inImage rel ref symval st store =
      storeOf img inImage rel ref symval st store >>= fun p => pure (st.withMem (patch p st.mem)) := by
  have hpoke : ∀ v, poke st.mem ref (storeWidth store) v = patch (storePatch ref (storeWidth store) v) st.mem :=
    fun v => poke_eq_patch (by omega)
  match store, hpoke with
  | none, _ => rfl
  | some .nothing, _ => rfl
  | some (.plain width value), hpoke =>
    exact congrArg (fun m => (pure (st.withMem m) : M Loader)) (hpoke _)
  | some (.withAddend width value), hpoke =>
    rw [relocate, storeOf, bind_assoc]
    congr 1
    funext addend
    exact congrArg (fun m => (pure (st.withMem m) : M Loader)) (hpoke _)

/-- An iteration makes the patch of its entry. -/
theorem RelaTable.step_eq_effect (T : RelaTable) (img : Image) (i : Nat) (st : Loader) :
    T.step img i st = T.effect img i st >>= fun p => pure (st.withMem (patch p st.mem)) := by
  by_cases hin : T.EntryIn img i
  · rw [step_eq hin, effect, tableField_bind hin.1, tableField_bind hin.2, bind_assoc]
    refine congrArg (T.symval img i st >>= ·) (funext fun symval => ?_)
    exact relocate_eq (storeWidth_le _)
  · have hstep : ¬ Safe (T.step img i st) := fun h => hin (entryIn_of_safe h)
    have heffect : ¬ Safe (T.effect img i st >>= fun p => pure (st.withMem (patch p st.mem))) := by
      intro h
      obtain ⟨hinfo, hrest⟩ := safe_tableField_bind.mp (safe_bind.mp h).1
      exact hin ⟨hinfo, (safe_tableField_bind.mp hrest).1⟩
    rw [not_not.mp hstep, not_not.mp heffect]

/-! ## What is read -/

/-- The bytes of a field. -/
def InField (p off n x : Nat) : Prop := wrap (p + off) ≤ x ∧ x < wrap (p + off) + n

/-- The bytes of a string, with its terminator. -/
def OnString (m : Mem) (a x : Nat) : Prop := ∃ k, x = wrap (a + k) ∧ ∀ j < k, m (wrap (a + j)) ≠ 0

/-- What is read of and through a symbol. -/
def SymReads (m : Mem) (sym strtab x : Nat) : Prop :=
  InField sym 6 2 x ∨ InField sym 0 4 x ∨ InField sym 4 1 x ∨ InField sym 8 8 x ∨
    (fieldVal m sym 6 2 = 0 ∧ strtab ≠ 0 ∧ fieldVal m sym 0 4 ≠ 0 ∧ OnString m (wrap (strtab + fieldVal m sym 0 4)) x)

/-- What is read of and through entry `i`. -/
def RelaTable.Reads (T : RelaTable) (m : Mem) (i x : Nat) : Prop :=
  InField (T.rel i) 0 8 x ∨ InField (T.rel i) 8 8 x ∨ InField (T.rel i) 16 8 x ∨
    (T.HasSym m i ∧ SymReads m (T.sym m i) T.strtab x)

/-- The memory that the table relocates. -/
def RelaTable.Relocated (T : RelaTable) (st : Loader) (x : Nat) : Prop :=
  ∃ j < T.count, T.Writes st.mem st.ctx.loadBias j x

/-- No entry relocates what an entry reads. -/
def RelaTable.Outside (T : RelaTable) (st : Loader) : Prop :=
  ∀ i < T.count, ∀ x, T.Relocated st x → ¬ T.Reads st.mem i x

theorem fieldVal_congr {p off n : Nat} (h : ∀ x, InField p off n x → m x = m' x) : fieldVal m p off n = fieldVal m' p off n :=
  Mem.loadLE_congr fun x h1 h2 => h x ⟨h1, h2⟩

/-- Two reads of one field that see the same. -/
theorem field_bind_congr {α : Type} {p off n : Nat} {f g : Nat → M α} (hv : fieldVal m p off n = fieldVal m' p off n)
    (hf : f (fieldVal m p off n) = g (fieldVal m p off n)) : img.field m p off n >>= f = img.field m' p off n >>= g := by
  by_cases hin : img.FieldIn p off n
  · rw [field_bind hin, field_bind hin, ← hv, hf]
  · have hnone : ∀ m : Mem, img.field m p off n = (none : Option (Except Int Nat)) := fun m => if_neg hin
    rw [hnone, hnone]
    rfl

/-- Two reads of entries of tables that see the same. -/
theorem tableField_bind_congr {α : Type} {b b' : Bool} {p p' off n : Nat} {f g : Nat → M α}
    (hb : img.TableIn b p off n ↔ img.TableIn b' p' off n) (hv : fieldVal m p off n = fieldVal m' p' off n)
    (hf : f (fieldVal m p off n) = g (fieldVal m p off n)) :
    tableField img b m p off n >>= f = tableField img b' m' p' off n >>= g := by
  by_cases hin : img.TableIn b p off n
  · rw [RelaTable.tableField_bind hin, RelaTable.tableField_bind (hb.mp hin), ← hv, hf]
  · have hl : ¬ Safe (tableField img b m p off n >>= f) := fun h => hin (safe_tableField_bind.mp h).1
    have hr : ¬ Safe (tableField img b' m' p' off n >>= g) := fun h => hin (hb.mpr (safe_tableField_bind.mp h).1)
    rw [not_not.mp hl, not_not.mp hr]

/-- A string is read up to its terminator. -/
theorem str_congr {a : Nat} (h : ∀ x, OnString m a x → m x = m' x) : img.str m a = img.str m' a := by
  unfold Image.str
  generalize 2 ^ 64 = fuel
  induction fuel generalizing a with
  | zero => rfl
  | succ fuel ih =>
    have hhead : m (wrap a) = m' (wrap a) := h _ ⟨0, rfl, fun j hj => absurd hj (by omega)⟩
    have hread : img.read m (wrap a) 1 = img.read m' (wrap a) 1 := by
      unfold Image.read
      rw [loadLE_one, loadLE_one, hhead]
    by_cases hin : img.Has (wrap a) 1
    · have hval : Returns (img.read m (wrap a) 1) (m (wrap a)).toNat := returns_read.mpr ⟨hin, loadLE_one _⟩
      rw [Image.strFrom, Image.strFrom, ← hread, hval.bind, hval.bind]
      split
      · rfl
      · rename_i hb
        rw [ih]
        rintro x ⟨k, rfl, hk⟩
        refine h _ ⟨k + 1, by rw [show a + 1 + k = a + (k + 1) by omega], fun j hj => ?_⟩
        cases j with
        | zero => exact fun h0 => hb ((toNat_eq_zero _).mpr h0)
        | succ j =>
          rw [show a + (j + 1) = a + 1 + j by omega]
          exact hk j (by omega)
    · have hnone : ∀ m : Mem, img.read m (wrap a) 1 = (none : Option (Except Int Nat)) := fun m => if_neg hin
      rw [Image.strFrom, Image.strFrom, hnone, hnone]
      rfl

theorem foundValue_congr {sym : Nat} {found : Option ElfSymbol} (h : fieldVal m sym 4 1 = fieldVal m' sym 4 1) :
    foundValue img m sym found = foundValue img m' sym found := by
  cases found with
  | none => exact field_bind_congr h rfl
  | some e => rfl

/-- The value of a symbol depends on what is read. -/
theorem symbolValue_congr {sym strtab : Nat} (hbias : st.ctx.loadBias = st'.ctx.loadBias)
    (hhash : st.ctx.symbolHash = st'.ctx.symbolHash) (h : ∀ x, SymReads st.mem sym strtab x → st.mem x = st'.mem x) :
    symbolValue img sym strtab st = symbolValue img sym strtab st' := by
  have hshndx : fieldVal st.mem sym 6 2 = fieldVal st'.mem sym 6 2 := fieldVal_congr fun x hx => h x (.inl hx)
  have hname : fieldVal st.mem sym 0 4 = fieldVal st'.mem sym 0 4 := fieldVal_congr fun x hx => h x (.inr (.inl hx))
  have hinfo : fieldVal st.mem sym 4 1 = fieldVal st'.mem sym 4 1 := fieldVal_congr fun x hx => h x (.inr (.inr (.inl hx)))
  have hvalue : fieldVal st.mem sym 8 8 = fieldVal st'.mem sym 8 8 :=
    fieldVal_congr fun x hx => h x (.inr (.inr (.inr (.inl hx))))
  refine field_bind_congr hshndx ?_
  by_cases hundef : fieldVal st.mem sym 6 2 = 0
  · rw [if_pos hundef, if_pos hundef]
    by_cases hstr : strtab = 0
    · rw [if_pos hstr, if_pos hstr]
    · rw [if_neg hstr, if_neg hstr]
      refine field_bind_congr hname ?_
      by_cases hnamed : fieldVal st.mem sym 0 4 = 0
      · rw [if_pos hnamed, if_pos hnamed]
      · rw [if_neg hnamed, if_neg hnamed,
          str_congr fun x hx => h x (.inr (.inr (.inr (.inr ⟨hundef, hstr, hnamed, hx⟩))))]
        refine congrArg (img.str st'.mem _ >>= ·) (funext fun name => ?_)
        rw [foundValue_congr hinfo]
        unfold findSymbol
        rw [hhash]
  · rw [if_neg hundef, if_neg hundef]
    refine field_bind_congr hvalue ?_
    rw [hbias]

/-! ## The same entry twice -/

/-- Entry `i` of one table in one state and of another in another state: the same bytes, the same symbol and string tables,
and the same context for them. -/
structure SameEntry (img : Image) (T : RelaTable) (st : Loader) (T' : RelaTable) (st' : Loader) (i : Nat) : Prop where
  bounds : ∀ off ∈ [0, 8, 16], (img.TableIn T.inImage (T.rel i) off 8 ↔ img.TableIn T'.inImage (T'.rel i) off 8)
  offset : fieldVal st.mem (T.rel i) 0 8 = fieldVal st'.mem (T'.rel i) 0 8
  info : fieldVal st.mem (T.rel i) 8 8 = fieldVal st'.mem (T'.rel i) 8 8
  addend : fieldVal st.mem (T.rel i) 16 8 = fieldVal st'.mem (T'.rel i) 16 8
  symtab : T.symtab = T'.symtab
  strtab : T.strtab = T'.strtab
  bias : st.ctx.loadBias = st'.ctx.loadBias
  table : st.ctx.symbolHash = st'.ctx.symbolHash
  symbol : T.HasSym st.mem i → ∀ x, SymReads st.mem (T.sym st.mem i) T.strtab x → st.mem x = st'.mem x

theorem SameEntry.rType_eq (h : SameEntry img T st T' st' i) : T.rType st.mem i = T'.rType st'.mem i := by
  unfold RelaTable.rType
  rw [h.info]

theorem SameEntry.ref_eq (h : SameEntry img T st T' st' i) :
    T.ref st.mem st.ctx.loadBias i = T'.ref st'.mem st'.ctx.loadBias i := by
  unfold RelaTable.ref
  rw [h.offset, h.bias]

theorem SameEntry.symval_eq (h : SameEntry img T st T' st' i) : T.symval img i st = T'.symval img i st' := by
  have hsym : T.sym st.mem i = T'.sym st'.mem i := by
    unfold RelaTable.sym RelaTable.rSym
    rw [h.info, h.symtab]
  have hhas : T.HasSym st.mem i ↔ T'.HasSym st'.mem i := by
    unfold RelaTable.HasSym RelaTable.rSym
    rw [h.info, h.symtab]
  unfold RelaTable.symval
  by_cases hs : T.HasSym st.mem i
  · rw [if_pos hs, if_pos (hhas.mp hs), symbolValue_congr h.bias h.table (h.symbol hs), hsym, h.strtab]
  · rw [if_neg hs, if_neg (fun hs' => hs (hhas.mpr hs'))]

theorem SameEntry.storeOf_eq (h : SameEntry img T st T' st' i) {ref symval : Nat} {store : Option Store} :
    storeOf img T.inImage (T.rel i) ref symval st store = storeOf img T'.inImage (T'.rel i) ref symval st' store := by
  match store with
  | none => rfl
  | some .nothing => rfl
  | some (.plain width value) => rfl
  | some (.withAddend width value) =>
    refine tableField_bind_congr (h.bounds 16 (by simp)) h.addend ?_
    rw [h.bias]

/-- The same entry makes the same patch. -/
theorem SameEntry.effect_eq (h : SameEntry img T st T' st' i) : T.effect img i st = T'.effect img i st' := by
  refine tableField_bind_congr (h.bounds 8 (by simp)) h.info (tableField_bind_congr (h.bounds 0 (by simp)) h.offset ?_)
  rw [h.symval_eq, h.rType_eq, h.ref_eq]
  refine congrArg (T'.symval img i st' >>= ·) (funext fun symval => h.storeOf_eq)

theorem SameEntry.writes_iff (h : SameEntry img T st T' st' i) (x : Nat) :
    T.Writes st.mem st.ctx.loadBias i x ↔ T'.Writes st'.mem st'.ctx.loadBias i x := by
  unfold RelaTable.Writes
  rw [h.ref_eq, h.rType_eq]

/-- What an entry does not read may change. -/
theorem sameEntry_withMem (h : ∀ x, T.Reads st.mem i x → st.mem x = m x) : SameEntry img T st T (st.withMem m) i where
  bounds := fun _ _ => Iff.rfl
  offset := fieldVal_congr fun x hx => h x (.inl hx)
  info := fieldVal_congr fun x hx => h x (.inr (.inl hx))
  addend := fieldVal_congr fun x hx => h x (.inr (.inr (.inl hx)))
  symtab := rfl
  strtab := rfl
  bias := rfl
  table := rfl
  symbol := fun hs x hx => h x (.inr (.inr (.inr ⟨hs, hx⟩)))

/-! ## A table as one patch -/

theorem storePatch_within {a n v : Nat} :
    (storePatch a n v).Within fun x => x < 2 ^ 64 ∧ wrap (x + (2 ^ 64 - wrap a)) < n :=
  fun _ hx => if_neg hx

theorem storeOf_within {inImage : Bool} {rel ref symval : Nat} {store : Option Store} {p : Patch Nat UInt8}
    (h : Returns (storeOf img inImage rel ref symval st store) p) :
    p.Within fun x => x < 2 ^ 64 ∧ wrap (x + (2 ^ 64 - wrap ref)) < storeWidth store := by
  match store, h with
  | none, h => exact absurd h not_returns_throw
  | some .nothing, h =>
    rw [← returns_pure.mp h]
    exact fun _ _ => rfl
  | some (.plain width value), h =>
    rw [← returns_pure.mp h]
    exact storePatch_within
  | some (.withAddend width value), h =>
    obtain ⟨_, _, h⟩ := returns_bind.mp h
    rw [← returns_pure.mp h]
    exact storePatch_within

/-- The patch of an entry stays within what it relocates. -/
theorem effect_within {p : Patch Nat UInt8} (h : Returns (T.effect img i st) p) :
    p.Within (T.Writes st.mem st.ctx.loadBias i) := by
  obtain ⟨_, _, h⟩ := returns_bind.mp h
  obtain ⟨_, _, h⟩ := returns_bind.mp h
  obtain ⟨_, _, h⟩ := returns_bind.mp h
  exact storeOf_within h

/-- Two tables with the same entries. -/
def SameTable (img : Image) (T : RelaTable) (st : Loader) (T' : RelaTable) (st' : Loader) : Prop :=
  T.count = T'.count ∧ ∀ i < T.count, SameEntry img T st T' st' i

/-- The patch of the table, and where it ends. -/
def RelaTable.patchOf (T : RelaTable) (img : Image) (st : Loader) : Ending Int (Patch Nat UInt8) :=
  patchLoop (fun i => T.effect img i st) T.count

theorem effect_relocated : ∀ i < T.count, ∀ q, Returns (T.effect img i st) q → q.Within (T.Relocated st) :=
  fun i hi _ hq x hx => effect_within hq x fun hw => hx ⟨i, hi, hw⟩

theorem patchOf_within {r : Option Int × Patch Nat UInt8} (h : T.patchOf img st = some r) : r.2.Within (T.Relocated st) :=
  patchLoop_within effect_relocated h

/-- Wherever memory is as before outside of what the table relocates, an iteration makes the same patch. -/
theorem RelaTable.Outside.step_eq (h : T.Outside st) : ∀ i < T.count, ∀ m, (∀ x, ¬ T.Relocated st x → m x = st.mem x) →
    ends (T.step img i (st.withMem m)) (st.withMem m) =
      onValue (T.effect img i st) (st.withMem m) fun q => some (none, st.withMem (patch q m)) := by
  intro i hi m hm
  have heffect : T.effect img i (st.withMem m) = T.effect img i st :=
    (sameEntry_withMem fun x hx => (hm x fun hw => h i hi x hw hx).symm).effect_eq.symm
  rw [T.step_eq_effect, ends_bind_pure, heffect]
  rfl

/-- A table that lies outside of what it relocates is one patch. -/
theorem RelaTable.Outside.run_eq (h : T.Outside st) (hm : ∀ x, ¬ T.Relocated st x → m x = st.mem x) :
    T.run img (st.withMem m) = leave st.withMem m (T.patchOf img st) :=
  forEnding_eq_patchLoop effect_relocated h.step_eq hm

/-- Applying the table again gives the same code and changes nothing. -/
theorem RelaTable.Outside.run_twice (h : T.Outside st) {r : Option Int} {s : Loader} (hrun : T.run img st = some (r, s)) :
    T.run img s = some (r, s) := by
  have hstart : forEnding (fun i t => ends (T.step img i t) t) T.count (st.withMem st.mem) = some (r, s) := hrun
  exact forEnding_twice effect_relocated h.step_eq (fun _ _ => rfl) hstart

/-! ## The routes to a table -/

/-- The bytes of a section header that are read. -/
def HeaderReads (shdr x : Nat) : Prop := InField shdr 4 4 x ∨ InField shdr 24 8 x ∨ InField shdr 32 8 x ∨ InField shdr 40 4 x

/-- What is read to find the tables: the number of sections and their headers, and the dynamic section up to its end. -/
def RouteReads (img : Image) (st : Loader) (x : Nat) : Prop :=
  InField img.data 60 2 x ∨ (∃ k < eShnum img st.mem, HeaderReads (shdrAt st k) x) ∨
    st.ctx.dynamic ≠ 0 ∧ ∃ k, (∀ j < k, fieldVal st.mem (dynAt st.ctx.dynamic j) 0 8 ≠ 0) ∧
      (InField (dynAt st.ctx.dynamic k) 0 8 x ∨ InField (dynAt st.ctx.dynamic k) 8 8 x)

theorem sectionData_congr {α : Type} {k : Nat} {f g : Nat → M α} (h : ∀ x, HeaderReads (shdrAt st k) x → st.mem x = m x)
    (hf : f (dataOf img st k) = g (dataOf img st k)) :
    sectionData img k st >>= f = sectionData img k (st.withMem m) >>= g := by
  unfold sectionData
  rw [bind_assoc, bind_assoc]
  exact field_bind_congr (fieldVal_congr fun x hx => h x (.inr (.inl hx))) hf

/-- The table of a section is found again. -/
theorem stepTable_congr (h : ∀ x, RouteReads img st x → st.mem x = m x) (k : Nat) :
    stepTable img k st = stepTable img k (st.withMem m) := by
  have hnum : fieldVal st.mem img.data 60 2 = fieldVal m img.data 60 2 := fieldVal_congr fun x hx => h x (.inl hx)
  have hheader : ∀ k < eShnum img st.mem, ∀ x, HeaderReads (shdrAt st k) x → st.mem x = m x :=
    fun k hk x hx => h x (.inr (.inl ⟨k, hk, hx⟩))
  refine field_bind_congr hnum ?_
  by_cases hk : k < fieldVal st.mem img.data 60 2
  · rw [if_pos hk, if_pos hk]
    have hshdr := hheader k hk
    refine field_bind_congr (fieldVal_congr fun x hx => hshdr x (.inl hx)) ?_
    split
    · refine sectionData_congr hshdr (field_bind_congr (fieldVal_congr fun x hx => hshdr x (.inr (.inr (.inl hx)))) ?_)
      refine field_bind_congr (fieldVal_congr fun x hx => hshdr x (.inr (.inr (.inr hx)))) (field_bind_congr hnum ?_)
      split
      · rename_i hlink
        have hlinked := hheader _ hlink
        refine sectionData_congr hlinked
          (field_bind_congr (fieldVal_congr fun x hx => hlinked x (.inr (.inr (.inr hx)))) ?_)
        split
        · rename_i hstr
          exact sectionData_congr (hheader _ hstr) rfl
        · rfl
      · rfl
    · rfl
  · rw [if_neg hk, if_neg hk]

theorem dynamicEntry_congr {bias dyn tag : Nat} {d : DynInfo} (h : fieldVal m dyn 8 8 = fieldVal m' dyn 8 8) :
    dynamicEntry img m bias dyn tag d = dynamicEntry img m' bias dyn tag d := by
  have hbind : ∀ g : Nat → M DynInfo, img.field m dyn 8 8 >>= g = img.field m' dyn 8 8 >>= g :=
    fun g => field_bind_congr h rfl
  unfold dynamicEntry
  simp only [hbind]

theorem dynamicFrom_congr {bias fuel dyn : Nat} {d : DynInfo}
    (h : ∀ k x, (∀ j < k, fieldVal m (dynAt dyn j) 0 8 ≠ 0) → InField (dynAt dyn k) 0 8 x ∨ InField (dynAt dyn k) 8 8 x →
      m x = m' x) : dynamicFrom img m bias fuel dyn d = dynamicFrom img m' bias fuel dyn d := by
  induction fuel generalizing dyn d with
  | zero => rfl
  | succ fuel ih =>
    have hin : ∀ off n x, InField dyn off n x → InField (dynAt dyn 0) off n x := by
      intro off n x hx
      unfold InField
      rw [dynAt_zero]
      exact hx
    have h0 := fun x => h 0 x fun j hj => absurd hj (by omega)
    have htag : fieldVal m dyn 0 8 = fieldVal m' dyn 0 8 := fieldVal_congr fun x hx => h0 x (.inl (hin 0 8 x hx))
    have hval : fieldVal m dyn 8 8 = fieldVal m' dyn 8 8 := fieldVal_congr fun x hx => h0 x (.inr (hin 8 8 x hx))
    refine field_bind_congr htag ?_
    by_cases hend : fieldVal m dyn 0 8 = 0
    · rw [if_pos hend, if_pos hend]
    · rw [if_neg hend, if_neg hend, dynamicEntry_congr hval]
      refine congrArg (dynamicEntry img m' bias dyn _ d >>= ·) (funext fun d => ih fun k x hk hx => ?_)
      refine h (k + 1) x (fun j hj => ?_) (by rwa [dynAt_succ] at hx)
      cases j with
      | zero => rwa [fieldVal_dynAt_zero]
      | succ j =>
        have := hk j (by omega)
        rwa [dynAt_succ] at this

/-- The dynamic section is found again. -/
theorem dynamicInfo_congr (hdyn : st.ctx.dynamic ≠ 0) (h : ∀ x, RouteReads img st x → st.mem x = m x) :
    dynamicInfo img st = dynamicInfo img (st.withMem m) :=
  dynamicFrom_congr fun k x hk hx => h x (.inr (.inr ⟨hdyn, k, hk, hx⟩))

/-- The tables that are found in a state. -/
inductive Route (img : Image) (st : Loader) : RelaTable → Prop
  | ofSection {k : Nat} {T : RelaTable} : k < 2 ^ 16 → Returns (stepTable img k st) (some T) → Route img st T
  | ofRela {d : DynInfo} {T : RelaTable} : st.ctx.dynamic ≠ 0 → Returns (dynamicInfo img st) d →
      dynamicTable d.rela d.relaSize st = some T → Route img st T
  | ofJmprel {d : DynInfo} {T : RelaTable} : st.ctx.dynamic ≠ 0 → Returns (dynamicInfo img st) d →
      dynamicTable d.jmprel d.jmprelSize st = some T → Route img st T

/-- The image has one table, found by some routes: all of them see its entries, and none of the tables, symbols, names and
headers that are read lies in the memory that it relocates. -/
structure OneTable (img : Image) (st : Loader) (T : RelaTable) : Prop where
  sections : ∀ k < 2 ^ 16, ∃ table, Returns (stepTable img k st) table
  dynamic : st.ctx.dynamic ≠ 0 → ∃ d, Returns (dynamicInfo img st) d
  found : ∃ T', Route img st T'
  same : ∀ T', Route img st T' → SameTable img T' st T st
  outside : ∀ T', Route img st T' → T'.Outside st
  routes : ∀ x, T.Relocated st x → ¬ RouteReads img st x

theorem SameTable.relocated_iff (h : SameTable img T st T' st') (x : Nat) : T.Relocated st x ↔ T'.Relocated st' x := by
  unfold RelaTable.Relocated
  rw [← h.1]
  exact exists_congr fun i => and_congr_right fun hi => (h.2 i hi).writes_iff x

theorem SameTable.patchOf_eq (h : SameTable img T st T' st') : T.patchOf img st = T'.patchOf img st' := by
  unfold RelaTable.patchOf
  rw [← h.1]
  exact patchLoop_congr fun i hi => (h.2 i hi).effect_eq

/-- On every route the table makes the same patch. -/
theorem OneTable.run_eq (h : OneTable img st T) (hT : Route img st T') (hm : ∀ x, ¬ T.Relocated st x → m x = st.mem x) :
    T'.run img (st.withMem m) = leave st.withMem m (T.patchOf img st) := by
  have hsame := h.same T' hT
  rw [(h.outside T' hT).run_eq fun x hx => hm x fun hw => hx ((hsame.relocated_iff x).mpr hw), hsame.patchOf_eq]

open Classical in
/-- Before the first route nothing has changed, then the patch has been made. -/
noncomputable def stage (img : Image) (st : Loader) (T : RelaTable) (applied : Prop) : Ending Int Loader :=
  if applied then leave st.withMem st.mem (T.patchOf img st) else some (none, st)

theorem stage_of {applied : Prop} (h : applied) : stage img st T applied = leave st.withMem st.mem (T.patchOf img st) :=
  if_pos h

/-- What follows sees a memory that is as before outside of what the table relocates. -/
theorem andThen_stage_congr {applied : Prop} {f g : Loader → Ending Int Loader}
    (h : ∀ m, (∀ x, ¬ T.Relocated st x → m x = st.mem x) → f (st.withMem m) = g (st.withMem m)) :
    andThen (stage img st T applied) f = andThen (stage img st T applied) g := by
  unfold stage
  split
  · rcases hout : T.patchOf img st with _ | ⟨_ | e, p⟩
    · rfl
    · exact h _ fun x hx => patch_of_not (patchOf_within hout) hx
    · rfl
  · exact h st.mem fun _ _ => rfl

/-- One more table, if there is one. -/
theorem OneTable.andThen_stage (h : OneTable img st T) {applied : Prop} (table : Option RelaTable)
    (hroute : ∀ T', table = some T' → Route img st T') {f : Loader → Ending Int Loader}
    (hf : ∀ m, (∀ x, ¬ T.Relocated st x → m x = st.mem x) → f (st.withMem m) = tableRun img (st.withMem m) table) :
    andThen (stage img st T applied) f = stage img st T (applied ∨ ∃ T', table = some T') := by
  rw [andThen_stage_congr (g := fun u => tableRun img u table) hf]
  cases table with
  | none =>
    have hnone : (applied ∨ ∃ T', (none : Option RelaTable) = some T') ↔ applied := by simp
    rw [propext hnone]
    rcases stage img st T applied with _ | ⟨_ | e, s⟩ <;> rfl
  | some T' =>
    have hrun := fun m => h.run_eq (hroute T' rfl) (m := m)
    refine Eq.trans ?_ (stage_of (.inr ⟨T', rfl⟩)).symm
    by_cases happlied : applied
    · rw [stage_of happlied]
      refine andThen_leave fun p hp => ?_
      exact (hrun _ fun x hx => patch_of_not (patchOf_within hp) hx).trans (leave_patch hp)
    · rw [stage, if_neg happlied]
      exact hrun st.mem fun _ _ => rfl

/-- The tables of the sections. -/
theorem OneTable.sections_eq (h : OneTable img st T) {n : Nat} (hn : n ≤ 2 ^ 16) :
    forEnding (fun k st => onValue (stepTable img k st) st (tableRun img st)) n st =
      stage img st T (∃ k < n, ∃ T', Returns (stepTable img k st) (some T')) := by
  induction n with
  | zero =>
    have hnone : ¬ ∃ k < 0, ∃ T', Returns (stepTable img k st) (some T') := by simp
    exact (if_neg hnone).symm
  | succ n ih =>
    obtain ⟨table, htable⟩ := h.sections n (by omega)
    rw [forEnding, ih (by omega), h.andThen_stage table]
    · congr 1
      rw [eq_iff_iff]
      constructor
      · rintro (⟨k, hk, hT⟩ | ⟨T', rfl⟩)
        · exact ⟨k, by omega, hT⟩
        · exact ⟨n, by omega, T', htable⟩
      · rintro ⟨k, hk, T', hT⟩
        rcases Nat.lt_succ_iff_lt_or_eq.mp hk with hlt | rfl
        · exact .inl ⟨k, hlt, T', hT⟩
        · exact .inr ⟨T', htable.inj hT⟩
    · rintro T' rfl
      exact .ofSection (by omega) htable
    · intro m hm
      have hread : stepTable img n (st.withMem m) = stepTable img n st :=
        (stepTable_congr (fun x hx => (hm x fun hw => h.routes x hw hx).symm) n).symm
      rw [hread, htable]
      rfl

/-- An image with one table: whichever way it is found, it is applied as once. -/
theorem OneTable.run_eq_leave (h : OneTable img st T) :
    elfApplyRelocationsRun img st = leave st.withMem st.mem (T.patchOf img st) := by
  unfold elfApplyRelocationsRun
  rw [h.sections_eq (le_refl _)]
  by_cases hdyn : st.ctx.dynamic = 0
  · rw [h.andThen_stage none]
    · apply stage_of
      obtain ⟨T', hT⟩ := h.found
      cases hT with
      | ofSection hk hT => exact .inl ⟨_, hk, T', hT⟩
      | ofRela hne _ _ => exact absurd hdyn hne
      | ofJmprel hne _ _ => exact absurd hdyn hne
    · rintro T' hT
      cases hT
    · intro m _
      exact if_pos hdyn
  · obtain ⟨d, hd⟩ := h.dynamic hdyn
    have hinfo : ∀ m, (∀ x, ¬ T.Relocated st x → m x = st.mem x) → Returns (dynamicInfo img (st.withMem m)) d :=
      fun m hm => (dynamicInfo_congr hdyn fun x hx => (hm x fun hw => h.routes x hw hx).symm) ▸ hd
    rw [andThen_stage_congr (g := fun u => andThen (tableRun img u (dynamicTable d.rela d.relaSize st))
        fun v => tableRun img v (dynamicTable d.jmprel d.jmprelSize v))]
    · rw [← andThen_assoc, h.andThen_stage (dynamicTable d.rela d.relaSize st),
        h.andThen_stage (dynamicTable d.jmprel d.jmprelSize st)]
      · apply stage_of
        obtain ⟨T', hT⟩ := h.found
        cases hT with
        | ofSection hk hT => exact .inl (.inl ⟨_, hk, T', hT⟩)
        | ofRela _ hd' hT => exact .inl (.inr ⟨T', hd.inj hd' ▸ hT⟩)
        | ofJmprel _ hd' hT => exact .inr ⟨T', hd.inj hd' ▸ hT⟩
      · intro T' hT
        exact .ofJmprel hdyn hd hT
      · intro m _
        rfl
      · intro T' hT
        exact .ofRela hdyn hd hT
      · intro m _
        rfl
    · intro m hm
      refine (if_neg hdyn).trans ?_
      have hd' := hinfo m hm
      rw [hd']
      rfl

/-- **Relocation is idempotent**: a table applied to memory that it does not read gives the same code a second time and changes
nothing; so an image with one table gets the same code and the same patch of memory, by whichever routes the table is found. -/
theorem relocation_idempotent (img : Image) :
    (∀ (T : RelaTable) (st : Loader) (r : Option Int) (s : Loader), T.Outside st → T.run img st = some (r, s) →
      T.run img s = some (r, s)) ∧
    ∀ (T T' : RelaTable) (st st' : Loader), OneTable img st T → OneTable img st' T' → SameTable img T st T' st' →
      ∃ out, elfApplyRelocationsRun img st = leave st.withMem st.mem out ∧
        elfApplyRelocationsRun img st' = leave st'.withMem st'.mem out := by
  refine ⟨fun T st r s hout hrun => hout.run_twice hrun, fun T T' st st' h h' hsame => ?_⟩
  refine ⟨T.patchOf img st, h.run_eq_leave, ?_⟩
  rw [hsame.patchOf_eq]
  exact h'.run_eq_leave

/-! ## Two routes, and a relocated symbol -/

/-- An image with one section header and one relocation, which the dynamic section names too. -/
def onceImage : Image := ⟨4096, 200, by norm_num⟩

def onceMem : Mem
  -- the number of sections, and the section header: its type, its offset and its size
  | 4156 => 1
  | 4164 => 4
  | 4184 => 128
  | 4192 => 24
  -- the relocation: place, type and addend
  | 4225 => 0x20
  | 4232 => 10
  | 4240 => 5
  -- the dynamic section: the table and its size
  | 4248 => 7
  | 4256 => 0x80
  | 4257 => 0x10
  | 4264 => 8
  | 4272 => 24
  | _ => 0

def onceLoader (dynamic : Nat) : Loader :=
  ⟨onceMem, [], [], { emptyContext with shdrs := 4160, dynsym := 4224, dynstr := 4224, dynamic := dynamic }, emptyInfo⟩

def onceTable (inImage : Bool) : RelaTable := ⟨inImage, 4224, 1, 4224, 4224⟩

theorem stepTable_once {k dynamic : Nat} :
    Returns (stepTable onceImage k (onceLoader dynamic)) (if k = 0 then some (onceTable true) else none) := by
  cases k with
  | zero =>
    have hclosed : Returns (stepTable onceImage 0 (onceLoader 0)) (some (onceTable true)) :=
      returns_of_value? (by decide)
    exact hclosed
  | succ k =>
    have hin : onceImage.Has (wrap (onceImage.data + 60)) 2 := by decide
    have hnum : ¬ k + 1 < fieldVal onceMem onceImage.data 60 2 := by
      have h1 : fieldVal onceMem onceImage.data 60 2 = 1 := by decide
      omega
    exact returns_field_bind.mpr ⟨hin, (if_neg hnum).symm ▸ rfl⟩

deriving instance DecidableEq for DynInfo

theorem dynamicInfo_once : Returns (dynamicInfo onceImage (onceLoader 4248)) ⟨4224, 24, 0, 0⟩ :=
  returns_of_value? (by decide)

/-- Both routes lead to the table. -/
theorem route_once {dynamic : Nat} (hdyn : dynamic = 0 ∨ dynamic = 4248) (h : Route onceImage (onceLoader dynamic) T) :
    ∃ inImage, T = onceTable inImage := by
  cases h with
  | @ofSection k T _ hT =>
    have htable := stepTable_once.inj hT
    split at htable
    · exact ⟨true, (Option.some.inj htable).symm⟩
    · cases htable
  | ofRela hne hd hT =>
    obtain rfl := hdyn.resolve_left hne
    obtain rfl := dynamicInfo_once.inj hd
    exact ⟨false, (Option.some.inj hT).symm⟩
  | ofJmprel hne hd hT =>
    obtain rfl := hdyn.resolve_left hne
    obtain rfl := dynamicInfo_once.inj hd
    cases hT

theorem relocated_once {inImage : Bool} {dynamic x : Nat} (h : (onceTable inImage).Relocated (onceLoader dynamic) x) :
    0x2000 ≤ x ∧ x < 0x2004 := by
  obtain ⟨j, hj, hlt, hw⟩ := h
  obtain rfl : j = 0 := Nat.lt_one_iff.mp hj
  have href : (onceTable inImage).ref onceMem 0 0 = 0x2000 := by
    show wrap (fieldVal onceMem (wrap (4224 + 24 * 0)) 0 8 + 0) = 0x2000
    decide
  have htype : storeWidth (relocation ((onceTable inImage).rType onceMem 0)) = 4 := by
    show storeWidth (relocation (fieldVal onceMem (wrap (4224 + 24 * 0)) 8 8 % 2 ^ 32)) = 4
    decide
  change wrap (x + (2 ^ 64 - wrap ((onceTable inImage).ref onceMem 0 0))) <
    storeWidth (relocation ((onceTable inImage).rType onceMem 0)) at hw
  rw [href, htype] at hw
  unfold wrap at hw
  omega

theorem not_hasSym_once {inImage : Bool} : ¬ (onceTable inImage).HasSym onceMem 0 := by
  have hzero : fieldVal onceMem (wrap (4224 + 24 * 0)) 8 8 / 2 ^ 32 = 0 := by decide
  exact fun hsym => hsym.1 hzero

theorem outside_once {inImage : Bool} {dynamic : Nat} : (onceTable inImage).Outside (onceLoader dynamic) := by
  intro i hi x hx hread
  obtain rfl : i = 0 := Nat.lt_one_iff.mp hi
  have hin := relocated_once hx
  have hrel : (onceTable inImage).rel 0 = 4224 := rfl
  unfold RelaTable.Reads InField wrap at hread
  rw [hrel] at hread
  rcases hread with h | h | h | ⟨hsym, _⟩
  · omega
  · omega
  · omega
  · exact not_hasSym_once hsym

theorem sameTable_once {inImage inImage' : Bool} {dynamic dynamic' : Nat} :
    SameTable onceImage (onceTable inImage) (onceLoader dynamic) (onceTable inImage') (onceLoader dynamic') := by
  refine ⟨rfl, fun i hi => ?_⟩
  obtain rfl : i = 0 := Nat.lt_one_iff.mp hi
  have hin : ∀ b, ∀ off ∈ [0, 8, 16], onceImage.TableIn b ((onceTable b).rel 0) off 8 := by
    have hhas : ∀ off ∈ [0, 8, 16], onceImage.Has (wrap (4224 + off)) 8 := by decide
    exact fun b off hoff _ => hhas off hoff
  exact ⟨fun off hoff => iff_of_true (hin _ off hoff) (hin _ off hoff), rfl, rfl, rfl, rfl, rfl, rfl, rfl,
    fun hsym => absurd hsym not_hasSym_once⟩

theorem oneTable_once {dynamic : Nat} (hdyn : dynamic = 0 ∨ dynamic = 4248) :
    OneTable onceImage (onceLoader dynamic) (onceTable true) where
  sections := fun _ _ => ⟨_, stepTable_once⟩
  dynamic := by
    intro hne
    obtain rfl := hdyn.resolve_left hne
    exact ⟨_, dynamicInfo_once⟩
  found := ⟨onceTable true, .ofSection (by norm_num) (stepTable_once (k := 0))⟩
  same := by
    intro T' hT
    obtain ⟨_, rfl⟩ := route_once hdyn hT
    exact sameTable_once
  outside := by
    intro T' hT
    obtain ⟨_, rfl⟩ := route_once hdyn hT
    exact outside_once
  routes := by
    intro x hx hread
    have hin := relocated_once hx
    have hshnum : eShnum onceImage (onceLoader dynamic).mem = 1 := by
      have hclosed : fieldVal onceMem onceImage.data 60 2 = 1 := by decide
      exact hclosed
    rcases hread with h | ⟨k, hk, h⟩ | ⟨hne, k, hk, h⟩
    · have hstart : wrap (onceImage.data + 60) = 4156 := rfl
      unfold InField at h
      omega
    · rw [hshnum] at hk
      obtain rfl : k = 0 := by omega
      have hshdr : shdrAt (onceLoader dynamic) 0 = 4160 := rfl
      unfold HeaderReads InField wrap at h
      rw [hshdr] at h
      omega
    · obtain rfl := hdyn.resolve_left hne
      -- the third tag ends the dynamic section
      have hend : fieldVal onceMem (dynAt 4248 2) 0 8 = 0 := by decide
      have hk2 : k ≤ 2 := not_lt.mp fun h2 => hk 2 h2 hend
      unfold InField dynAt wrap at h
      rw [show (onceLoader 4248).ctx.dynamic = 4248 from rfl] at h
      omega

theorem relocation_idempotent_once :
    (∃ r s, (onceTable true).run onceImage (onceLoader 0) = some (r, s) ∧
      (onceTable true).run onceImage s = some (r, s)) ∧
    ∃ out, elfApplyRelocationsRun onceImage (onceLoader 0) = leave (onceLoader 0).withMem onceMem out ∧
      elfApplyRelocationsRun onceImage (onceLoader 4248) = leave (onceLoader 4248).withMem onceMem out := by
  constructor
  · refine ⟨none, _, rfl, ?_⟩
    exact (relocation_idempotent onceImage).1 (onceTable true) (onceLoader 0) none _ outside_once rfl
  · exact (relocation_idempotent onceImage).2 _ _ _ _ (oneTable_once (.inl rfl)) (oneTable_once (.inr rfl)) sameTable_once

/-- A table with one entry, which relocates the value of its own symbol. -/
def risingTable : RelaTable := ⟨true, 4096, 1, 4120, 0⟩

def risingImage : Image := ⟨4096, 72, by norm_num⟩

def risingMem : Mem
  -- the place, the type, the symbol and the addend
  | 4096 => 0x38
  | 4097 => 0x10
  | 4104 => 1
  | 4108 => 1
  | 4112 => 1
  -- the section of the symbol
  | 4150 => 1
  | _ => 0

def risingLoader : Loader := ⟨risingMem, [], [], emptyContext, emptyInfo⟩

/-- The table lies outside of the memory that it relocates, but each time the value rises. -/
theorem relocation_rises : ¬ ∀ (img : Image) (T : RelaTable) (st : Loader) (r : Option Int) (s : Loader),
    (∀ i < T.count, ∀ x, T.Relocated st x →
      ¬ (InField (T.rel i) 0 8 x ∨ InField (T.rel i) 8 8 x ∨ InField (T.rel i) 16 8 x)) →
    T.run img st = some (r, s) → T.run img s = some (r, s) := by
  intro h
  have hout : ∀ i < risingTable.count, ∀ x, risingTable.Relocated risingLoader x →
      ¬ (InField (risingTable.rel i) 0 8 x ∨ InField (risingTable.rel i) 8 8 x ∨ InField (risingTable.rel i) 16 8 x) := by
    rintro i hi x ⟨j, hj, hlt, hw⟩
    obtain rfl : i = 0 := Nat.lt_one_iff.mp hi
    obtain rfl : j = 0 := Nat.lt_one_iff.mp hj
    have href : risingTable.ref risingLoader.mem risingLoader.ctx.loadBias 0 = 0x1038 := by decide
    have hwidth : storeWidth (relocation (risingTable.rType risingLoader.mem 0)) = 8 := by decide
    have hrel : risingTable.rel 0 = 4096 := rfl
    rw [href, hwidth] at hw
    unfold InField wrap at *
    rw [hrel]
    omega
  have htwice := h risingImage risingTable risingLoader none _ hout rfl
  exact absurd (congrArg (fun out => out.map fun r => r.2.mem 0x1038) htwice) (by decide)

end AmqOs.Elf
