import AmqOs.Elf.ElfBounds
import AmqOs.Lib.Buckets

/-!
# Which symbol the ELF loader finds

`elf_resolve_symbols` enters the symbols of two tables into one hash table with 256 chains. What it enters is a list
(`entriesOf`): every symbol of `.symtab` that has a name, and those of `.dynsym` whose name is new, as far as there is memory
for them; after it the chains hold this list (`holding_elfResolveSymbols`), so `elf_find_symbol` finds the latest entry with
the name (`findSymbol_of_holding`). With enough memory that is the last symbol of `.symtab` with the name, or else the first
one of `.dynsym` (`elfResolveSymbols_find`).
-/

set_option autoImplicit false

namespace AmqOs.Elf

open AmqOs.Lib AmqOs.Lib.Guarded

variable {img : Image} {m : Mem} {st t : Loader}

/-! ## Symbol tables -/

/-- The symbol has a name, and is not one for a section. -/
def Named (m : Mem) (sym : Nat) : Prop := fieldVal m sym 0 4 ≠ 0 ∧ fieldVal m sym 4 1 % 16 ≠ sttSection

instance (m : Mem) (sym : Nat) : Decidable (Named m sym) := inferInstanceAs (Decidable (_ ∧ _))

/-- A symbol table with its strings. -/
structure SymTable where
  table : Nat
  strtab : Nat
  count : Nat

def ElfContext.symtabTable (ctx : ElfContext) : SymTable := ⟨ctx.symtab, ctx.strtab, ctx.symtabCount⟩

def ElfContext.dynsymTable (ctx : ElfContext) : SymTable := ⟨ctx.dynsym, ctx.dynstr, ctx.dynsymCount⟩

namespace SymTable

/-- The image has the table and its strings. -/
def Present (T : SymTable) : Prop := T.table ≠ 0 ∧ T.strtab ≠ 0

instance (T : SymTable) : Decidable T.Present := inferInstanceAs (Decidable (_ ∧ _))

/-- The address of the name of symbol `i`. -/
def nameAddr (T : SymTable) (m : Mem) (i : Nat) : Nat := wrap (T.strtab + fieldVal m (symAt T.table i) 0 4)

/-- Symbol `i`, which is not one for a section, has the name. -/
def Called (T : SymTable) (img : Image) (m : Mem) (name : List UInt8) (i : Nat) : Prop :=
  T.Present ∧ i < T.count ∧ Named m (symAt T.table i) ∧ Returns (img.str m (T.nameAddr m i)) name

/-- The value of symbol `i` in the loaded image. -/
def value (T : SymTable) (m : Mem) (bias i : Nat) : Nat := wrap (fieldVal m (symAt T.table i) 8 8 + bias)

/-- The symbols lie in the image, and so do their names. -/
def InBounds (T : SymTable) (img : Image) (m : Mem) : Prop :=
  T.Present → ∀ i < T.count, img.Has (symAt T.table i) 24 ∧ (Named m (symAt T.table i) → img.HasStr m (T.nameAddr m i))

end SymTable

/-! ## Entries -/

/-- What is entered for symbol `i` of a table. -/
def SymTable.symbol (T : SymTable) (img : Image) (m : Mem) (bias i : Nat) : ElfSymbol :=
  let sym := symAt T.table i
  ⟨img.nameAt m (T.nameAddr m i), T.value m bias i, fieldVal m sym 16 8, fieldVal m sym 4 1 % 16, fieldVal m sym 4 1 / 16,
    fieldVal m sym 6 2⟩

/-- The entry for symbol `i` of a table, if it has a name. -/
def SymTable.entry (T : SymTable) (img : Image) (m : Mem) (bias i : Nat) : Option ElfSymbol :=
  if Named m (symAt T.table i) then some (T.symbol img m bias i) else none

/-- The entries for the symbols of a table, in its order. -/
def SymTable.entries (T : SymTable) (img : Image) (m : Mem) (bias : Nat) : List ElfSymbol :=
  if T.Present then (List.range T.count).filterMap (T.entry img m bias) else []

/-- The entries so far, the latest first, and what `kmalloc` will return. -/
structure Entries where
  blocks : List Bool
  items : List ElfSymbol

/-- An entry takes two blocks; without the second, the first is given back. -/
def Entries.enter (s : Entries) (e : ElfSymbol) : Entries :=
  if s.blocks.headD false then
    ⟨s.blocks.tail.tail, if s.blocks.tail.headD false then e :: s.items else s.items⟩
  else ⟨s.blocks.tail, s.items⟩

/-- An entry for a name that has none. -/
def Entries.enterNew (s : Entries) (e : ElfSymbol) : Entries :=
  if (s.items.find? fun x => x.name = e.name).isSome then s else s.enter e

/-- The entries of `.symtab`. -/
def symtabEntries (img : Image) (st : Loader) : Entries :=
  (st.ctx.symtabTable.entries img st.mem st.ctx.loadBias).foldl Entries.enter ⟨st.blocks, []⟩

/-- What `elf_resolve_symbols` enters. -/
def entriesOf (img : Image) (st : Loader) : Entries :=
  (st.ctx.dynsymTable.entries img st.mem st.ctx.loadBias).foldl Entries.enterNew (symtabEntries img st)

/-! ## What is read of a symbol -/

/-- What is read of a symbol for its entry, when there is memory for the name. -/
def EnterOk (img : Image) (sym : Nat) (blocks : List Bool) : Prop :=
  blocks.headD false = true → img.FieldIn sym 8 8 ∧ img.FieldIn sym 16 8 ∧ img.FieldIn sym 6 2

namespace SymTable

/-- What is read of and through symbol `i` of `.symtab`: the name, when there is memory for the entry. -/
def SymtabOk (T : SymTable) (img : Image) (m : Mem) (s : Entries) (i : Nat) : Prop :=
  let sym := symAt T.table i
  img.FieldIn sym 0 4 ∧
    (fieldVal m sym 0 4 ≠ 0 → img.FieldIn sym 4 1) ∧
    (Named m sym → s.blocks.headD false = true → img.HasStr m (T.nameAddr m i) ∧ EnterOk img sym s.blocks.tail)

/-- What is read of and through symbol `i` of `.dynsym`: its fields, when it is new and there is memory. -/
def DynsymOk (T : SymTable) (img : Image) (m : Mem) (s : Entries) (i : Nat) : Prop :=
  let sym := symAt T.table i
  img.FieldIn sym 0 4 ∧
    (fieldVal m sym 0 4 ≠ 0 → img.FieldIn sym 4 1) ∧
    (Named m sym → img.HasStr m (T.nameAddr m i) ∧
      ((s.items.find? fun e => e.name = img.nameAt m (T.nameAddr m i)) = none → s.blocks.headD false = true →
        EnterOk img sym s.blocks.tail))

/-- The entries after the first `i` symbols of a table. -/
def entriesUpTo (T : SymTable) (img : Image) (m : Mem) (bias : Nat) (enter : Entries → ElfSymbol → Entries) (s : Entries)
    (i : Nat) : Entries := ((List.range i).filterMap (T.entry img m bias)).foldl enter s

end SymTable

/-- What `elf_resolve_symbols` reads of the image. -/
structure SymbolsOk (img : Image) (st : Loader) : Prop where
  symtab : st.ctx.symtabTable.Present → ∀ i < st.ctx.symtabTable.count, st.ctx.symtabTable.SymtabOk img st.mem
    (st.ctx.symtabTable.entriesUpTo img st.mem st.ctx.loadBias Entries.enter ⟨st.blocks, []⟩ i) i
  dynsym : st.ctx.dynsymTable.Present → ∀ i < st.ctx.dynsymTable.count, st.ctx.dynsymTable.DynsymOk img st.mem
    (st.ctx.dynsymTable.entriesUpTo img st.mem st.ctx.loadBias Entries.enterNew (symtabEntries img st) i) i

theorem safe_enterSymbol {sym info : Nat} {name : List UInt8} :
    Safe (enterSymbol img sym name info st) ↔ EnterOk img sym st.blocks := by
  unfold enterSymbol EnterOk kmalloc
  simp only [safe_ite, safe_field_bind, safe_pure]
  tauto

theorem safe_symtabStep {i : Nat} {s : Entries} (hs : s.blocks = st.blocks) :
    Safe (symtabStep img i st) ↔ st.ctx.symtabTable.SymtabOk img st.mem s i := by
  have hmem : (kmalloc st).2.mem = st.mem := rfl
  have hctx : (kmalloc st).2.ctx = st.ctx := rfl
  have hgot : (kmalloc st).1 = st.blocks.headD false := rfl
  have hblocks : (kmalloc st).2.blocks = st.blocks.tail := rfl
  unfold symtabStep SymTable.SymtabOk Named
  simp only [safe_field_bind, safe_ite, safe_nameAt_bind, safe_enterSymbol, safe_pure, hmem, hctx, hgot, hblocks, hs]
  constructor
  · rintro ⟨hname, _, hrest⟩
    exact ⟨hname, fun h0 => (hrest h0).1, fun hnamed => ((hrest hnamed.1).2.2 hnamed.2).1⟩
  · rintro ⟨hname, hinfo, hrest⟩
    refine ⟨hname, fun _ => trivial, fun h0 => ⟨hinfo h0, fun _ => trivial, fun hsec => ?_⟩⟩
    exact ⟨hrest ⟨h0, hsec⟩, fun _ => trivial⟩

theorem safe_dynsymStep {i : Nat} {s : Entries} (hs : s.blocks = st.blocks)
    (hfind : ∀ name, findSymbol st.ctx name = s.items.find? fun e => e.name = name) :
    Safe (dynsymStep img i st) ↔ st.ctx.dynsymTable.DynsymOk img st.mem s i := by
  have hgot : (kmalloc st).1 = st.blocks.headD false := rfl
  have hblocks : (kmalloc st).2.blocks = st.blocks.tail := rfl
  unfold dynsymStep SymTable.DynsymOk Named
  simp only [safe_field_bind, safe_ite, safe_nameAt_bind, safe_enterSymbol, safe_pure, hfind, hgot, hblocks, hs,
    Option.not_isSome_iff_eq_none]
  constructor
  · rintro ⟨hname, _, hrest⟩
    refine ⟨hname, fun h0 => (hrest h0).1, fun hnamed => ?_⟩
    obtain ⟨hstr, _, hbody⟩ := (hrest hnamed.1).2.2 hnamed.2
    exact ⟨hstr, fun hnew hgot => (hbody hnew).1 hgot⟩
  · rintro ⟨hname, hinfo, hrest⟩
    refine ⟨hname, fun _ => trivial, fun h0 => ⟨hinfo h0, fun _ => trivial, fun hsec => ?_⟩⟩
    obtain ⟨hstr, hbody⟩ := hrest ⟨h0, hsec⟩
    exact ⟨hstr, fun _ => trivial, fun hnew => ⟨hbody hnew, fun _ => trivial⟩⟩

/-! ## The chains hold the entries -/

/-- The chain for a name. -/
def hashOf (name : List UInt8) : Nat := (elfHash name).toNat % 256

/-- The state with a hash table, and what `kmalloc` will return. -/
def Loader.withTable (st : Loader) (blocks : List Bool) (table : Nat → List ElfSymbol) : Loader :=
  { st with blocks := blocks, ctx := { st.ctx with symbolHash := table } }

/-- The state with these entries in its hash table. -/
def Holding (st : Loader) (s : Entries) (t : Loader) : Prop :=
  ∃ table, Bucketed ElfSymbol.name hashOf table s.items ∧ t = st.withTable s.blocks table

theorem findSymbol_of_holding {s : Entries} (h : Holding st s t) (name : List UInt8) :
    findSymbol t.ctx name = s.items.find? fun e => e.name = name := by
  obtain ⟨table, hb, rfl⟩ := h
  exact findBucket_eq hb name

/-- The second block of an entry. -/
theorem goes_enterSymbol {T : SymTable} {i : Nat} {items : List ElfSymbol} {blocks : List Bool} {table : Nat → List ElfSymbol}
    (h : Bucketed ElfSymbol.name hashOf table items) :
    Goes (enterSymbol img (symAt T.table i) (img.nameAt st.mem (T.nameAddr st.mem i)) (fieldVal st.mem (symAt T.table i) 4 1)
        (st.withTable blocks table))
      (Holding st ⟨blocks.tail,
        if blocks.headD false then T.symbol img st.mem st.ctx.loadBias i :: items else items⟩) := by
  unfold enterSymbol kmalloc Loader.withTable
  dsimp only
  by_cases hgot : blocks.headD false = true
  · simp only [hgot, if_true]
    exact goes_field_bind (goes_field_bind (goes_field_bind (goes_pure ⟨_, bucketed_addBucket h _, rfl⟩)))
  · simp only [hgot, Bool.false_eq_true, if_false]
    exact goes_pure ⟨table, h, rfl⟩

/-- A symbol is passed over unless it has a name. -/
theorem goes_named (st : Loader) (T : SymTable) {s : Entries} {i : Nat} {enter : Entries → ElfSymbol → Entries}
    {rest : Nat → Nat → M Loader} (h : Holding st s t)
    (hrest : Goes (rest (fieldVal st.mem (symAt T.table i) 0 4) (fieldVal st.mem (symAt T.table i) 4 1))
      (Holding st (enter s (T.symbol img st.mem st.ctx.loadBias i)))) :
    Goes (do
      let stName ← img.field st.mem (symAt T.table i) 0 4
      if stName = 0 then pure t
      else do
        let info ← img.field st.mem (symAt T.table i) 4 1
        if info % 16 = sttSection then pure t else rest stName info)
      (Holding st ((T.entry img st.mem st.ctx.loadBias i).toList.foldl enter s)) := by
  unfold SymTable.entry
  refine goes_field_bind ?_
  by_cases hname : fieldVal st.mem (symAt T.table i) 0 4 = 0
  · rw [if_pos hname, if_neg fun hnamed => hnamed.1 hname]
    exact goes_pure h
  rw [if_neg hname]
  refine goes_field_bind ?_
  by_cases hsec : fieldVal st.mem (symAt T.table i) 4 1 % 16 = sttSection
  · rw [if_pos hsec, if_neg fun hnamed => hnamed.2 hsec]
    exact goes_pure h
  · rw [if_neg hsec, if_pos ⟨hname, hsec⟩]
    exact hrest

/-- One symbol of `.symtab`. -/
theorem goes_symtabStep {s : Entries} {i : Nat} (h : Holding st s t) : Goes (symtabStep img i t)
    (Holding st ((st.ctx.symtabTable.entry img st.mem st.ctx.loadBias i).toList.foldl Entries.enter s)) := by
  obtain ⟨table, hb, rfl⟩ := h
  have hholds : Holding st s (st.withTable s.blocks table) := ⟨table, hb, rfl⟩
  refine goes_named st st.ctx.symtabTable hholds (goes_ite_both (R := Holding st) (fun _ => ?_) fun _ => ?_)
  · exact goes_nameAt_bind (goes_enterSymbol (T := st.ctx.symtabTable) hb)
  · exact goes_pure ⟨table, hb, rfl⟩

/-- One symbol of `.dynsym`. -/
theorem goes_dynsymStep {s : Entries} {i : Nat} (h : Holding st s t) : Goes (dynsymStep img i t)
    (Holding st ((st.ctx.dynsymTable.entry img st.mem st.ctx.loadBias i).toList.foldl Entries.enterNew s)) := by
  have hfind := findSymbol_of_holding h
  obtain ⟨table, hb, rfl⟩ := h
  have hholds : Holding st s (st.withTable s.blocks table) := ⟨table, hb, rfl⟩
  refine goes_named st st.ctx.dynsymTable hholds (goes_nameAt_bind ?_)
  rw [hfind]
  refine goes_ite_both (R := Holding st) (fun _ => goes_pure hholds) fun _ => ?_
  refine goes_ite_both (R := Holding st) (fun _ => ?_) fun _ => ?_
  · exact goes_enterSymbol (T := st.ctx.dynsymTable) hb
  · exact goes_pure ⟨table, hb, rfl⟩

theorem decides_symtabStep {s : Entries} {i : Nat} (h : Holding st s t) : Decides (symtabStep img i t)
    (st.ctx.symtabTable.SymtabOk img st.mem s i) True
    (Holding st ((st.ctx.symtabTable.entry img st.mem st.ctx.loadBias i).toList.foldl Entries.enter s)) := by
  refine (goes_symtabStep h).decides ?_
  obtain ⟨table, _, rfl⟩ := h
  exact safe_symtabStep rfl

theorem decides_dynsymStep {s : Entries} {i : Nat} (h : Holding st s t) : Decides (dynsymStep img i t)
    (st.ctx.dynsymTable.DynsymOk img st.mem s i) True
    (Holding st ((st.ctx.dynsymTable.entry img st.mem st.ctx.loadBias i).toList.foldl Entries.enterNew s)) := by
  refine (goes_dynsymStep h).decides ?_
  have hfind := findSymbol_of_holding h
  obtain ⟨table, _, rfl⟩ := h
  exact safe_dynsymStep rfl hfind

/-- A loop over a symbol table whose iterations enter one symbol each. -/
theorem decides_symbols {T : SymTable} {s : Entries} {enter : Entries → ElfSymbol → Entries} {f : Nat → Loader → M Loader}
    {Q : Entries → Nat → Prop} (h : Holding st s t)
    (hf : ∀ i s t, Holding st s t → Decides (f i t) (Q s i) True
      (Holding st ((T.entry img st.mem st.ctx.loadBias i).toList.foldl enter s))) :
    Decides (if T.Present then forLoop f T.count t else pure t)
      (T.Present → ∀ i < T.count, Q (T.entriesUpTo img st.mem st.ctx.loadBias enter s i) i) True
      (Holding st ((T.entries img st.mem st.ctx.loadBias).foldl enter s)) := by
  unfold SymTable.entries
  by_cases hp : T.Present
  · rw [if_pos hp, if_pos hp]
    have hstep : ∀ i < T.count, ∀ t, Holding st (T.entriesUpTo img st.mem st.ctx.loadBias enter s i) t → Decides (f i t)
        (Q (T.entriesUpTo img st.mem st.ctx.loadBias enter s i) i) True
        (Holding st (T.entriesUpTo img st.mem st.ctx.loadBias enter s (i + 1))) := by
      intro i _ t ht
      have hi := hf i _ t ht
      rwa [SymTable.entriesUpTo, ← List.foldl_append, ← filterMap_range_succ] at hi
    exact (decides_forLoop _ h hstep).congr (by simp [hp]) (fun _ => by simp) fun _ h => h
  · rw [if_neg hp, if_neg hp]
    exact (decides_pure h).congr (by simp [hp]) (fun _ => Iff.rfl) fun _ h => h

/-- **`elf_resolve_symbols`** reads its symbols; after it the chains hold its entries. -/
theorem decides_elfResolveSymbols (hempty : ∀ i, st.ctx.symbolHash i = []) :
    Decides (elfResolveSymbols img st) (SymbolsOk img st) True (Holding st (entriesOf img st)) := by
  have hstart : Holding st ⟨st.blocks, []⟩ st := ⟨st.ctx.symbolHash, bucketed_empty hempty, rfl⟩
  have hdynsym : ∀ t, Holding st (symtabEntries img st) t → Decides
      (if t.ctx.dynsym ≠ 0 ∧ t.ctx.dynstr ≠ 0 then forLoop (dynsymStep img) t.ctx.dynsymCount t else pure t)
      (st.ctx.dynsymTable.Present → ∀ i < st.ctx.dynsymTable.count, st.ctx.dynsymTable.DynsymOk img st.mem
        (st.ctx.dynsymTable.entriesUpTo img st.mem st.ctx.loadBias Entries.enterNew (symtabEntries img st) i) i) True
      (Holding st (entriesOf img st)) := by
    intro t ht
    have hdyn := decides_symbols ht fun i s t => @decides_dynsymStep img st t s i
    obtain ⟨table, _, rfl⟩ := ht
    exact hdyn
  have hsymtab : Decides (resolveSymtab img st) (st.ctx.symtabTable.Present → ∀ i < st.ctx.symtabTable.count,
      st.ctx.symtabTable.SymtabOk img st.mem
        (st.ctx.symtabTable.entriesUpTo img st.mem st.ctx.loadBias Entries.enter ⟨st.blocks, []⟩ i) i) True
      (Holding st (symtabEntries img st)) :=
        decides_symbols hstart fun i s t => @decides_symtabStep img st t s i
  refine (decides_bind hsymtab fun _ _ t ht => hdynsym t ht).congr ?_ (fun _ => and_iff_left trivial) fun _ h => h
  exact ⟨fun h => ⟨h.1, h.2 trivial⟩, fun h => ⟨h.symtab, fun _ => h.dynsym⟩⟩

theorem goes_elfResolveSymbols (hempty : ∀ i, st.ctx.symbolHash i = []) :
    Goes (elfResolveSymbols img st) (Holding st (entriesOf img st)) := (decides_elfResolveSymbols hempty).goes

/-! ## Enough memory -/

/-- The next `n` calls of `kmalloc` return memory. -/
def Plenty (n : Nat) (blocks : List Bool) : Prop := ∀ j < n, blocks.getD j false = true

instance (n : Nat) (blocks : List Bool) : Decidable (Plenty n blocks) := inferInstanceAs (Decidable (∀ j < n, _))

theorem Plenty.mono {n k : Nat} {blocks : List Bool} (h : Plenty n blocks) (hk : k ≤ n) : Plenty k blocks :=
  fun j hj => h j (by omega)

theorem enter_of_plenty {n : Nat} {s : Entries} {e : ElfSymbol} (h : Plenty (n + 2) s.blocks) :
    (s.enter e).items = e :: s.items ∧ Plenty n (s.enter e).blocks := by
  have h0 := h 0 (by omega)
  have h1 := h 1 (by omega)
  unfold Entries.enter
  match hs : s.blocks, h0, h1 with
  | true :: true :: blocks, _, _ =>
    refine ⟨rfl, ?_⟩
    intro j hj
    have hj' := h (j + 2) (by omega)
    rw [hs] at hj'
    exact hj'

theorem foldl_enter {l : List ElfSymbol} {n : Nat} {s : Entries} (h : Plenty (n + 2 * l.length) s.blocks) :
    (l.foldl Entries.enter s).items = l.reverse ++ s.items ∧ Plenty n (l.foldl Entries.enter s).blocks := by
  induction l generalizing s with
  | nil => exact ⟨rfl, h⟩
  | cons e l ih =>
    obtain ⟨hitems, hblocks⟩ := enter_of_plenty (n := n + 2 * l.length) (e := e) (h.mono (by simp; omega))
    obtain ⟨hrest, hleft⟩ := ih hblocks
    refine ⟨?_, hleft⟩
    rw [List.foldl_cons, hrest, hitems, List.reverse_cons, List.append_assoc, List.singleton_append]

theorem foldl_enterNew {l : List ElfSymbol} {s : Entries} (h : Plenty (2 * l.length) s.blocks) :
    (l.foldl Entries.enterNew s).items = l.foldl (addNew ElfSymbol.name) s.items := by
  induction l generalizing s with
  | nil => rfl
  | cons e l ih =>
    rw [List.foldl_cons, List.foldl_cons]
    by_cases hfound : (s.items.find? fun x => x.name = e.name).isSome = true
    · rw [show s.enterNew e = s from if_pos hfound, show addNew ElfSymbol.name s.items e = s.items from if_pos hfound]
      exact ih (h.mono (by simp))
    · obtain ⟨hitems, hblocks⟩ := enter_of_plenty (n := 2 * l.length) (e := e) (h.mono (by simp; omega))
      rw [show s.enterNew e = s.enter e from if_neg hfound,
        show addNew ElfSymbol.name s.items e = e :: s.items from if_neg hfound, ih hblocks, hitems]

theorem SymTable.length_entries {T : SymTable} {bias : Nat} : (T.entries img m bias).length ≤ T.count := by
  unfold SymTable.entries
  split
  · exact (List.length_filterMap_le _ _).trans_eq List.length_range
  · simp

/-- The last symbol of `.symtab` wins, then the first one of `.dynsym`. -/
theorem find?_entriesOf (h : Plenty (2 * (st.ctx.symtabCount + st.ctx.dynsymCount)) st.blocks) (name : List UInt8) :
    ((entriesOf img st).items.find? fun e => e.name = name) =
      ((st.ctx.symtabTable.entries img st.mem st.ctx.loadBias).reverse.find? fun e => e.name = name).or
        ((st.ctx.dynsymTable.entries img st.mem st.ctx.loadBias).find? fun e => e.name = name) := by
  have hsym : (st.ctx.symtabTable.entries img st.mem st.ctx.loadBias).length ≤ st.ctx.symtabCount :=
    SymTable.length_entries
  have hdyn : (st.ctx.dynsymTable.entries img st.mem st.ctx.loadBias).length ≤ st.ctx.dynsymCount :=
    SymTable.length_entries
  obtain ⟨hitems, hblocks⟩ := foldl_enter (n := 2 * st.ctx.dynsymCount) (s := ⟨st.blocks, []⟩)
    (l := st.ctx.symtabTable.entries img st.mem st.ctx.loadBias) (h.mono (by omega))
  rw [entriesOf, symtabEntries, foldl_enterNew (hblocks.mono (by omega)), find?_addNews, hitems, List.append_nil]

/-! ## The symbol with a name -/

namespace SymTable

variable {T : SymTable} {bias i : Nat} {name : List UInt8} {e : ElfSymbol}

/-- The last symbol with the name. -/
def LastCalled (T : SymTable) (img : Image) (m : Mem) (name : List UInt8) (i : Nat) : Prop :=
  T.Called img m name i ∧ ∀ j, i < j → ¬ T.Called img m name j

/-- The first symbol with the name. -/
def FirstCalled (T : SymTable) (img : Image) (m : Mem) (name : List UInt8) (i : Nat) : Prop :=
  T.Called img m name i ∧ ∀ j < i, ¬ T.Called img m name j

/-- The entries with a name are those of the symbols with that name. -/
theorem entry_called (hin : T.InBounds img m) (hp : T.Present) (hi : i < T.count) :
    (T.entry img m bias i = some e ∧ e.name = name) ↔ T.Called img m name i ∧ e = T.symbol img m bias i := by
  unfold entry Called
  rw [Option.ite_none_right_eq_some]
  constructor
  · rintro ⟨⟨hnamed, he⟩, rfl⟩
    obtain rfl := Option.some.inj he
    exact ⟨⟨hp, hi, hnamed, returns_nameAt ((hin hp i hi).2 hnamed)⟩, rfl⟩
  · rintro ⟨⟨_, _, hnamed, hname⟩, rfl⟩
    exact ⟨⟨hnamed, rfl⟩, nameAt_eq hname⟩

theorem called_iff (hin : T.InBounds img m) (hp : T.Present) (hi : i < T.count) :
    T.Called img m name i ↔ ∃ e, T.entry img m bias i = some e ∧ e.name = name := by
  constructor
  · intro h
    exact ⟨_, (entry_called hin hp hi).mpr ⟨h, rfl⟩⟩
  · rintro ⟨e, he⟩
    exact ((entry_called hin hp hi).mp he).1

theorem not_called_iff (hin : T.InBounds img m) (hp : T.Present) (hi : i < T.count) :
    ¬ T.Called img m name i ↔ ∀ e, T.entry img m bias i = some e → decide (e.name = name) = false := by
  rw [show T.Called img m name i ↔ ∃ e, T.entry img m bias i = some e ∧ e.name = name from called_iff hin hp hi]
  simp

theorem find?_entries (hin : T.InBounds img m) :
    ((T.entries img m bias).find? fun e => e.name = name) = some e ↔
      ∃ i, T.FirstCalled img m name i ∧ e = T.symbol img m bias i := by
  unfold entries FirstCalled
  split
  · rename_i hp
    rw [find?_filterMap_range]
    constructor
    · rintro ⟨i, hi, he, hname, hbefore⟩
      obtain ⟨hcalled, heq⟩ := (entry_called hin hp hi).mp ⟨he, of_decide_eq_true hname⟩
      exact ⟨i, ⟨hcalled, fun j hj => (not_called_iff hin hp (by omega)).mpr (hbefore j hj)⟩, heq⟩
    · rintro ⟨i, ⟨hcalled, hbefore⟩, heq⟩
      have hi := hcalled.2.1
      obtain ⟨he, hname⟩ := (entry_called hin hp hi).mpr ⟨hcalled, heq⟩
      exact ⟨i, hi, he, decide_eq_true hname, fun j hj => (not_called_iff hin hp (by omega)).mp (hbefore j hj)⟩
  · rename_i hp
    simp [Called, hp]

theorem find?_reverse_entries (hin : T.InBounds img m) :
    ((T.entries img m bias).reverse.find? fun e => e.name = name) = some e ↔
      ∃ i, T.LastCalled img m name i ∧ e = T.symbol img m bias i := by
  unfold entries LastCalled
  split
  · rename_i hp
    rw [find?_reverse_filterMap_range]
    constructor
    · rintro ⟨i, hi, he, hname, hafter⟩
      obtain ⟨hcalled, heq⟩ := (entry_called hin hp hi).mp ⟨he, of_decide_eq_true hname⟩
      refine ⟨i, ⟨hcalled, fun j hij hj => ?_⟩, heq⟩
      exact (not_called_iff hin hp hj.2.1).mpr (hafter j hj.2.1 hij) hj
    · rintro ⟨i, ⟨hcalled, hafter⟩, heq⟩
      have hi := hcalled.2.1
      obtain ⟨he, hname⟩ := (entry_called hin hp hi).mpr ⟨hcalled, heq⟩
      exact ⟨i, hi, he, decide_eq_true hname, fun j hj hij => (not_called_iff hin hp hj).mp (hafter j hij)⟩
  · rename_i hp
    simp [Called, hp]

theorem find?_entries_eq_none (hin : T.InBounds img m) :
    ((T.entries img m bias).find? fun e => e.name = name) = none ↔ ∀ i, ¬ T.Called img m name i := by
  unfold entries
  split
  · rename_i hp
    rw [List.find?_eq_none]
    constructor
    · intro h i hi
      obtain ⟨e, he, hname⟩ := (called_iff hin hp hi.2.1).mp hi
      exact h e (mem_filterMap_range.mpr ⟨i, hi.2.1, he⟩) (by simpa using hname)
    · intro h e he hname
      obtain ⟨i, hi, he⟩ := mem_filterMap_range.mp he
      exact h i ((called_iff hin hp hi).mpr ⟨e, he, by simpa using hname⟩)
  · rename_i hp
    simp [Called, hp]

theorem find?_reverse_entries_eq_none (hin : T.InBounds img m) :
    ((T.entries img m bias).reverse.find? fun e => e.name = name) = none ↔ ∀ i, ¬ T.Called img m name i := by
  rw [← @find?_entries_eq_none img m T bias name hin, List.find?_eq_none, List.find?_eq_none]
  simp only [List.mem_reverse]

end SymTable

/-! ## What is found -/

/-- A symbol whose 24 bytes lie in the image. -/
theorem fieldIn_of_has {sym off n : Nat} (h : img.Has sym 24) (hoff : off + n ≤ 24) (hn : 0 < n) : img.FieldIn sym off n := by
  have hfits := img.fits
  unfold Image.Has at h
  have hwrap : wrap (sym + off) = sym + off := Nat.mod_eq_of_lt (by omega)
  unfold Image.FieldIn Image.Has
  rw [hwrap]
  omega

theorem enterOk_of_has {sym : Nat} {blocks : List Bool} (h : img.Has sym 24) : EnterOk img sym blocks :=
  fun _ => ⟨fieldIn_of_has h (by omega) (by omega), fieldIn_of_has h (by omega) (by omega),
    fieldIn_of_has h (by omega) (by omega)⟩

/-- `elf_resolve_symbols` reads nothing else than the tables and their names. -/
theorem symbolsOk_of_inBounds (hsymtab : st.ctx.symtabTable.InBounds img st.mem)
    (hdynsym : st.ctx.dynsymTable.InBounds img st.mem) : SymbolsOk img st where
  symtab := by
    intro hp i hi
    obtain ⟨hhas, hstr⟩ := hsymtab hp i hi
    exact ⟨fieldIn_of_has hhas (by omega) (by omega), fun _ => fieldIn_of_has hhas (by omega) (by omega),
      fun hnamed _ => ⟨hstr hnamed, enterOk_of_has hhas⟩⟩
  dynsym := by
    intro hp i hi
    obtain ⟨hhas, hstr⟩ := hdynsym hp i hi
    exact ⟨fieldIn_of_has hhas (by omega) (by omega), fun _ => fieldIn_of_has hhas (by omega) (by omega),
      fun hnamed => ⟨hstr hnamed, fun _ _ => enterOk_of_has hhas⟩⟩

/-- **Symbol resolution**: a name is found exactly when a symbol of one of the tables has it, and what is found is the last
such symbol of `.symtab`, or else the first one of `.dynsym`. -/
theorem elfResolveSymbols_find (img : Image) (st : Loader) (hempty : ∀ i, st.ctx.symbolHash i = [])
    (hblocks : Plenty (2 * (st.ctx.symtabCount + st.ctx.dynsymCount)) st.blocks)
    (hsymtab : st.ctx.symtabTable.InBounds img st.mem) (hdynsym : st.ctx.dynsymTable.InBounds img st.mem) :
    ∃ s, Returns (elfResolveSymbols img st) s ∧ ∀ name,
      ((findSymbol s.ctx name).isSome = true ↔
        (∃ i, st.ctx.symtabTable.Called img st.mem name i) ∨ ∃ i, st.ctx.dynsymTable.Called img st.mem name i) ∧
      ∀ e, findSymbol s.ctx name = some e →
        (∃ i, st.ctx.symtabTable.LastCalled img st.mem name i ∧
          e.value = st.ctx.symtabTable.value st.mem st.ctx.loadBias i) ∨
        ((∀ i, ¬ st.ctx.symtabTable.Called img st.mem name i) ∧
          ∃ i, st.ctx.dynsymTable.FirstCalled img st.mem name i ∧
            e.value = st.ctx.dynsymTable.value st.mem st.ctx.loadBias i) := by
  obtain ⟨s, hs, hheld⟩ := (decides_elfResolveSymbols hempty).returned (symbolsOk_of_inBounds hsymtab hdynsym) trivial
  refine ⟨s, hs, fun name => ?_⟩
  rw [findSymbol_of_holding hheld, find?_entriesOf hblocks]
  have hsome := @SymTable.find?_reverse_entries img st.mem st.ctx.symtabTable st.ctx.loadBias name
  have hnone := @SymTable.find?_reverse_entries_eq_none img st.mem st.ctx.symtabTable st.ctx.loadBias name hsymtab
  have hdsome := @SymTable.find?_entries img st.mem st.ctx.dynsymTable st.ctx.loadBias name
  have hdnone := @SymTable.find?_entries_eq_none img st.mem st.ctx.dynsymTable st.ctx.loadBias name hdynsym
  constructor
  · rw [← not_iff_not, Option.not_isSome_iff_eq_none, Option.or_eq_none_iff, hnone, hdnone]
    push Not
    rfl
  · intro e he
    rcases Option.or_eq_some_iff.mp he with hlast | ⟨hno, hfirst⟩
    · obtain ⟨i, hi, rfl⟩ := (hsome hsymtab).mp hlast
      exact .inl ⟨i, hi, rfl⟩
    · obtain ⟨i, hi, rfl⟩ := (hdsome hdynsym).mp hfirst
      exact .inr ⟨hnone.mp hno, i, hi, rfl⟩

/-- Two symbols with the name `a`, and the strings behind them. -/
def twinImage : Image := ⟨4096, 51, by norm_num⟩

def twinLoader : Loader :=
  ⟨fun a => ([1, 0, 0, 0, 0x10, 0, 1, 0, 0x10, 0, 0, 0, 0, 0, 0, 0, 0, 0, 0, 0, 0, 0, 0, 0,
      1, 0, 0, 0, 0x10, 0, 1, 0, 0x20, 0, 0, 0, 0, 0, 0, 0, 0, 0, 0, 0, 0, 0, 0, 0, 0, 97, 0] : List UInt8).getD (a - 4096) 0,
    [], [true, true, true, true], { emptyContext with symtab := 4096, strtab := 4144, symtabCount := 2 }, emptyInfo⟩

theorem called_twin {i : Nat} (hi : i < 2) : twinLoader.ctx.symtabTable.Called twinImage twinLoader.mem [97] i := by
  obtain rfl | rfl : i = 0 ∨ i = 1 := by omega
  · exact ⟨by decide, by decide, by decide, by rfl⟩
  · exact ⟨by decide, by decide, by decide, by rfl⟩

/-- The second one is found. -/
theorem elfResolveSymbols_find_twin : ∃ s, Returns (elfResolveSymbols twinImage twinLoader) s ∧
    ∃ e, findSymbol s.ctx [97] = some e ∧ e.value = 0x20 := by
  have hin : twinLoader.ctx.symtabTable.InBounds twinImage twinLoader.mem := by
    intro _ i hi
    refine ⟨?_, fun _ => safe_str.mp (called_twin hi).2.2.2.safe⟩
    obtain rfl | rfl : i = 0 ∨ i = 1 := by
      have hi' : i < 2 := hi
      omega
    · decide
    · decide
  have hdyn : twinLoader.ctx.dynsymTable.InBounds twinImage twinLoader.mem := fun hp => absurd hp (by decide)
  obtain ⟨s, hs, hfind⟩ := elfResolveSymbols_find twinImage twinLoader (fun _ => rfl) (by decide) hin hdyn
  obtain ⟨hsome, hvalue⟩ := hfind [97]
  obtain ⟨e, he⟩ := Option.isSome_iff_exists.mp (hsome.mpr (.inl ⟨1, called_twin (by decide)⟩))
  refine ⟨s, hs, e, he, ?_⟩
  rcases hvalue e he with ⟨i, ⟨hi, hlast⟩, hv⟩ | ⟨hno, _⟩
  · obtain rfl | rfl : i = 0 ∨ i = 1 := by
      have hi' : i < 2 := hi.2.1
      omega
    · exact absurd (called_twin (by decide)) (hlast 1 (by decide))
    · rw [hv]
      decide
  · exact absurd (called_twin (by decide)) (hno 1)

end AmqOs.Elf
