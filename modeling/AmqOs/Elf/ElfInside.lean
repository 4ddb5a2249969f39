import AmqOs.Elf.ElfIdempotent
import AmqOs.Elf.ElfUndefined

/-!
# Whether the ELF loader stays inside the image

Which bytes the loader reads depends on the file, on what `pmm_alloc_pages` and `kmalloc` answer, and, for the relocation
tables of the dynamic section, on the segments that have been loaded. None of this needs a run of the loader: the context is
`fileContext`, memory after the segments is `loadedMem`, the symbols that have been entered are `entriesOf`. `ImageOk` says in
these terms that everything the loader depends on lies in the image, up to the point where it ends with an error. It does
not read anything else and it returns exactly when this holds (`elfLoad_isSome_iff`), provided that no segment is longer in the
file than in memory, the pages are fresh, and the relocations stay away from the image and from the tables they are in
(`Calm`).
-/

set_option autoImplicit false

namespace AmqOs.Elf

open AmqOs.Lib AmqOs.Lib.Guarded

variable {img : Image} {m : Mem} {st ref t : Loader} {T : RelaTable} {i k : Nat}

/-! ## States that read the same -/

theorem SameImage.str_eq {m' : Mem} (h : SameImage img m m') {a : Nat} : img.str m a = img.str m' a := by
  have hread : ∀ a, img.read m (wrap a) 1 = img.read m' (wrap a) 1 := fun a => @SameImage.field_eq img m m' h a 0 1
  have hgo : ∀ fuel a, img.strFrom m fuel a = img.strFrom m' fuel a := by
    intro fuel
    induction fuel with
    | zero => exact fun _ => rfl
    | succ fuel ih =>
      intro a
      simp only [Image.strFrom, hread, ih]
  exact hgo _ a

theorem SameImage.dynamicFrom_eq {m' : Mem} (h : SameImage img m m') {bias fuel dyn : Nat} {d : DynInfo} :
    dynamicFrom img m bias fuel dyn d = dynamicFrom img m' bias fuel dyn d := by
  have hfield : ∀ p off n, img.field m p off n = img.field m' p off n := fun _ _ _ => h.field_eq
  have hentry : ∀ dyn tag d, dynamicEntry img m bias dyn tag d = dynamicEntry img m' bias dyn tag d := by
    intro dyn tag d
    simp only [dynamicEntry, hfield]
  induction fuel generalizing dyn d with
  | zero => rfl
  | succ fuel ih => simp only [dynamicFrom, hfield, hentry, ih]

theorem SameImage.symbolValue_eq {sym strtab : Nat} (h : SameImage img t.mem ref.mem) (hctx : t.ctx = ref.ctx) :
    symbolValue img sym strtab t = symbolValue img sym strtab ref := by
  have hfield : ∀ p off n, img.field t.mem p off n = img.field ref.mem p off n := fun _ _ _ => h.field_eq
  unfold symbolValue foundValue
  simp only [hfield, h.str_eq, hctx]

theorem SameImage.symbolOk {sym strtab : Nat} (h : SameImage img t.mem ref.mem) (hctx : t.ctx = ref.ctx) :
    SymbolOk img sym strtab t ↔ SymbolOk img sym strtab ref := by
  rw [← decides_symbolValue.safe_iff, ← decides_symbolValue.safe_iff, h.symbolValue_eq hctx]

theorem SameImage.undefined {sym strtab : Nat} (h : SameImage img t.mem ref.mem) (hctx : t.ctx = ref.ctx)
    (hok : SymbolOk img sym strtab ref) : Undefined img sym strtab t ↔ Undefined img sym strtab ref := by
  rw [← not_iff_not, ← decides_symbolValue.returned_iff ((h.symbolOk hctx).mpr hok), ← decides_symbolValue.returned_iff hok,
    h.symbolValue_eq hctx]

/-! ## One relocation table -/

/-- The context is that of `ref`, and so is the memory at the addresses `K`. -/
structure Kept (K : Nat → Prop) (ref t : Loader) : Prop where
  ctx : t.ctx = ref.ctx
  mem : ∀ x, K x → t.mem x = ref.mem x

namespace RelaTable

/-- The bytes of the entries of a table. -/
def OwnBytes (T : RelaTable) (x : Nat) : Prop :=
  ∃ i < T.count, InField (T.rel i) 0 8 x ∨ InField (T.rel i) 8 8 x ∨ InField (T.rel i) 16 8 x

/-- The addresses `K` include the image and the table. -/
structure Covered (T : RelaTable) (img : Image) (K : Nat → Prop) : Prop where
  image : ∀ x, img.Has x 1 → K x
  table : T.inImage = false → ∀ x, T.OwnBytes x → K x

/-- No entry writes to the addresses `K`. -/
def WritesOff (T : RelaTable) (ref : Loader) (K : Nat → Prop) : Prop :=
  ∀ i < T.count, ∀ x, T.Writes ref.mem ref.ctx.loadBias i x → ¬ K x

/-- What is read of and through a table. -/
def TableOk (T : RelaTable) (img : Image) (ref : Loader) : Prop :=
  ∀ i < T.count, (∀ j < i, T.GoesOn img ref j) → T.EntryOk img ref i

/-- No entry of the table ends the loader. -/
def AllGoOn (T : RelaTable) (img : Image) (ref : Loader) : Prop := ∀ i < T.count, T.GoesOn img ref i

variable {K : Nat → Prop}

theorem Covered.sameImage (hK : T.Covered img K) (h : Kept K ref t) : SameImage img t.mem ref.mem :=
  fun x hx => h.mem x (hK.image x hx)

/-- A field of an entry that lies in the image, if the table does. -/
theorem Covered.fieldVal_eq (hK : T.Covered img K) (h : Kept K ref t) (hi : i < T.count) {off : Nat}
    (hoff : off = 0 ∨ off = 8 ∨ off = 16) (hin : img.TableIn T.inImage (T.rel i) off 8) :
    fieldVal t.mem (T.rel i) off 8 = fieldVal ref.mem (T.rel i) off 8 := by
  cases hT : T.inImage with
  | true => exact (hK.sameImage h).fieldVal (hin hT)
  | false =>
    refine fieldVal_congr fun x hx => h.mem x (hK.table hT x ⟨i, hi, ?_⟩)
    rcases hoff with rfl | rfl | rfl
    · exact .inl hx
    · exact .inr (.inl hx)
    · exact .inr (.inr hx)

/-- An entry is read in the same way. -/
theorem decides_step_of_kept (hK : T.Covered img K) (hoff : T.WritesOff ref K) (hi : i < T.count) (h : Kept K ref t) :
    Decides (T.step img i t) (T.EntryOk img ref i) (T.GoesOn img ref i) (Kept K ref) := by
  by_cases hin : T.EntryIn img i
  · have himage := hK.sameImage h
    have hinfo := hK.fieldVal_eq h hi (.inr (.inl rfl)) hin.1
    have hoffset := hK.fieldVal_eq h hi (.inl rfl) hin.2
    have htype : T.rType t.mem i = T.rType ref.mem i := by
      unfold rType
      rw [hinfo]
    have hrsym : T.rSym t.mem i = T.rSym ref.mem i := by
      unfold rSym
      rw [hinfo]
    have hsym : T.sym t.mem i = T.sym ref.mem i := by
      unfold sym
      rw [hrsym]
    have hhas : T.HasSym t.mem i ↔ T.HasSym ref.mem i := by
      unfold HasSym
      rw [hrsym]
    have hoks : (T.HasSym t.mem i → SymbolOk img (T.sym t.mem i) T.strtab t) ↔
        (T.HasSym ref.mem i → SymbolOk img (T.sym ref.mem i) T.strtab ref) := by
      rw [hhas, hsym, himage.symbolOk h.ctx]
    have hundef : (T.HasSym ref.mem i → SymbolOk img (T.sym ref.mem i) T.strtab ref) →
        (T.SymUndefined img t i ↔ T.SymUndefined img ref i) := by
      intro hok
      unfold SymUndefined
      rw [hhas, hsym]
      exact and_congr_right fun hr => himage.undefined h.ctx (hok hr)
    have hentry : T.EntryOk img t i ↔ T.EntryOk img ref i := by
      refine and_congr_right fun _ => ⟨?_, ?_⟩
      · rintro ⟨hok, haddend⟩
        refine ⟨hoks.mp hok, ?_⟩
        rwa [hundef (hoks.mp hok), htype] at haddend
      · rintro ⟨hok, haddend⟩
        refine ⟨hoks.mpr hok, ?_⟩
        rwa [hundef hok, htype]
    have hwrites : ∀ x, T.Writes t.mem t.ctx.loadBias i x ↔ T.Writes ref.mem ref.ctx.loadBias i x := by
      intro x
      unfold Writes RelaTable.ref
      rw [htype, hoffset, h.ctx]
    refine decides_step.congr hentry (fun hok => ?_) ?_
    · unfold GoesOn
      rw [hundef hok.2.1, htype]
    · rintro u ⟨hctx, hmem⟩
      refine ⟨hctx.trans h.ctx, fun x hx => ?_⟩
      rw [hmem x fun hw => hoff i hi x ((hwrites x).mp hw) hx, h.mem x hx]
  · have hunsafe : ¬ Safe (T.step img i t) := fun hsafe => hin (entryIn_of_safe hsafe)
    exact ⟨iff_of_false hunsafe fun hok => hin hok.1, fun hok => absurd hok.1 hin, fun hok => absurd hok.1 hin⟩

/-- The table is applied entry by entry. -/
theorem decides_apply (hK : T.Covered img K) (hoff : T.WritesOff ref K) (h : Kept K ref t) :
    Decides (T.apply img t) (T.TableOk img ref) (T.AllGoOn img ref) (Kept K ref) :=
  decides_forLoop (fun _ => Kept K ref) h fun _ hi _ ht => decides_step_of_kept hK hoff hi ht

end RelaTable

/-- The conditions hold of the table, if there is one. -/
def ForTable (table : Option RelaTable) (p : RelaTable → Prop) : Prop := ∀ T, table = some T → p T

theorem decides_applyTable {K : Nat → Prop} {table : Option RelaTable} (hK : ForTable table fun T => T.Covered img K)
    (hoff : ForTable table fun T => T.WritesOff ref K) (h : Kept K ref t) :
    Decides (applyTable img t table) (ForTable table fun T => T.TableOk img ref) (ForTable table fun T => T.AllGoOn img ref)
      (Kept K ref) := by
  cases table with
  | none => exact (decides_pure h).congr (by simp [ForTable]) (fun _ => by simp [ForTable]) fun _ h => h
  | some T =>
    exact (RelaTable.decides_apply (hK T rfl) (hoff T rfl) h).congr (by simp [ForTable]) (fun _ => by simp [ForTable])
      fun _ h => h

/-! ## The tables of the sections -/

/-- The relocation table of section `i`, if it is one. -/
def sectionRela (img : Image) (m : Mem) (i : Nat) : Option RelaTable :=
  let link := sectionField img m i 40 4
  let strLink := sectionField img m link 40 4
  if hasType img m shtRela i ∧ link < eShnum img m then
    some ⟨true, sectionStart img m (some i), sectionField img m i 32 8 / 24, sectionStart img m (some link),
      if strLink < eShnum img m then sectionStart img m (some strLink) else 0⟩
  else none

/-- What is read of a section header: for relocations, also of the headers it links to. -/
def RelaHeaderOk (img : Image) (m : Mem) (i : Nat) : Prop :=
  let shdr := fun i => wrap (shdrTable img m + 64 * i)
  let link := sectionField img m i 40 4
  let strLink := sectionField img m link 40 4
  img.FieldIn (shdr i) 4 4 ∧ (hasType img m shtRela i = true →
    img.FieldIn (shdr i) 24 8 ∧ img.FieldIn (shdr i) 32 8 ∧ img.FieldIn (shdr i) 40 4 ∧
    (link < eShnum img m → img.FieldIn (shdr link) 24 8 ∧ img.FieldIn (shdr link) 40 4 ∧
      (strLink < eShnum img m → img.FieldIn (shdr strLink) 24 8)))

theorem decides_sectionTable (hheader : img.HasHeader) (himage : SameImage img t.mem m)
    (hshdrs : t.ctx.shdrs = shdrTable img m) : Decides (sectionTable img i t) (RelaHeaderOk img m i) True
      fun table => table = sectionRela img m i := by
  have hfield : ∀ p off n, img.field t.mem p off n = img.field m p off n := fun _ _ _ => himage.field_eq
  have hval : ∀ i off n, fieldVal m (wrap (shdrTable img m + 64 * i)) off n = sectionField img m i off n := fun _ _ _ => rfl
  have hnum : fieldVal m img.data 60 2 = eShnum img m := rfl
  have hin := hheader.fieldIn (show 60 + 2 ≤ 64 by omega) (by omega)
  have hstart : ∀ i, wrap (img.data + sectionField img m i 24 8) = sectionStart img m (some i) := fun _ => rfl
  refine Goes.decides ?goes ?safe
  case safe =>
    unfold sectionTable sectionData RelaHeaderOk hasType
    simp only [hfield, hshdrs, bind_assoc, pure_bind, safe_field_bind, safe_ite, safe_pure, hval, hnum, hin, true_and, and_true,
      implies_true, decide_eq_true_eq]
  case goes =>
    unfold sectionTable sectionData sectionRela hasType
    simp only [hfield, hshdrs, bind_assoc, pure_bind]
    refine goes_field_bind ?_
    simp only [hval]
    by_cases hrela : sectionField img m i 4 4 = shtRela
    · rw [if_pos hrela]
      refine goes_field_bind (goes_field_bind (goes_field_bind (goes_field_bind ?_)))
      simp only [hval, hnum]
      by_cases hlink : sectionField img m i 40 4 < eShnum img m
      · rw [if_pos hlink]
        refine goes_field_bind (goes_field_bind ?_)
        simp only [hval]
        by_cases hstr : sectionField img m (sectionField img m i 40 4) 40 4 < eShnum img m
        · rw [if_pos hstr]
          exact goes_field_bind (goes_pure (by simp [hrela, hlink, hstr, sectionStart, hval]))
        · rw [if_neg hstr]
          exact goes_pure (by simp [hrela, hlink, hstr, sectionStart])
      · rw [if_neg hlink]
        exact goes_pure (by simp [hlink])
    · rw [if_neg hrela]
      exact goes_pure (by simp [hrela])

/-- What is read at section header `i`. -/
def SectionRelocsOk (img : Image) (ref : Loader) (i : Nat) : Prop :=
  RelaHeaderOk img ref.mem i ∧ ForTable (sectionRela img ref.mem i) fun T => T.TableOk img ref

/-- No relocation of section `i` ends the loader. -/
def SectionGoesOn (img : Image) (ref : Loader) (i : Nat) : Prop :=
  ForTable (sectionRela img ref.mem i) fun T => T.AllGoOn img ref

theorem decides_relaSectionStep {K : Nat → Prop} (hheader : img.HasHeader) (himage : ∀ x, img.Has x 1 → K x)
    (hshdrs : ref.ctx.shdrs = shdrTable img ref.mem)
    (hoff : ∀ i < eShnum img ref.mem, ForTable (sectionRela img ref.mem i) fun T => T.WritesOff ref K) (h : Kept K ref t) :
    Decides (relaSectionStep img i t) (i < eShnum img ref.mem → SectionRelocsOk img ref i)
      (i < eShnum img ref.mem → SectionGoesOn img ref i) (Kept K ref) := by
  have hsame : SameImage img t.mem ref.mem := fun x hx => h.mem x (himage x hx)
  have hin := hheader.fieldIn (show 60 + 2 ≤ 64 by omega) (by omega)
  rw [relaSectionStep_eq]
  unfold stepTable
  rw [hsame.field_eq, bind_assoc, field_bind hin]
  by_cases hi : i < eShnum img ref.mem
  · rw [show fieldVal ref.mem img.data 60 2 = eShnum img ref.mem from rfl, if_pos hi]
    have hcovered : ForTable (sectionRela img ref.mem i) fun T => T.Covered img K := by
      intro T hT
      refine ⟨himage, fun hdyn => ?_⟩
      simp only [sectionRela] at hT
      split at hT
      · cases hT
        cases hdyn
      · cases hT
    refine (decides_bind (decides_sectionTable hheader hsame (by rw [h.ctx, hshdrs])) fun _ _ table htable => by
      rw [htable]; exact decides_applyTable hcovered (hoff i hi) h).congr ?_ (fun _ => ?_) fun _ h => h
    · simp [hi, SectionRelocsOk]
    · simp [hi, SectionGoesOn]
  · rw [show fieldVal ref.mem img.data 60 2 = eShnum img ref.mem from rfl, if_neg hi, pure_bind]
    exact (decides_pure h).congr (by simp [hi]) (fun _ => by simp [hi]) fun _ h => h

/-- The loop over the sections. -/
theorem decides_relaSections {K : Nat → Prop} (hheader : img.HasHeader) (himage : ∀ x, img.Has x 1 → K x)
    (hshdrs : ref.ctx.shdrs = shdrTable img ref.mem)
    (hoff : ∀ i < eShnum img ref.mem, ForTable (sectionRela img ref.mem i) fun T => T.WritesOff ref K) (h : Kept K ref t) :
    Decides (relaSections img t)
      (∀ i < eShnum img ref.mem, (∀ j < i, SectionGoesOn img ref j) → SectionRelocsOk img ref i)
      (∀ i < eShnum img ref.mem, SectionGoesOn img ref i) (Kept K ref) := by
  have hnum : eShnum img ref.mem < 2 ^ 16 := fieldVal_lt
  refine (decides_forLoop (fun _ => Kept K ref) h fun i _ t ht =>
    @decides_relaSectionStep img ref t i K hheader himage hshdrs hoff ht).congr ?_ (fun _ => ?_) fun _ h => h
  · constructor
    · exact fun hok i hi hgo => hok i (by omega) (fun j hj _ => hgo j hj) hi
    · exact fun hok i _ hgo hi => hok i hi fun j hj => hgo j hj (by omega)
  · exact ⟨fun hgo i hi => hgo i (by omega) hi, fun hgo i _ hi => hgo i hi⟩

/-! ## The dynamic section -/

/-- The tag of dynamic entry `k`. -/
def dynTag (m : Mem) (dyn k : Nat) : Nat := fieldVal m (dynAt dyn k) 0 8

/-- The value of dynamic entry `k`. -/
def dynVal (m : Mem) (dyn k : Nat) : Nat := fieldVal m (dynAt dyn k) 8 8

/-- The tags whose value is used. -/
def usesValue (tag : Nat) : Prop := tag = dtRela ∨ tag = dtRelasz ∨ tag = dtJmprel ∨ tag = dtPltrelsz

/-- The first `DT_NULL` is entry `k`. -/
structure DynEnd (m : Mem) (dyn k : Nat) : Prop where
  null : dynTag m dyn k = 0
  before : ∀ j < k, dynTag m dyn j ≠ 0

theorem DynEnd.unique {dyn j k : Nat} (hj : DynEnd m dyn j) (hk : DynEnd m dyn k) : j = k := by
  rcases lt_trichotomy j k with hlt | heq | hlt
  · exact absurd hj.null (hk.before j hlt)
  · exact heq
  · exact absurd hk.null (hj.before k hlt)

/-- What is read of dynamic entry `j`. -/
def DynEntryOk (img : Image) (m : Mem) (dyn j : Nat) : Prop :=
  img.FieldIn (dynAt dyn j) 0 8 ∧ (usesValue (dynTag m dyn j) → img.FieldIn (dynAt dyn j) 8 8)

/-- What is read of the dynamic section: its entries up to the first `DT_NULL`, which there is. -/
def DynamicOk (img : Image) (m : Mem) (dyn : Nat) : Prop :=
  ∃ k < 2 ^ 64, DynEnd m dyn k ∧ img.FieldIn (dynAt dyn k) 0 8 ∧ ∀ j < k, DynEntryOk img m dyn j

/-- The value of the last of the first `n` entries with a tag. -/
def dynLast (m : Mem) (dyn tag n : Nat) : Option Nat := (lastBelow (fun k => dynTag m dyn k = tag) n).map (dynVal m dyn)

/-- What the first `n` entries say. -/
def dynInfoUpTo (m : Mem) (bias dyn n : Nat) : DynInfo where
  rela := ((dynLast m dyn dtRela n).map fun v => wrap (v + bias)).getD 0
  relaSize := (dynLast m dyn dtRelasz n).getD 0
  jmprel := ((dynLast m dyn dtJmprel n).map fun v => wrap (v + bias)).getD 0
  jmprelSize := (dynLast m dyn dtPltrelsz n).getD 0

theorem dynLast_succ {dyn tag n : Nat} :
    dynLast m dyn tag (n + 1) = if dynTag m dyn n = tag then some (dynVal m dyn n) else dynLast m dyn tag n := by
  unfold dynLast
  rw [lastBelow]
  by_cases h : dynTag m dyn n = tag
  · simp [h]
  · simp [h]

/-- An entry sets what its tag names. -/
theorem decides_dynamicEntry {bias dyn n : Nat} :
    Decides (dynamicEntry img m bias (dynAt dyn n) (dynTag m dyn n) (dynInfoUpTo m bias dyn n))
      (usesValue (dynTag m dyn n) → img.FieldIn (dynAt dyn n) 8 8) True fun d => d = dynInfoUpTo m bias dyn (n + 1) := by
  have hset : ∀ g : Nat → DynInfo, usesValue (dynTag m dyn n) → g (dynVal m dyn n) = dynInfoUpTo m bias dyn (n + 1) →
      Decides (img.field m (dynAt dyn n) 8 8 >>= fun v => (pure (g v) : M DynInfo))
        (usesValue (dynTag m dyn n) → img.FieldIn (dynAt dyn n) 8 8) True fun d => d = dynInfoUpTo m bias dyn (n + 1) := by
    intro g huses hg
    have hfield : Decides (img.field m (dynAt dyn n) 8 8 >>= fun v => (pure (g v) : M DynInfo))
        (img.FieldIn (dynAt dyn n) 8 8) True fun d => d = dynInfoUpTo m bias dyn (n + 1) := decides_field_pure fun _ => hg
    exact hfield.congr ⟨fun hin _ => hin, fun hin => hin huses⟩ (fun _ => Iff.rfl) fun _ h => h
  unfold dynamicEntry
  by_cases hrela : dynTag m dyn n = dtRela
  · rw [if_pos hrela]
    refine hset _ (.inl hrela) ?_
    simp [dynInfoUpTo, dynLast_succ, hrela, dtRela, dtRelasz, dtJmprel, dtPltrelsz]
  rw [if_neg hrela]
  by_cases hrelasz : dynTag m dyn n = dtRelasz
  · rw [if_pos hrelasz]
    refine hset _ (.inr (.inl hrelasz)) ?_
    simp [dynInfoUpTo, dynLast_succ, hrelasz, dtRela, dtRelasz, dtJmprel, dtPltrelsz]
  rw [if_neg hrelasz]
  by_cases hjmprel : dynTag m dyn n = dtJmprel
  · rw [if_pos hjmprel]
    refine hset _ (.inr (.inr (.inl hjmprel))) ?_
    simp [dynInfoUpTo, dynLast_succ, hjmprel, dtRela, dtRelasz, dtJmprel, dtPltrelsz]
  rw [if_neg hjmprel]
  by_cases hpltrelsz : dynTag m dyn n = dtPltrelsz
  · rw [if_pos hpltrelsz]
    refine hset _ (.inr (.inr (.inr hpltrelsz))) ?_
    simp [dynInfoUpTo, dynLast_succ, hpltrelsz, dtRela, dtRelasz, dtJmprel, dtPltrelsz]
  rw [if_neg hpltrelsz]
  refine (decides_pure ?_).congr (iff_of_true trivial fun huses => ?_) (fun _ => Iff.rfl) fun _ h => h
  · simp [dynInfoUpTo, dynLast_succ, hrela, hrelasz, hjmprel, hpltrelsz]
  · rcases huses with h | h | h | h
    · exact absurd h hrela
    · exact absurd h hrelasz
    · exact absurd h hjmprel
    · exact absurd h hpltrelsz

/-- From entry `n` on, the scan comes to its end within `fuel` entries, and what it reads lies in the image. -/
def ScanOk (img : Image) (m : Mem) (dyn n fuel : Nat) : Prop :=
  ∃ k < n + fuel, n ≤ k ∧ DynEnd m dyn k ∧ img.FieldIn (dynAt dyn k) 0 8 ∧ ∀ j < k, n ≤ j → DynEntryOk img m dyn j

theorem not_scanOk_zero {dyn n : Nat} : ¬ ScanOk img m dyn n 0 := by
  rintro ⟨k, hk, hn, _⟩
  omega

theorem scanOk_end {dyn n fuel : Nat} (hend : DynEnd m dyn n) :
    ScanOk img m dyn n (fuel + 1) ↔ img.FieldIn (dynAt dyn n) 0 8 := by
  constructor
  · rintro ⟨k, _, _, hk, hin, _⟩
    rw [hend.unique hk]
    exact hin
  · exact fun hin => ⟨n, by omega, le_refl _, hend, hin, fun j hj hn => by omega⟩

theorem scanOk_next {dyn n fuel : Nat} (hnull : dynTag m dyn n ≠ 0) :
    ScanOk img m dyn n (fuel + 1) ↔ DynEntryOk img m dyn n ∧ ScanOk img m dyn (n + 1) fuel := by
  constructor
  · rintro ⟨k, hk, hn, hend, hkin, hall⟩
    have hne : k ≠ n := by
      rintro rfl
      exact hnull hend.null
    exact ⟨hall n (by omega) (le_refl _), k, by omega, by omega, hend, hkin, fun j hj hnj => hall j hj (by omega)⟩
  · rintro ⟨hentry, k, hk, hn, hend, hkin, hall⟩
    refine ⟨k, by omega, by omega, hend, hkin, fun j hj hnj => ?_⟩
    rcases Nat.eq_or_lt_of_le hnj with rfl | hlt
    · exact hentry
    · exact hall j hj hlt

/-- The scan from entry `n` on. -/
theorem decides_dynamicFrom {bias dyn fuel n : Nat} (hbefore : ∀ j < n, dynTag m dyn j ≠ 0) :
    Decides (dynamicFrom img m bias fuel (dynAt dyn n) (dynInfoUpTo m bias dyn n)) (ScanOk img m dyn n fuel) True
      fun d => ∃ k, DynEnd m dyn k ∧ d = dynInfoUpTo m bias dyn k := by
  induction fuel generalizing n with
  | zero =>
    exact ⟨iff_of_false (fun h => h rfl) not_scanOk_zero, fun h => absurd h not_scanOk_zero,
      fun h => absurd h not_scanOk_zero⟩
  | succ fuel ih =>
    have hnext : wrap (dynAt dyn n + 16) = dynAt dyn (n + 1) := by
      unfold dynAt wrap
      rw [Nat.mod_add_mod]
      congr 1
    by_cases hnull : dynTag m dyn n = 0
    · have hend : DynEnd m dyn n := ⟨hnull, hbefore⟩
      have hstop : Decides (if dynTag m dyn n = 0 then pure (dynInfoUpTo m bias dyn n) else do
          let d ← dynamicEntry img m bias (dynAt dyn n) (dynTag m dyn n) (dynInfoUpTo m bias dyn n)
          dynamicFrom img m bias fuel (wrap (dynAt dyn n + 16)) d : M DynInfo) True True
          fun d => ∃ k, DynEnd m dyn k ∧ d = dynInfoUpTo m bias dyn k := by
        rw [if_pos hnull]
        exact decides_pure ⟨n, hend, rfl⟩
      have hscan : Decides (dynamicFrom img m bias (fuel + 1) (dynAt dyn n) (dynInfoUpTo m bias dyn n))
          (img.FieldIn (dynAt dyn n) 0 8 ∧ True) True fun d => ∃ k, DynEnd m dyn k ∧ d = dynInfoUpTo m bias dyn k :=
        decides_field_bind fun _ => hstop
      exact hscan.congr ((and_iff_left trivial).trans (scanOk_end hend).symm) (fun _ => Iff.rfl) fun _ h => h
    · have hbefore' : ∀ j < n + 1, dynTag m dyn j ≠ 0 := by
        intro j hj
        rcases Nat.lt_succ_iff_lt_or_eq.mp hj with hlt | rfl
        · exact hbefore j hlt
        · exact hnull
      have hrest : Decides (if dynTag m dyn n = 0 then pure (dynInfoUpTo m bias dyn n) else do
          let d ← dynamicEntry img m bias (dynAt dyn n) (dynTag m dyn n) (dynInfoUpTo m bias dyn n)
          dynamicFrom img m bias fuel (wrap (dynAt dyn n + 16)) d : M DynInfo)
          ((usesValue (dynTag m dyn n) → img.FieldIn (dynAt dyn n) 8 8) ∧ (True → ScanOk img m dyn (n + 1) fuel))
          (True ∧ True) fun d => ∃ k, DynEnd m dyn k ∧ d = dynInfoUpTo m bias dyn k := by
        rw [if_neg hnull, hnext]
        refine decides_bind decides_dynamicEntry fun _ _ d hd => ?_
        rw [hd]
        exact ih hbefore'
      have hscan : Decides (dynamicFrom img m bias (fuel + 1) (dynAt dyn n) (dynInfoUpTo m bias dyn n))
          (img.FieldIn (dynAt dyn n) 0 8 ∧ (usesValue (dynTag m dyn n) → img.FieldIn (dynAt dyn n) 8 8) ∧
            (True → ScanOk img m dyn (n + 1) fuel)) (True ∧ True)
          fun d => ∃ k, DynEnd m dyn k ∧ d = dynInfoUpTo m bias dyn k := decides_field_bind fun _ => hrest
      refine hscan.congr ?_ (fun _ => and_self_iff) fun _ h => h
      rw [scanOk_next hnull, true_imp_iff, ← and_assoc]
      rfl

/-- The whole scan. -/
theorem decides_dynamicInfo (h : st.ctx.dynamic < 2 ^ 64) : Decides (dynamicInfo img st)
    (DynamicOk img st.mem st.ctx.dynamic) True
    fun d => ∃ k, DynEnd st.mem st.ctx.dynamic k ∧ d = dynInfoUpTo st.mem st.ctx.loadBias st.ctx.dynamic k := by
  have hstart : dynAt st.ctx.dynamic 0 = st.ctx.dynamic := Nat.mod_eq_of_lt (by omega)
  have hrun := @decides_dynamicFrom img st.mem st.ctx.loadBias st.ctx.dynamic (2 ^ 64) 0 fun j hj => absurd hj (by omega)
  rw [hstart] at hrun
  refine hrun.congr ?_ (fun _ => Iff.rfl) fun _ h => h
  simp [DynamicOk, ScanOk]

/-! ## The relocations of an image -/

/-- The table `DT_RELA` when the dynamic section ends at entry `k`. -/
def relaTable (ref : Loader) (k : Nat) : Option RelaTable :=
  let d := dynInfoUpTo ref.mem ref.ctx.loadBias ref.ctx.dynamic k
  dynamicTable d.rela d.relaSize ref

/-- The table `DT_JMPREL` when the dynamic section ends at entry `k`. -/
def jmprelTable (ref : Loader) (k : Nat) : Option RelaTable :=
  let d := dynInfoUpTo ref.mem ref.ctx.loadBias ref.ctx.dynamic k
  dynamicTable d.jmprel d.jmprelSize ref

/-- `T` is a table of the dynamic section. -/
def IsDynamicTable (ref : Loader) (T : RelaTable) : Prop :=
  ref.ctx.dynamic ≠ 0 ∧ ∃ k, DynEnd ref.mem ref.ctx.dynamic k ∧ (relaTable ref k = some T ∨ jmprelTable ref k = some T)

/-- `T` is a table of a section. -/
def IsSectionTable (img : Image) (ref : Loader) (T : RelaTable) : Prop :=
  ∃ i < eShnum img ref.mem, sectionRela img ref.mem i = some T

/-- What the relocations must not write to: the image, the tables that lie in the loaded memory, and the loader's own data. -/
def Reserved (img : Image) (ref : Loader) (own : Nat → Prop) (x : Nat) : Prop :=
  img.Has x 1 ∨ own x ∨ ∃ T, IsDynamicTable ref T ∧ T.OwnBytes x

/-- No section's relocations end the loader. -/
def SectionsGoOn (img : Image) (ref : Loader) : Prop := ∀ i < eShnum img ref.mem, SectionGoesOn img ref i

/-- What is read of and through the two tables of the dynamic section when it ends at entry `k`. -/
def DynTablesOk (img : Image) (ref : Loader) (k : Nat) : Prop :=
  (ForTable (relaTable ref k) fun T => T.TableOk img ref) ∧
    ((ForTable (relaTable ref k) fun T => T.AllGoOn img ref) → ForTable (jmprelTable ref k) fun T => T.TableOk img ref)

/-- No relocation of these tables ends the loader. -/
def DynTablesGoOn (img : Image) (ref : Loader) (k : Nat) : Prop :=
  (ForTable (relaTable ref k) fun T => T.AllGoOn img ref) ∧ ForTable (jmprelTable ref k) fun T => T.AllGoOn img ref

/-- No relocation ends the loader. -/
def RelocsGoOn (img : Image) (ref : Loader) : Prop :=
  SectionsGoOn img ref ∧ (ref.ctx.dynamic ≠ 0 → ∀ k, DynEnd ref.mem ref.ctx.dynamic k → DynTablesGoOn img ref k)

/-- What `elf_apply_relocations` reads of the image. -/
structure RelocsOk (img : Image) (ref : Loader) : Prop where
  sections : ∀ i < eShnum img ref.mem, (∀ j < i, SectionGoesOn img ref j) → SectionRelocsOk img ref i
  dynamic : SectionsGoOn img ref → ref.ctx.dynamic ≠ 0 → DynamicOk img ref.mem ref.ctx.dynamic
  tables : SectionsGoOn img ref → ref.ctx.dynamic ≠ 0 → ∀ k, DynEnd ref.mem ref.ctx.dynamic k → DynTablesOk img ref k

section Relocs

variable {own : Nat → Prop}

theorem covered_dynamic (hT : IsDynamicTable ref T) : T.Covered img (Reserved img ref own) :=
  ⟨fun _ hx => .inl hx, fun _ _ hx => .inr (.inr ⟨T, hT, hx⟩)⟩

/-- The two tables of the dynamic section. -/
theorem decides_dynamicTables {d : DynInfo} {k : Nat} (hdynamic : ref.ctx.dynamic ≠ 0)
    (hend : DynEnd ref.mem ref.ctx.dynamic k) (hd : d = dynInfoUpTo ref.mem ref.ctx.loadBias ref.ctx.dynamic k)
    (hoff : ∀ T, IsDynamicTable ref T → T.WritesOff ref (Reserved img ref own)) (h : Kept (Reserved img ref own) ref t) :
    Decides (dynamicRela img d.rela d.relaSize t >>= dynamicRela img d.jmprel d.jmprelSize) (DynTablesOk img ref k)
      (DynTablesGoOn img ref k) (Kept (Reserved img ref own) ref) := by
  subst hd
  have htable : ∀ u, Kept (Reserved img ref own) ref u → ∀ table size,
      dynamicRela img table size u = applyTable img u (dynamicTable table size ref) := by
    intro u hu table size
    rw [dynamicRela_eq, dynamicTable, dynamicTable, hu.ctx]
  have happly : ∀ u, Kept (Reserved img ref own) ref u → ∀ table : Option RelaTable,
      (∀ T, table = some T → IsDynamicTable ref T) → Decides (applyTable img u table)
        (ForTable table fun T => T.TableOk img ref) (ForTable table fun T => T.AllGoOn img ref)
        (Kept (Reserved img ref own) ref) :=
    fun u hu table his => decides_applyTable (fun T hT => covered_dynamic (his T hT)) (fun T hT => hoff T (his T hT)) hu
  refine decides_bind (by rw [htable t h]; exact happly t h _ fun T hT => ⟨hdynamic, k, hend, .inl hT⟩) fun _ _ u hu => ?_
  rw [htable u hu]
  exact happly u hu _ fun T hT => ⟨hdynamic, k, hend, .inr hT⟩

/-- The dynamic section with its tables. -/
theorem decides_dynamicSection (hdynamic : ref.ctx.dynamic ≠ 0) (hlt : ref.ctx.dynamic < 2 ^ 64)
    (hoff : ∀ T, IsDynamicTable ref T → T.WritesOff ref (Reserved img ref own)) (h : Kept (Reserved img ref own) ref t) :
    Decides (dynamicInfo img t >>= fun d => dynamicRela img d.rela d.relaSize t >>= dynamicRela img d.jmprel d.jmprelSize)
      (DynamicOk img ref.mem ref.ctx.dynamic ∧ (True → ∀ k, DynEnd ref.mem ref.ctx.dynamic k → DynTablesOk img ref k))
      (True ∧ ∀ k, DynEnd ref.mem ref.ctx.dynamic k → DynTablesGoOn img ref k) (Kept (Reserved img ref own) ref) := by
  have himage : SameImage img t.mem ref.mem := fun x hx => h.mem x (.inl hx)
  have hinfo : dynamicInfo img t = dynamicInfo img ref := by
    unfold dynamicInfo
    rw [h.ctx, himage.dynamicFrom_eq]
  rw [hinfo]
  refine decides_bind (decides_dynamicInfo hlt) ?_
  rintro _ _ d ⟨k, hend, hd⟩
  refine (decides_dynamicTables hdynamic hend hd hoff h).congr ?_ (fun _ => ?_) fun _ h => h
  · exact ⟨fun hok j hj => hend.unique hj ▸ hok, fun hok => hok k hend⟩
  · exact ⟨fun hgo j hj => hend.unique hj ▸ hgo, fun hgo => hgo k hend⟩

/-- **`elf_apply_relocations`** reads the sections, and then the dynamic section and its tables. -/
theorem decides_elfApplyRelocations (hheader : img.HasHeader) (hshdrs : ref.ctx.shdrs = shdrTable img ref.mem)
    (hlt : ref.ctx.dynamic < 2 ^ 64) (hsections : ∀ T, IsSectionTable img ref T → T.WritesOff ref (Reserved img ref own))
    (hoff : ∀ T, IsDynamicTable ref T → T.WritesOff ref (Reserved img ref own)) (h : Kept (Reserved img ref own) ref t) :
    Decides (elfApplyRelocations img t) (RelocsOk img ref) (RelocsGoOn img ref) (Kept (Reserved img ref own) ref) := by
  have hloop := decides_relaSections (K := Reserved img ref own) hheader (fun _ hx => .inl hx) hshdrs
    (fun i hi T hT => hsections T ⟨i, hi, hT⟩) h
  have hdyn : ∀ u, Kept (Reserved img ref own) ref u → Decides
      (if u.ctx.dynamic = 0 then (pure u : M Loader) else dynamicInfo img u >>= fun d =>
        dynamicRela img d.rela d.relaSize u >>= dynamicRela img d.jmprel d.jmprelSize)
      (ref.ctx.dynamic ≠ 0 → DynamicOk img ref.mem ref.ctx.dynamic ∧
        ∀ k, DynEnd ref.mem ref.ctx.dynamic k → DynTablesOk img ref k)
      (ref.ctx.dynamic ≠ 0 → ∀ k, DynEnd ref.mem ref.ctx.dynamic k → DynTablesGoOn img ref k)
      (Kept (Reserved img ref own) ref) := by
    intro u hu
    rw [hu.ctx]
    by_cases hdynamic : ref.ctx.dynamic = 0
    · rw [if_pos hdynamic]
      exact (decides_pure hu).congr (by simp [hdynamic]) (fun _ => by simp [hdynamic]) fun _ h => h
    · rw [if_neg hdynamic]
      exact (decides_dynamicSection hdynamic hlt hoff hu).congr (by simp [hdynamic]) (fun _ => by simp [hdynamic]) fun _ h => h
  refine (decides_bind hloop fun _ _ u hu => hdyn u hu).congr ?_ (fun _ => Iff.rfl) fun _ h => h
  constructor
  · exact fun hok => ⟨hok.1, fun hgo hne => (hok.2 hgo hne).1, fun hgo hne => (hok.2 hgo hne).2⟩
  · exact fun hok => ⟨hok.sections, fun hgo hne => ⟨hok.dynamic hgo hne, hok.tables hgo hne⟩⟩

end Relocs

/-! ## The states of a load -/

/-- The state after `elf_create_context`. -/
def created (img : Image) (st : Loader) : Loader :=
  { st with blocks := st.blocks.tail, ctx := fileContext img st.mem, info := emptyInfo }

/-- The context, the memory and the heap after `elf_load_segments`. -/
def loaded (img : Image) (st : Loader) : Loader :=
  { st with
    ctx := biasedCtx img st
    mem := fun x => (contentUpTo img st.mem (biasedCtx img st) (segmentPages img st) (ePhnum img st.mem) x).getD
      (biasedMem img st x) }

/-- The same after `elf_resolve_symbols`. -/
def resolved (img : Image) (st : Loader) : Loader :=
  st.withTable (entriesOf img st).blocks fun i => (entriesOf img st).items.filter fun e => hashOf e.name = i

/-- The state before the relocations. -/
def ready (img : Image) (st : Loader) : Loader := resolved img (loaded img (created img st))

/-- **What the loader depends on lies in the image**, up to the point where it ends with an error. -/
structure ImageOk (img : Image) (st : Loader) : Prop where
  context : CanCreate img st → ContextOk img st.mem
  segments : CanCreate img st → SegmentsOk img (created img st)
  symbols : CanCreate img st → AllMapped img (created img st) → SymbolsOk img (loaded img (created img st))
  relocs : CanCreate img st → AllMapped img (created img st) → RelocsOk img (ready img st)

/-- No segment is longer in the file than in memory, the pages for the segments are fresh, and no relocation writes to the
image, to the tables of the dynamic section, or to the data of the loader itself, which is at the addresses `own`. -/
structure Calm (img : Image) (st : Loader) (own : Nat → Prop) : Prop where
  sizes : SizesOk st.mem (created img st).ctx (ePhnum img st.mem)
  fresh : Fresh img (created img st)
  sections : AllMapped img (created img st) → ∀ T, IsSectionTable img (ready img st) T →
    T.WritesOff (ready img st) (Reserved img (ready img st) own)
  dynamic : AllMapped img (created img st) → ∀ T, IsDynamicTable (ready img st) T →
    T.WritesOff (ready img st) (Reserved img (ready img st) own)

theorem SameImage.shdrTable {m' : Mem} (h : SameImage img m m') (hheader : img.HasHeader) :
    shdrTable img m = shdrTable img m' := by
  unfold Elf.shdrTable eShnum eShoff
  rw [h.fieldVal (hheader.fieldIn (show 60 + 2 ≤ 64 by omega) (by omega)),
    h.fieldVal (hheader.fieldIn (show 40 + 8 ≤ 64 by omega) (by omega))]

/-- The state after `elf_load_segments` but for the pages and the information for the caller. -/
theorem Loaded.eq_loaded (h : Loaded img st t) : ∃ pages info, t = { loaded img st with pages := pages, info := info } := by
  obtain ⟨mem, pages, blocks, ctx, info⟩ := t
  obtain ⟨⟨hctx, _, hmem, _, hblocks⟩, _⟩ := h
  obtain rfl : ctx = biasedCtx img st := hctx
  obtain rfl : blocks = st.blocks := hblocks
  obtain rfl := funext hmem
  exact ⟨pages, info, rfl⟩

/-- The symbols are resolved in the state before the relocations. -/
theorem kept_ready {K : Nat → Prop} {u : Loader} (ht : Loaded img (created img st) t) (hu : Holding t (entriesOf img t) u) :
    Kept K (ready img st) u := by
  obtain ⟨pages, info, rfl⟩ := ht.eq_loaded
  obtain ⟨table, htable, rfl⟩ := hu
  obtain rfl := funext htable
  exact ⟨rfl, fun _ _ => rfl⟩

theorem symbolsOk_loaded (ht : Loaded img st t) : SymbolsOk img t ↔ SymbolsOk img (loaded img st) := by
  obtain ⟨pages, info, rfl⟩ := ht.eq_loaded
  exact ⟨fun h => ⟨h.symtab, h.dynsym⟩, fun h => ⟨h.symtab, h.dynsym⟩⟩

theorem sectionStart_lt {i : Option Nat} : sectionStart img m i < 2 ^ 64 := by
  cases i with
  | none => exact Nat.two_pow_pos 64
  | some i => exact wrap_lt _

theorem safe_elfSetupTls : Safe (elfSetupTls st) := by
  unfold elfSetupTls
  simp only [safe_ite, safe_pure, safe_throw, implies_true, and_self]

/-- The symbols and the relocations after the segments have been loaded. -/
theorem decides_loaded {own : Nat → Prop} (hheader : img.HasHeader) (hcalm : Calm img st own)
    (hmapped : AllMapped img (created img st)) (ht : Loaded img (created img st) t) :
    Safe (elfResolveSymbols img t >>= fun u => elfApplyRelocations img u >>= elfSetupTls) ↔
      SymbolsOk img (loaded img (created img st)) ∧ RelocsOk img (ready img st) := by
  have hempty : ∀ i, t.ctx.symbolHash i = [] := by
    intro i
    rw [ht.upTo.ctx]
    rfl
  have hsame : SameImage img (ready img st).mem st.mem := by
    obtain ⟨pages, info, rfl⟩ := ht.eq_loaded
    exact ht.upTo.image
  have hdynamic : (ready img st).ctx.dynamic < 2 ^ 64 := sectionStart_lt
  have hshdrs : (ready img st).ctx.shdrs = shdrTable img (ready img st).mem := (hsame.shdrTable hheader).symm
  have hsymbols : Decides (elfResolveSymbols img t) (SymbolsOk img (loaded img (created img st))) True
      (Holding t (entriesOf img t)) :=
    (decides_elfResolveSymbols hempty).congr (symbolsOk_loaded ht) (fun _ => Iff.rfl) fun _ h => h
  rw [hsymbols.safe_bind fun _ _ u hu => ?_, forall_const]
  rw [safe_bind, and_iff_left fun _ _ => safe_elfSetupTls]
  exact (decides_elfApplyRelocations hheader hshdrs hdynamic (hcalm.sections hmapped) (hcalm.dynamic hmapped)
    (kept_ready ht hu)).safe_iff

theorem safe_elfLoadSteps {own : Nat → Prop} (h : CanCreate img st → Calm img st own) :
    Safe (elfLoadSteps img st) ↔ ImageOk img st := by
  have hcreated : Decides (elfCreateContext img { st with info := emptyInfo }) (CanCreate img st → ContextOk img st.mem)
      (CanCreate img st) fun s => s = created img st := decides_elfCreateContext
  have hrest : CanCreate img st → (Safe (elfLoadSegments img (created img st) >>= fun t =>
      elfResolveSymbols img t >>= fun u => elfApplyRelocations img u >>= elfSetupTls) ↔
      SegmentsOk img (created img st) ∧ (AllMapped img (created img st) →
        SymbolsOk img (loaded img (created img st)) ∧ RelocsOk img (ready img st))) := by
    intro hcreate
    have hheader := hasHeader_of_elfValidate hcreate.1
    have hcalm := h hcreate
    have hsegments := @decides_elfLoadSegments img (created img st)
      (hheader.fieldIn (show 56 + 2 ≤ 64 by omega) (by omega)) hcalm.sizes hcalm.fresh
    exact hsegments.safe_bind fun _ hmapped t ht => decides_loaded hheader hcalm hmapped ht
  have hsteps : Safe (elfLoadSteps img st) ↔ (CanCreate img st → ContextOk img st.mem) ∧ (CanCreate img st →
      SegmentsOk img (created img st) ∧ (AllMapped img (created img st) →
        SymbolsOk img (loaded img (created img st)) ∧ RelocsOk img (ready img st))) := by
    refine hcreated.safe_bind fun _ hcreate s hs => ?_
    rw [hs]
    exact hrest hcreate
  rw [hsteps]
  constructor
  · rintro ⟨hcontext, hsegments⟩
    exact ⟨hcontext, fun hc => (hsegments hc).1, fun hc hm => ((hsegments hc).2 hm).1, fun hc hm => ((hsegments hc).2 hm).2⟩
  · exact fun hok => ⟨hok.context, fun hc => ⟨hok.segments hc, fun hm => ⟨hok.symbols hc hm, hok.relocs hc hm⟩⟩⟩

/-- **What the loader reads**: `elf_load` returns a code without a read outside of the image exactly when everything it
depends on lies there. -/
theorem elfLoad_isSome_iff (img : Image) (st : Loader) (own : Nat → Prop) (h : CanCreate img st → Calm img st own) :
    (elfLoad img st).isSome = true ↔ ImageOk img st := by
  rw [← safe_elfLoadSteps h]
  unfold elfLoad Safe
  rcases (elfLoadSteps img st : Option (Except Int Loader)) with _ | (e | s) <;> simp

/-! ## Two images -/

/-- The load of the image with an undefined symbol, up to the relocations of its four sections. -/
def danglingSections : M Loader := do
  let s ← elfCreateContext danglingImage { danglingLoader with info := emptyInfo }
  let s ← elfLoadSegments danglingImage s
  let s ← elfResolveSymbols danglingImage s
  forLoop (relaSectionStep danglingImage) 4 s

theorem returns_danglingSections : ∃ u, Returns danglingSections u ∧ eShnum danglingImage u.mem = 4 ∧ u.ctx.dynamic = 0 ∧
    u.info.hasTls = false := by
  have hrun : Returns (danglingSections >>= fun u => pure (decide (eShnum danglingImage u.mem = 4 ∧ u.ctx.dynamic = 0 ∧
      u.info.hasTls = false))) true := returns_of_value? (by decide +kernel)
  obtain ⟨u, hsections, hu⟩ := returns_bind.mp hrun
  exact ⟨u, hsections, of_decide_eq_true (returns_pure.mp hu)⟩

theorem elfLoad_of_returns {u : Loader} (h : Returns (elfLoadSteps img st) u) : elfLoad img st = some 0 := by
  unfold elfLoad
  rw [show elfLoadSteps img st = (some (.ok u) : Option (Except Int Loader)) from h]

theorem elfLoad_dangling : elfLoad danglingImage danglingLoader = some 0 := by
  have hin : danglingImage.FieldIn danglingImage.data 60 2 := by
    unfold Image.FieldIn
    decide
  obtain ⟨u, hsections, hnum, hdynamic, htls⟩ := returns_danglingSections
  obtain ⟨s₀, hcreate, hrest⟩ := returns_bind.mp hsections
  obtain ⟨s₁, hload, hrest⟩ := returns_bind.mp hrest
  obtain ⟨s₂, hresolve, hloop⟩ := returns_bind.mp hrest
  have hidle : ∀ i, 4 ≤ i → relaSectionStep danglingImage i u = pure u := by
    intro i hi
    unfold relaSectionStep
    rw [field_bind hin]
    exact if_neg (by rw [show fieldVal u.mem danglingImage.data 60 2 = 4 from hnum]; omega)
  have hrela : Returns (relaSections danglingImage s₂) u := hloop.forLoop_idle (by norm_num) hidle
  have happly : Returns (elfApplyRelocations danglingImage s₂) u := by
    unfold elfApplyRelocations
    rw [hrela.bind]
    exact if_pos hdynamic
  have hsteps : Returns (elfLoadSteps danglingImage danglingLoader) u := by
    unfold elfLoadSteps
    rw [hcreate.bind, hload.bind, hresolve.bind, happly.bind]
    exact if_neg (by rw [htls]; exact Bool.false_ne_true)
  exact elfLoad_of_returns hsteps

/-- What the relocation reads and writes. -/
theorem dangling_table : ePhnum danglingImage danglingLoader.mem = 1 ∧ eType danglingImage danglingLoader.mem = etExec ∧
    segmentAt danglingLoader.mem (created danglingImage danglingLoader).ctx.phdrs 0 = ⟨ptLoad, 0x400000, 0, 0, 8⟩ ∧
    eShnum danglingImage (ready danglingImage danglingLoader).mem = 4 ∧
    (∀ i < 4, ∀ T ∈ sectionRela danglingImage (ready danglingImage danglingLoader).mem i, T.count = 1 ∧
      T.ref (ready danglingImage danglingLoader).mem (ready danglingImage danglingLoader).ctx.loadBias 0 = 0x400000) ∧
    (ready danglingImage danglingLoader).ctx.dynamic = 0 := by
  decide +kernel

/-- The addresses of the loader's own data. -/
def kernelHeap (x : Nat) : Prop := 0x10000 ≤ x ∧ x < 0x20000

theorem calm_dangling : Calm danglingImage danglingLoader kernelHeap := by
  obtain ⟨hnum, htype, hseg, hshnum, htables, hdynamic⟩ := dangling_table
  have hdyn : ∀ T, ¬ IsDynamicTable (ready danglingImage danglingLoader) T := fun T hT => hT.1 hdynamic
  constructor
  · intro i hi _
    obtain rfl : i = 0 := by omega
    rw [hseg]
    decide
  · constructor
    · intro hdyn
      rw [show eType danglingImage (created danglingImage danglingLoader).mem = etExec from htype] at hdyn
      simp [etExec, etDyn] at hdyn
    · intro i hi _
      obtain rfl : i = 0 := by
        rw [show ePhnum danglingImage (created danglingImage danglingLoader).mem = 1 from hnum] at hi
        omega
      unfold FreshPages
      decide +kernel
  · rintro _ T ⟨i, hi, hT⟩ j hj x hx
    rw [hshnum] at hi
    obtain ⟨hcount, href⟩ := htables i hi T hT
    obtain rfl : j = 0 := by omega
    obtain ⟨hlt, hwrites⟩ := hx
    have hwidth := hwrites.trans_le (storeWidth_le _)
    rw [href] at hwidth
    unfold wrap at hwidth
    rintro (himage | hown | ⟨T', hT', _⟩)
    · have hin : 4096 ≤ x ∧ x + 1 ≤ 4096 + 459 := himage
      omega
    · unfold kernelHeap at hown
      omega
    · exact hdyn T' hT'
  · exact fun _ T hT => absurd hT (hdyn T)

theorem elfLoad_isSome_iff_dangling : (elfLoad danglingImage danglingLoader).isSome = true ∧
    ImageOk danglingImage danglingLoader := by
  have hsome : (elfLoad danglingImage danglingLoader).isSome = true := by rw [elfLoad_dangling]; rfl
  exact ⟨hsome, (elfLoad_isSome_iff danglingImage danglingLoader kernelHeap fun _ => calm_dangling).mp hsome⟩

/-- A file header of type `ET_EXEC` for one section header behind the end of the file. -/
def cutHeader : List UInt8 :=
  [0x7F, 0x45, 0x4C, 0x46, 2, 1, 1, 0, 0, 0, 0, 0, 0, 0, 0, 0,
    2, 0, 62, 0, 1, 0, 0, 0, 0, 0, 0, 0, 0, 0, 0, 0,
    0, 0, 0, 0, 0, 0, 0, 0, 64, 0, 0, 0, 0, 0, 0, 0,
    0, 0, 0, 0, 64, 0, 56, 0, 0, 0, 64, 0, 1, 0, 0, 0]

def cutImage : Image := ⟨4096, 64, by norm_num⟩

def cutLoader : Loader := ⟨fun a => cutHeader.getD (a - 4096) 0, [], [true], emptyContext, emptyInfo⟩

/-- `elf_create_context` reads `sh_type` at offset 68 of a file of 64 bytes. -/
theorem elfLoad_cutImage : ¬ ∀ (img : Image) (st : Loader), (elfLoad img st).isSome = true := by
  intro h
  exact absurd (h cutImage cutLoader) (by decide)

end AmqOs.Elf
