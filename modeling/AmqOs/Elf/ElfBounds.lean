import AmqOs.Elf.ElfDefs

/-!
# Reading the headers of an ELF file

The loader checks the file header and nothing else: offsets, counts and indices of the file are used as they are. For the
reads that it does one after the other, a field (`Image.FieldIn`), a comparison (`Image.PrefixIn`), a string (`Image.HasStr`), a
predicate says when they stay inside the image. `elf_create_context` reads the section headers (`ContextOk`), and the context
that it creates is `fileContext`, in which each table is that of the last section of its type (`decides_elfCreateContext`).
-/

set_option autoImplicit false

namespace AmqOs.Elf

open AmqOs.Lib AmqOs.Lib.Guarded

variable {img : Image} {m : Mem} {st : Loader}

/-! ## Fields and strings -/

/-- The field lies in the image. -/
def Image.FieldIn (img : Image) (p off n : Nat) : Prop := img.Has (wrap (p + off)) n

/-- The value of a field. -/
def fieldVal (m : Mem) (p off n : Nat) : Nat := m.loadLE (wrap (p + off)) n

/-- The characters at `a` lie in the image, up to the first that differs from the literal. -/
def Image.PrefixIn (img : Image) (m : Mem) : Nat → List UInt8 → Prop
  | _, [] => True
  | a, c :: literal => img.Has (wrap a) 1 ∧ (m (wrap a) = c → img.PrefixIn m (a + 1) literal)

/-- The literal stands at `a`. -/
def literalAt (m : Mem) : Nat → List UInt8 → Bool
  | _, [] => true
  | a, c :: literal => m (wrap a) = c && literalAt m (a + 1) literal

/-- A string stands at `a`: a zero follows, and nothing before it is outside of the image. -/
def Image.HasStr (img : Image) (m : Mem) (a : Nat) : Prop :=
  ∃ k < 2 ^ 64, m (wrap (a + k)) = 0 ∧ ∀ j ≤ k, img.Has (wrap (a + j)) 1

/-- What is printed of the string at `a` lies in the image. -/
def Image.CanPrint (img : Image) (m : Mem) (a : Nat) : Prop :=
  a ≠ 0 → ∀ k ≤ 255, (∀ j < k, m (wrap (a + j)) ≠ 0) → img.Has (wrap (a + k)) 1

@[simp] theorem safe_read {a n : Nat} : Safe (img.read m a n) ↔ img.Has a n := safe_require

@[simp] theorem returns_read {a n v : Nat} : Returns (img.read m a n) v ↔ img.Has a n ∧ m.loadLE a n = v :=
  returns_require

@[simp] theorem safe_field {p off n : Nat} : Safe (img.field m p off n) ↔ img.FieldIn p off n := safe_require

@[simp] theorem returns_field {p off n v : Nat} :
    Returns (img.field m p off n) v ↔ img.FieldIn p off n ∧ fieldVal m p off n = v := returns_require

/-- A read that is followed by something else. -/
@[simp] theorem safe_field_bind {α : Type} {p off n : Nat} {f : Nat → M α} :
    Safe (img.field m p off n >>= f) ↔ img.FieldIn p off n ∧ Safe (f (fieldVal m p off n)) := by
  rw [safe_bind, safe_field]
  constructor
  · rintro ⟨hin, hrest⟩
    exact ⟨hin, hrest _ (returns_field.mpr ⟨hin, rfl⟩)⟩
  · rintro ⟨hin, hrest⟩
    refine ⟨hin, ?_⟩
    intro v hv
    rw [← (returns_field.mp hv).2]
    exact hrest

theorem returns_field_bind {α : Type} {p off n : Nat} {f : Nat → M α} {b : α} :
    Returns (img.field m p off n >>= f) b ↔ img.FieldIn p off n ∧ Returns (f (fieldVal m p off n)) b := by
  rw [returns_bind]
  constructor
  · rintro ⟨v, hv, hb⟩
    obtain ⟨hin, rfl⟩ := returns_field.mp hv
    exact ⟨hin, hb⟩
  · rintro ⟨hin, hb⟩
    exact ⟨_, returns_field.mpr ⟨hin, rfl⟩, hb⟩

theorem goes_field {p off n : Nat} : Goes (img.field m p off n) fun _ => True := goes_require

theorem goes_field_val {p off n : Nat} : Goes (img.field m p off n) fun v => v = fieldVal m p off n := by
  intro h
  exact ⟨_, returns_field.mpr ⟨safe_field.mp h, rfl⟩, rfl⟩

theorem goes_field_bind {α : Type} {p off n : Nat} {f : Nat → M α} {Q : α → Prop} (h : Goes (f (fieldVal m p off n)) Q) :
    Goes (img.field m p off n >>= f) Q :=
  goes_bind goes_field_val fun _ hv => hv ▸ h

/-- A read that is followed by something that is decided. -/
theorem decides_field_bind {α : Type} {p off n : Nat} {f : Nat → M α} {Q G : Prop} {R : α → Prop}
    (hf : img.FieldIn p off n → Decides (f (fieldVal m p off n)) Q G R) :
    Decides (img.field m p off n >>= f) (img.FieldIn p off n ∧ Q) G R :=
  (decides_bind (goes_field_val.decides safe_field) fun hin _ _ hv => hv ▸ hf hin).congr (by simp) (fun _ => by simp)
    fun _ h => h

theorem decides_field_pure {α : Type} {p off n : Nat} {g : Nat → α} {R : α → Prop}
    (h : img.FieldIn p off n → R (g (fieldVal m p off n))) :
    Decides (img.field m p off n >>= fun v => pure (g v)) (img.FieldIn p off n) True R := by
  refine (decides_field_bind fun hin => decides_pure (R := R) (h hin)).congr ?_ (fun _ => Iff.rfl) fun _ h => h
  exact and_iff_left trivial

theorem fieldVal_lt {p off n : Nat} : fieldVal m p off n < 256 ^ n := Mem.loadLE_lt

theorem field_bind {α : Type} {p off n : Nat} {f : Nat → M α} (h : img.FieldIn p off n) :
    img.field m p off n >>= f = f (fieldVal m p off n) := (returns_field.mpr ⟨h, rfl⟩).bind

theorem loadLE_one (a : Nat) : m.loadLE a 1 = (m a).toNat := by simp [Mem.loadLE]

theorem toNat_eq_zero (b : UInt8) : b.toNat = 0 ↔ b = 0 := by
  rw [← UInt8.toNat_inj]
  rfl

theorem safe_equals {a : Nat} {literal : List UInt8} :
    Safe (img.equals m a literal) ↔ img.PrefixIn m a literal := by
  induction literal generalizing a with
  | nil => simp [Image.equals, Image.PrefixIn]
  | cons c literal ih =>
    simp only [Image.equals, Image.PrefixIn, safe_bind, safe_read, returns_read, loadLE_one, safe_ite, ih]
    constructor
    · rintro ⟨hin, hrest⟩
      refine ⟨hin, ?_⟩
      intro hc
      exact (hrest _ ⟨hin, rfl⟩).1 (by rw [hc])
    · rintro ⟨hin, hrest⟩
      refine ⟨hin, ?_⟩
      rintro b ⟨_, rfl⟩
      exact ⟨fun hc => hrest (UInt8.toNat_inj.mp hc), fun _ => safe_pure _⟩

theorem returns_equals {a : Nat} {literal : List UInt8} (h : img.PrefixIn m a literal) :
    Returns (img.equals m a literal) (literalAt m a literal) := by
  induction literal generalizing a with
  | nil => rfl
  | cons c literal ih =>
    rw [Image.equals, returns_bind]
    refine ⟨(m (wrap a)).toNat, returns_read.mpr ⟨h.1, loadLE_one _⟩, ?_⟩
    by_cases hc : m (wrap a) = c
    · simp only [hc, if_true, literalAt, decide_true, Bool.true_and]
      exact ih (h.2 hc)
    · have hne : ¬ (m (wrap a)).toNat = c.toNat := fun he => hc (UInt8.toNat_inj.mp he)
      simp [hne, literalAt, hc]

/-- A comparison with a literal that is followed by something else. -/
theorem safe_equals_bind {α : Type} {a : Nat} {literal : List UInt8} {f : Bool → M α} :
    Safe (img.equals m a literal >>= f) ↔ img.PrefixIn m a literal ∧ Safe (f (literalAt m a literal)) := by
  rw [safe_bind, safe_equals]
  constructor
  · rintro ⟨hin, hrest⟩
    exact ⟨hin, hrest _ (returns_equals hin)⟩
  · rintro ⟨hin, hrest⟩
    refine ⟨hin, ?_⟩
    intro b hb
    rw [returns_equals hin] at hb
    cases hb
    exact hrest

theorem safe_strFrom {fuel a : Nat} : Safe (img.strFrom m fuel a) ↔
    ∃ k < fuel, m (wrap (a + k)) = 0 ∧ ∀ j ≤ k, img.Has (wrap (a + j)) 1 := by
  induction fuel generalizing a with
  | zero => simp [Image.strFrom, Safe]
  | succ fuel ih =>
    simp only [Image.strFrom, safe_bind, safe_read, returns_read, loadLE_one, safe_ite, ih, safe_pure]
    constructor
    · rintro ⟨hin, hrest⟩
      by_cases hb : m (wrap a) = 0
      · refine ⟨0, by omega, hb, ?_⟩
        intro j hj
        rw [Nat.le_zero.mp hj]
        exact hin
      · obtain ⟨⟨k, hk, hkz, hall⟩, _⟩ := (hrest _ ⟨hin, rfl⟩).2 (fun h => hb ((toNat_eq_zero _).mp h))
        refine ⟨k + 1, by omega, by rwa [show a + (k + 1) = a + 1 + k by omega], ?_⟩
        intro j hj
        cases j with
        | zero => exact hin
        | succ j =>
          have hj' := hall j (by omega)
          rwa [show a + 1 + j = a + (j + 1) by omega] at hj'
    · rintro ⟨k, hk, hkz, hall⟩
      refine ⟨hall 0 (by omega), ?_⟩
      rintro b ⟨_, rfl⟩
      refine ⟨fun _ => trivial, fun hb => ⟨?_, fun _ _ => trivial⟩⟩
      cases k with
      | zero => exact absurd ((toNat_eq_zero _).mpr hkz) hb
      | succ k =>
        refine ⟨k, by omega, by rwa [show a + 1 + k = a + (k + 1) by omega], ?_⟩
        intro j hj
        rw [show a + 1 + j = a + (j + 1) by omega]
        exact hall (j + 1) (by omega)

theorem safe_str {a : Nat} : Safe (img.str m a) ↔ img.HasStr m a := safe_strFrom

theorem goes_str {a : Nat} : Goes (img.str m a) fun _ => True := by
  have hgo : ∀ fuel a, Goes (img.strFrom m fuel a) fun _ => True := by
    intro fuel
    induction fuel with
    | zero => exact fun a h => absurd rfl h
    | succ fuel ih =>
      intro a
      refine goes_bind goes_require fun _ _ => goes_ite (goes_pure trivial) ?_
      exact goes_bind (ih (a + 1)) fun _ _ => goes_pure trivial
  exact hgo _ a

/-- The string at `a`, if there is one. -/
def Image.nameAt (img : Image) (m : Mem) (a : Nat) : List UInt8 :=
  match (img.str m a : Option (Except Int (List UInt8))) with
  | some (.ok s) => s
  | _ => []

theorem nameAt_eq {a : Nat} {s : List UInt8} (h : Returns (img.str m a) s) : img.nameAt m a = s := by
  unfold Image.nameAt
  rw [show (img.str m a : Option (Except Int (List UInt8))) = some (.ok s) from h]

theorem returns_nameAt {a : Nat} (h : img.HasStr m a) : Returns (img.str m a) (img.nameAt m a) := by
  obtain ⟨s, hs, _⟩ := goes_str (safe_str.mpr h)
  rwa [nameAt_eq hs]

theorem goes_nameAt_bind {α : Type} {a : Nat} {f : List UInt8 → M α} {Q : α → Prop} (h : Goes (f (img.nameAt m a)) Q) :
    Goes (img.str m a >>= f) Q :=
  goes_bind (P := fun s => s = img.nameAt m a) (fun h => ⟨_, returns_nameAt (safe_str.mp h), rfl⟩) fun _ hs => hs ▸ h

theorem decides_nameAt_bind {α : Type} {a : Nat} {f : List UInt8 → M α} {Q G : Prop} {R : α → Prop}
    (hf : img.HasStr m a → Decides (f (img.nameAt m a)) Q G R) :
    Decides (img.str m a >>= f) (img.HasStr m a ∧ Q) G R := by
  have hname : Goes (img.str m a) fun s => s = img.nameAt m a := fun h => ⟨_, returns_nameAt (safe_str.mp h), rfl⟩
  refine (decides_bind (hname.decides safe_str) fun hstr _ s hs => hs ▸ hf hstr).congr ?_ (fun _ => ?_) fun _ h => h
  · simp
  · simp

theorem safe_nameAt_bind {α : Type} {a : Nat} {f : List UInt8 → M α} :
    Safe (img.str m a >>= f) ↔ img.HasStr m a ∧ Safe (f (img.nameAt m a)) := by
  rw [safe_bind, safe_str]
  refine and_congr_right fun hstr => ⟨fun h => h _ (returns_nameAt hstr), fun h s hs => ?_⟩
  rwa [nameAt_eq hs] at h

theorem safe_printFrom {n a : Nat} : Safe (img.printFrom m n a) ↔
    ∀ k ≤ n, (∀ j < k, m (wrap (a + j)) ≠ 0) → img.Has (wrap (a + k)) 1 := by
  induction n generalizing a with
  | zero =>
    simp only [Image.printFrom, safe_bind, safe_read, safe_pure]
    simp
  | succ n ih =>
    simp only [Image.printFrom, safe_bind, safe_read, returns_read, loadLE_one, safe_ite, ih, safe_pure]
    constructor
    · rintro ⟨hin, hrest⟩ k hk hne
      cases k with
      | zero => exact hin
      | succ k =>
        have hb : ¬ (m (wrap a)).toNat = 0 := fun h => hne 0 (by omega) ((toNat_eq_zero _).mp h)
        have hk' := (hrest _ ⟨hin, rfl⟩).2 hb k (by omega) (fun j hj => by
          rw [show a + 1 + j = a + (j + 1) by omega]
          exact hne (j + 1) (by omega))
        rwa [show a + 1 + k = a + (k + 1) by omega] at hk'
    · intro hall
      refine ⟨hall 0 (by omega) (fun j hj => absurd hj (by omega)), ?_⟩
      rintro b ⟨_, rfl⟩
      refine ⟨fun _ => trivial, fun hb k hk hne => ?_⟩
      rw [show a + 1 + k = a + (k + 1) by omega]
      refine hall (k + 1) (by omega) fun j hj => ?_
      cases j with
      | zero => exact fun h => hb ((toNat_eq_zero _).mpr h)
      | succ j =>
        rw [show a + (j + 1) = a + 1 + j by omega]
        exact hne j (by omega)

theorem safe_print {a : Nat} : Safe (img.print m a) ↔ img.CanPrint m a := by
  unfold Image.print Image.CanPrint
  rw [safe_ite, safe_printFrom]
  simp

theorem goes_printFrom {n a : Nat} : Goes (img.printFrom m n a) fun _ => True := by
  induction n generalizing a with
  | zero => exact goes_bind goes_require fun _ _ => goes_pure trivial
  | succ n ih => exact goes_bind goes_require fun _ _ => goes_ite (goes_pure trivial) ih

theorem goes_print {a : Nat} : Goes (img.print m a) fun _ => True := goes_ite (goes_pure trivial) goes_printFrom

theorem safe_print_bind {α : Type} {a : Nat} {f : Unit → M α} :
    Safe (img.print m a >>= f) ↔ img.CanPrint m a ∧ (Returns (img.print m a) () → Safe (f ())) := by
  rw [safe_bind, safe_print]
  exact ⟨fun h => ⟨h.1, h.2 ()⟩, fun h => ⟨h.1, fun _ => h.2⟩⟩

/-! ## `elf_validate` and `elf_create_context` -/

/-- There is a file header. -/
def Image.HasHeader (img : Image) : Prop := img.data ≠ 0 ∧ 64 ≤ img.size

theorem Image.HasHeader.fieldIn (h : img.HasHeader) {off n : Nat} (hoff : off + n ≤ 64) (hn : 0 < n) :
    img.FieldIn img.data off n := by
  have hfits := img.fits
  have hsize := h.2
  have hwrap : wrap (img.data + off) = img.data + off := Nat.mod_eq_of_lt (by omega)
  unfold Image.FieldIn Image.Has
  rw [hwrap]
  omega

theorem safe_check (h : img.HasHeader) {off n : Nat} (hoff : off + n ≤ 64) (hn : 0 < n) {good : Nat → Bool} {code : Int}
    {rest : M Int} (hrest : Safe rest) : Safe (img.check m off n good code rest) := by
  unfold Image.check
  rw [safe_field_bind, safe_ite]
  exact ⟨h.fieldIn hoff hn, fun _ => hrest, fun _ => safe_pure _⟩

theorem safe_checkTable (h : img.HasHeader) {entsize num size : Nat} (hent : entsize + 2 ≤ 64) (hnum : num + 2 ≤ 64)
    {rest : M Int} (hrest : Safe rest) : Safe (img.checkTable m entsize num size rest) := by
  unfold Image.checkTable
  rw [safe_field_bind, safe_ite, safe_field_bind, safe_ite]
  exact ⟨h.fieldIn hent (by omega), fun _ => hrest, fun _ => ⟨h.fieldIn hnum (by omega), fun _ => safe_pure _,
    fun _ => hrest⟩⟩

theorem safe_elfValidate (img : Image) (m : Mem) : Safe (elfValidate img m) := by
  unfold elfValidate
  split
  · exact safe_pure _
  · rename_i hbad
    have h : img.HasHeader := ⟨fun h0 => hbad (.inl h0), by omega⟩
    apply safe_check h (by omega) (by omega)
    apply safe_check h (by omega) (by omega)
    apply safe_check h (by omega) (by omega)
    apply safe_check h (by omega) (by omega)
    apply safe_check h (by omega) (by omega)
    apply safe_check h (by omega) (by omega)
    apply safe_check h (by omega) (by omega)
    apply safe_check h (by omega) (by omega)
    apply safe_check h (by omega) (by omega)
    apply safe_check h (by omega) (by omega)
    apply safe_checkTable h (by omega) (by omega)
    apply safe_checkTable h (by omega) (by omega)
    exact safe_pure _

/-- An accepted image has a file header. -/
theorem hasHeader_of_elfValidate (h : Returns (elfValidate img m) 0) : img.HasHeader := by
  unfold elfValidate at h
  split at h
  · cases h
  · rename_i hbad
    exact ⟨fun h0 => hbad (.inl h0), by omega⟩

/-- What `elf_create_context` reads of and through a section header. -/
def SectionOk (img : Image) (m : Mem) (shdrs shstrtab i : Nat) : Prop :=
  let shdr := wrap (shdrs + 64 * i)
  let shType := fieldVal m shdr 4 4
  let name := wrap (shstrtab + fieldVal m shdr 0 4)
  img.FieldIn shdr 4 4 ∧
    (shType = shtStrtab ∧ shstrtab ≠ 0 → img.FieldIn shdr 0 4 ∧ img.PrefixIn m name strtabName ∧
      img.PrefixIn m name dynstrName ∧
      (literalAt m name strtabName ∨ literalAt m name dynstrName → img.FieldIn shdr 24 8)) ∧
    (shType = shtSymtab ∨ shType = shtDynsym → img.FieldIn shdr 24 8 ∧ img.FieldIn shdr 32 8) ∧
    (shType = shtDynamic → img.FieldIn shdr 24 8)

/-- A name that is `.strtab` is compared with `.dynstr` up to its second character, which lies in the image. -/
theorem prefixIn_dynstr {a : Nat} (hin : img.PrefixIn m a strtabName) (hat : literalAt m a strtabName = true) :
    img.PrefixIn m a dynstrName := by
  simp only [literalAt, strtabName, Bool.and_eq_true, decide_eq_true_eq] at hat
  simp only [Image.PrefixIn, strtabName, dynstrName] at hin ⊢
  refine ⟨hin.1, fun _ => ⟨(hin.2 hat.1).1, fun h => ?_⟩⟩
  rw [hat.2.1] at h
  exact absurd h (by decide)

theorem safe_contextSection {ctx : ElfContext} {i : Nat} :
    Safe (contextSection img m i ctx) ↔ SectionOk img m ctx.shdrs ctx.shstrtab i := by
  unfold contextSection SectionOk
  simp only [safe_field_bind, safe_ite, safe_equals_bind, safe_pure]
  generalize wrap (ctx.shdrs + 64 * i) = shdr
  have hdyn := @prefixIn_dynstr img m (wrap (ctx.shstrtab + fieldVal m shdr 0 4))
  grind [shtStrtab, shtSymtab, shtDynsym, shtDynamic]

/-- The fields of the file header that the loader uses. -/
def ePhnum (img : Image) (m : Mem) : Nat := fieldVal m img.data 56 2
def eShnum (img : Image) (m : Mem) : Nat := fieldVal m img.data 60 2
def eShoff (img : Image) (m : Mem) : Nat := fieldVal m img.data 40 8
def eShstrndx (img : Image) (m : Mem) : Nat := fieldVal m img.data 62 2

/-- The program header table. -/
def phdrTable (img : Image) (m : Mem) : Nat := if ePhnum img m > 0 then wrap (img.data + fieldVal m img.data 32 8) else 0

/-- The section header table. -/
def shdrTable (img : Image) (m : Mem) : Nat := if eShnum img m > 0 then wrap (img.data + eShoff img m) else 0

/-- There is a section with the names of the sections. -/
def HasShstrtab (img : Image) (m : Mem) : Prop :=
  eShnum img m > 0 ∧ eShstrndx img m ≠ 0 ∧ eShstrndx img m < eShnum img m

instance : Decidable (HasShstrtab img m) := inferInstanceAs (Decidable (_ ∧ _))

/-- The names of the sections. -/
def shstrtabOf (img : Image) (m : Mem) : Nat :=
  if HasShstrtab img m then
    wrap (img.data + fieldVal m (wrap (shdrTable img m + 64 * eShstrndx img m)) 24 8)
  else 0

/-- What `elf_create_context` reads of the image after the file header. -/
def ContextOk (img : Image) (m : Mem) : Prop :=
  (HasShstrtab img m → img.FieldIn (wrap (shdrTable img m + 64 * eShstrndx img m)) 24 8) ∧
    ∀ i < eShnum img m, SectionOk img m (shdrTable img m) (shstrtabOf img m) i

/-! ## The context of a file -/

/-- The last number below `n` that satisfies `p`. -/
def lastBelow (p : Nat → Bool) : Nat → Option Nat
  | 0 => none
  | n + 1 => if p n then some n else lastBelow p n

/-- A field of section header `i`. -/
def sectionField (img : Image) (m : Mem) (i off n : Nat) : Nat := fieldVal m (wrap (shdrTable img m + 64 * i)) off n

/-- Section header `i` has the type. -/
def hasType (img : Image) (m : Mem) (shType i : Nat) : Bool := sectionField img m i 4 4 = shType

/-- Section header `i` is that of the string table with this name. -/
def isStrtab (img : Image) (m : Mem) (name : List UInt8) (i : Nat) : Bool :=
  hasType img m shtStrtab i && shstrtabOf img m ≠ 0 && literalAt m (wrap (shstrtabOf img m + sectionField img m i 0 4)) name

/-- The data of the section, if there is one. -/
def sectionStart (img : Image) (m : Mem) (i : Option Nat) : Nat :=
  i.elim 0 fun i => wrap (img.data + sectionField img m i 24 8)

/-- The number of symbols of the section, if there is one. -/
def sectionSymbols (img : Image) (m : Mem) (i : Option Nat) : Nat := i.elim 0 fun i => sectionField img m i 32 8 / 24

/-- The context that the first `n` section headers give. -/
def contextUpTo (img : Image) (m : Mem) (n : Nat) : ElfContext where
  phdrs := phdrTable img m
  shdrs := shdrTable img m
  shstrtab := shstrtabOf img m
  strtab := sectionStart img m (lastBelow (isStrtab img m strtabName) n)
  dynstr := sectionStart img m (lastBelow (isStrtab img m dynstrName) n)
  symtab := sectionStart img m (lastBelow (hasType img m shtSymtab) n)
  dynsym := sectionStart img m (lastBelow (hasType img m shtDynsym) n)
  symtabCount := sectionSymbols img m (lastBelow (hasType img m shtSymtab) n)
  dynsymCount := sectionSymbols img m (lastBelow (hasType img m shtDynsym) n)
  dynamic := sectionStart img m (lastBelow (hasType img m shtDynamic) n)
  symbolHash := fun _ => []
  loadBias := 0

/-- The context that the file gives. -/
def fileContext (img : Image) (m : Mem) : ElfContext := contextUpTo img m (eShnum img m)

/-- The two names are different. -/
theorem literalAt_dynstr {a : Nat} (h : literalAt m a strtabName = true) : literalAt m a dynstrName = false := by
  simp only [literalAt, strtabName, Bool.and_eq_true, decide_eq_true_eq] at h
  simp [literalAt, dynstrName, h.2.1]

theorem goes_equals_bind {α : Type} {a : Nat} {literal : List UInt8} {f : Bool → M α} {Q : α → Prop}
    (h : Goes (f (literalAt m a literal)) Q) : Goes (img.equals m a literal >>= f) Q :=
  goes_bind (P := fun b => b = literalAt m a literal) (fun hsafe => ⟨_, returns_equals (safe_equals.mp hsafe), rfl⟩)
    fun _ hb => hb ▸ h

/-- A section header adds its table to the context. -/
theorem goes_contextSection {i : Nat} :
    Goes (contextSection img m i (contextUpTo img m i)) fun ctx => ctx = contextUpTo img m (i + 1) := by
  have hfield : ∀ off n, fieldVal m (wrap (shdrTable img m + 64 * i)) off n = sectionField img m i off n := fun _ _ => rfl
  unfold contextSection
  refine goes_field_bind ?_
  rw [show (contextUpTo img m i).shdrs = shdrTable img m from rfl,
    show (contextUpTo img m i).shstrtab = shstrtabOf img m from rfl, hfield]
  split
  · rename_i hstr
    refine goes_field_bind (goes_equals_bind ?_)
    rw [hfield]
    split
    · rename_i hname
      have hdyn := literalAt_dynstr hname
      refine goes_field_bind (goes_pure ?_)
      simp [contextUpTo, lastBelow, hasType, isStrtab, sectionStart, hstr, hname, hdyn, hfield, shtStrtab, shtSymtab, shtDynsym,
        shtDynamic]
    · rename_i hname
      refine goes_equals_bind ?_
      split
      · rename_i hdyn
        refine goes_field_bind (goes_pure ?_)
        simp [contextUpTo, lastBelow, hasType, isStrtab, sectionStart, hstr, hname, hdyn, hfield, shtStrtab, shtSymtab,
          shtDynsym, shtDynamic]
      · rename_i hdyn
        refine goes_pure ?_
        simp [contextUpTo, lastBelow, hasType, isStrtab, hstr, hname, hdyn, shtStrtab, shtSymtab, shtDynsym, shtDynamic]
  · rename_i hstr
    have hno : ∀ name, isStrtab img m name i = false := by
      intro name
      simp only [isStrtab, hasType, Bool.and_eq_false_iff, decide_eq_false_iff_not]
      tauto
    split
    · rename_i htype
      refine goes_field_bind (goes_field_bind (goes_pure ?_))
      simp [contextUpTo, lastBelow, hasType, hno, sectionStart, sectionSymbols, htype, hfield, shtSymtab, shtDynsym, shtDynamic]
    split
    · rename_i htype
      refine goes_field_bind (goes_field_bind (goes_pure ?_))
      simp [contextUpTo, lastBelow, hasType, hno, sectionStart, sectionSymbols, htype, hfield, shtSymtab, shtDynsym, shtDynamic]
    split
    · rename_i htype
      refine goes_field_bind (goes_pure ?_)
      simp [contextUpTo, lastBelow, hasType, hno, sectionStart, htype, hfield, shtSymtab, shtDynsym, shtDynamic]
    · rename_i hsymtab hdynsym hdynamic
      refine goes_pure ?_
      simp [contextUpTo, lastBelow, hasType, hno, hsymtab, hdynsym, hdynamic]

theorem decides_contextSection {i : Nat} : Decides (contextSection img m i (contextUpTo img m i))
    (SectionOk img m (shdrTable img m) (shstrtabOf img m) i) True fun ctx => ctx = contextUpTo img m (i + 1) :=
  goes_contextSection.decides safe_contextSection

/-- The tables of the file header are a context without sections. -/
theorem goes_contextTables : Goes (contextTables img m) fun r => r = (eShnum img m, contextUpTo img m 0) := by
  unfold contextTables
  refine goes_field_bind (goes_field_bind (goes_field_bind (goes_field_bind (goes_field_bind ?_))))
  by_cases hstr : HasShstrtab img m
  · refine (congrArg (Goes · _) (if_pos hstr)).mpr (goes_field_bind (goes_pure ?_))
    rw [contextUpTo, shstrtabOf, if_pos hstr]
    rfl
  · refine (congrArg (Goes · _) (if_neg hstr)).mpr (goes_pure ?_)
    rw [contextUpTo, shstrtabOf, if_neg hstr]
    rfl

theorem decides_contextTables (h : img.HasHeader) : Decides (contextTables img m)
    (HasShstrtab img m → img.FieldIn (wrap (shdrTable img m + 64 * eShstrndx img m)) 24 8) True
    fun r => r = (eShnum img m, contextUpTo img m 0) := by
  refine goes_contextTables.decides ?_
  unfold contextTables
  simp only [safe_field_bind, safe_ite, safe_pure, h.fieldIn (show 56 + 2 ≤ 64 by omega) (by omega),
    h.fieldIn (show 32 + 8 ≤ 64 by omega) (by omega), h.fieldIn (show 60 + 2 ≤ 64 by omega) (by omega),
    h.fieldIn (show 40 + 8 ≤ 64 by omega) (by omega), h.fieldIn (show 62 + 2 ≤ 64 by omega) (by omega), true_and,
    and_true, implies_true]
  rfl

theorem goes_check {off n : Nat} {good : Nat → Bool} {code : Int} {rest : M Int} (hrest : Goes rest fun _ => True) :
    Goes (img.check m off n good code rest) fun _ => True :=
  goes_field_bind (goes_ite hrest (goes_pure trivial))

theorem goes_checkTable {entsize num size : Nat} {rest : M Int} (hrest : Goes rest fun _ => True) :
    Goes (img.checkTable m entsize num size rest) fun _ => True :=
  goes_field_bind (goes_ite hrest (goes_field_bind (goes_ite (goes_pure trivial) hrest)))

theorem goes_elfValidate : Goes (elfValidate img m) fun _ => True := by
  unfold elfValidate
  refine goes_ite (goes_pure trivial) ?_
  exact goes_check <| goes_check <| goes_check <| goes_check <| goes_check <| goes_check <| goes_check <| goes_check <|
    goes_check <| goes_check <| goes_checkTable <| goes_checkTable <| goes_pure trivial

/-- A context is created for a valid image, if there is memory. -/
def CanCreate (img : Image) (st : Loader) : Prop := Returns (elfValidate img st.mem) 0 ∧ st.blocks.headD false = true

/-- **`elf_create_context`** reads the section headers of a valid image, and creates the context of the file. -/
theorem decides_elfCreateContext : Decides (elfCreateContext img st) (CanCreate img st → ContextOk img st.mem)
    (CanCreate img st) fun s => s = { st with blocks := st.blocks.tail, ctx := fileContext img st.mem } := by
  by_cases hcreate : CanCreate img st
  · have hbody : elfCreateContext img st = contextTables img st.mem >>= fun x =>
        forLoop (contextSection img st.mem) x.1 x.2 >>= fun ctx =>
          pure { st with blocks := st.blocks.tail, ctx := ctx } := by
      unfold elfCreateContext
      rw [hcreate.1.bind, if_neg (by simp)]
      exact if_pos hcreate.2
    have hheader := hasHeader_of_elfValidate hcreate.1
    have hloop : Decides (forLoop (contextSection img st.mem) (eShnum img st.mem) (contextUpTo img st.mem 0) >>= fun ctx =>
        (pure { st with blocks := st.blocks.tail, ctx := ctx } : M Loader))
        (∀ i < eShnum img st.mem, SectionOk img st.mem (shdrTable img st.mem) (shstrtabOf img st.mem) i) True
        fun s => s = { st with blocks := st.blocks.tail, ctx := fileContext img st.mem } := by
      refine (decides_bind (decides_forLoop (fun i ctx => ctx = contextUpTo img st.mem i) rfl
        fun i _ ctx hctx => hctx ▸ decides_contextSection) fun _ _ ctx hctx => decides_pure ?_).congr ?_ ?_ fun _ h => h
      · rw [hctx]
        rfl
      · simp
      · simp
    rw [hbody]
    refine (decides_bind (decides_contextTables hheader) fun _ _ r hr => by rw [hr]; exact hloop).congr ?_ ?_
      fun _ h => h
    · simp [hcreate, ContextOk]
    · simp [hcreate]
  · have hrefused : elfCreateContext img st = throw elfErrorInvalid := by
      obtain ⟨code, hcode, _⟩ := goes_elfValidate (safe_elfValidate img st.mem)
      unfold elfCreateContext
      rw [hcode.bind]
      by_cases hzero : code = 0
      · subst hzero
        rw [if_neg (by simp)]
        exact if_neg fun hgot => hcreate ⟨hcode, hgot⟩
      · exact if_pos hzero
    rw [hrefused]
    exact decides_throw.congr (by simp [hcreate]) (fun _ => by simp [hcreate]) fun _ h => h

end AmqOs.Elf
