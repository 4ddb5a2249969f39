import AmqOs.Elf.ElfBounds

/-!
# Where the ELF loader puts the segments

A segment is copied to the pages that `pmm_alloc_pages` returned for it, while the headers promise its bytes at
`p_vaddr + load_bias`. `contentUpTo` says what the loader puts where, given those pages; after `elf_load_segments` memory
holds that, and what it held before everywhere else (`elfLoadSegments_mem`). So the segments are where the headers say
exactly when the pages are such that this is what is there (`elfLoadSegments_placed_iff`), as it is when each segment gets
the pages at its own address (`backed_of_ownPages`).
-/

set_option autoImplicit false

namespace AmqOs.Elf

open AmqOs.Lib AmqOs.Lib.Guarded

variable {img : Image} {m : Mem} {st : Loader}

/-! ## Segments -/

/-- The fields of a program header. -/
structure Segment where
  pType : Nat
  vaddr : Nat
  offset : Nat
  filesz : Nat
  memsz : Nat
  deriving DecidableEq

/-- The program header `i`. -/
def segmentAt (m : Mem) (phdrs i : Nat) : Segment :=
  let phdr := wrap (phdrs + 56 * i)
  ⟨fieldVal m phdr 0 4, fieldVal m phdr 16 8, fieldVal m phdr 8 8, fieldVal m phdr 32 8, fieldVal m phdr 40 8⟩

/-- The address that the headers promise. -/
def Segment.addr (seg : Segment) (ctx : ElfContext) : Nat := wrap (seg.vaddr + ctx.loadBias)

/-- The length of the pages for the segment. -/
def Segment.pagesLen (seg : Segment) (ctx : ElfContext) : Nat := mappedSize (seg.addr ctx) seg.memsz

/-- Byte `k` of a segment: from the file, or zero. -/
def Segment.byte (seg : Segment) (img : Image) (m : Mem) (k : Nat) : UInt8 :=
  if k < seg.filesz then m (wrap (wrap (img.data + seg.offset) + k)) else 0

/-- The number of segments before `i` that are loaded. -/
def loadsBefore (m : Mem) (phdrs : Nat) : Nat → Nat
  | 0 => 0
  | i + 1 => loadsBefore m phdrs i + if (segmentAt m phdrs i).pType = ptLoad then 1 else 0

/-- The pages that were returned for segment `i`. -/
def pagesOf (m : Mem) (phdrs : Nat) (pages : List Nat) (i : Nat) : Nat := pages.getD (loadsBefore m phdrs i) 0

/-- What the loader puts at an address of the pages `page` of a segment. -/
def Segment.contentAt (seg : Segment) (img : Image) (m : Mem) (ctx : ElfContext) (page x : Nat) : UInt8 :=
  let start := page + seg.addr ctx % 4096
  if start ≤ x ∧ x < start + seg.filesz then seg.byte img m (x - start) else 0

/-- What the first `n` program headers put at an address. -/
def contentUpTo (img : Image) (m : Mem) (ctx : ElfContext) (pages : List Nat) : Nat → Nat → Option UInt8
  | 0, _ => none
  | i + 1, x =>
    let seg := segmentAt m ctx.phdrs i
    let page := pagesOf m ctx.phdrs pages i
    if seg.pType = ptLoad ∧ page ≤ x ∧ x < page + seg.pagesLen ctx then some (seg.contentAt img m ctx page x)
    else contentUpTo img m ctx pages i x

/-- The segments are where the headers say, and so is the entry point. -/
structure Placed (img : Image) (m : Mem) (s : Loader) : Prop where
  segments : ∀ i < ePhnum img m, (segmentAt m s.ctx.phdrs i).pType = ptLoad →
    ∀ k < (segmentAt m s.ctx.phdrs i).memsz,
      s.mem (wrap ((segmentAt m s.ctx.phdrs i).addr s.ctx + k)) = (segmentAt m s.ctx.phdrs i).byte img m k
  entry : s.info.entryPoint = wrap (fieldVal m img.data 24 8 + s.ctx.loadBias)

/-- The end of a segment is an address, and no more of it comes from the file than it has. -/
def SizesOk (m : Mem) (ctx : ElfContext) (n : Nat) : Prop :=
  ∀ i < n, (segmentAt m ctx.phdrs i).pType = ptLoad → (segmentAt m ctx.phdrs i).filesz ≤ (segmentAt m ctx.phdrs i).memsz ∧
    (segmentAt m ctx.phdrs i).vaddr + (segmentAt m ctx.phdrs i).memsz < 2 ^ 64

/-! ## The load bias and the pages -/

def eType (img : Image) (m : Mem) : Nat := fieldVal m img.data 16 2

/-- The smallest address of the first `n` segments and the largest. -/
def extentOf (m : Mem) (ctx : ElfContext) : Nat → Nat × Nat
  | 0 => (2 ^ 64 - 1, 0)
  | i + 1 =>
    let seg := segmentAt m ctx.phdrs i
    if seg.pType = ptLoad then
      (min (extentOf m ctx i).1 seg.vaddr, max (extentOf m ctx i).2 (wrap (seg.vaddr + seg.memsz)))
    else extentOf m ctx i

/-- The extent of the image. -/
def extent (img : Image) (st : Loader) : Nat × Nat := extentOf st.mem st.ctx (ePhnum img st.mem)

/-- The length of the memory that is allocated first for an image of type `ET_DYN`. -/
def baseLen (img : Image) (st : Loader) : Nat :=
  mappedSize 0x400000 (wrap ((extent img st).2 + (2 ^ 64 - (extent img st).1)))

/-- The context with the load bias. -/
def biasedCtx (img : Image) (st : Loader) : ElfContext :=
  { st.ctx with
    loadBias := if eType img st.mem = etDyn then wrap (st.pages.headD 0 + (2 ^ 64 - (extent img st).1)) else 0 }

/-- The pages for the segments. -/
def segmentPages (img : Image) (st : Loader) : List Nat :=
  if eType img st.mem = etDyn then st.pages.tail else st.pages

/-- Memory before the segments are loaded. -/
def biasedMem (img : Image) (st : Loader) : Mem :=
  if eType img st.mem = etDyn then zeroFill st.mem (st.pages.headD 0) (baseLen img st) else st.mem

/-- Pages, if there are any, lie in the address space and do not overlap the image. -/
def FreshPages (img : Image) (page len : Nat) : Prop :=
  page ≠ 0 → page + len ≤ 2 ^ 64 ∧ (page + len ≤ img.data ∨ img.data + img.size ≤ page)

/-- What `pmm_alloc_pages` returned is fresh memory. -/
structure Fresh (img : Image) (st : Loader) : Prop where
  base : eType img st.mem = etDyn → FreshPages img (st.pages.headD 0) (baseLen img st)
  segments : ∀ i < ePhnum img st.mem, (segmentAt st.mem st.ctx.phdrs i).pType = ptLoad →
    FreshPages img (pagesOf st.mem st.ctx.phdrs (segmentPages img st) i)
      ((segmentAt st.mem st.ctx.phdrs i).pagesLen (biasedCtx img st))

/-- Every address of a segment holds the byte of the segment, by what the loader puts there or else by what was there. -/
def Backed (img : Image) (st : Loader) : Prop :=
  ∀ i < ePhnum img st.mem, (segmentAt st.mem st.ctx.phdrs i).pType = ptLoad → ∀ k < (segmentAt st.mem st.ctx.phdrs i).memsz,
    let a := wrap ((segmentAt st.mem st.ctx.phdrs i).addr (biasedCtx img st) + k)
    (contentUpTo img st.mem (biasedCtx img st) (segmentPages img st) (ePhnum img st.mem) a).getD (biasedMem img st a) =
      (segmentAt st.mem st.ctx.phdrs i).byte img st.mem k

/-- Each segment got the pages at its own address. -/
structure OwnPages (img : Image) (st : Loader) : Prop where
  start : ∀ i < ePhnum img st.mem, (segmentAt st.mem st.ctx.phdrs i).pType = ptLoad →
    pagesOf st.mem st.ctx.phdrs (segmentPages img st) i =
        alignDown ((segmentAt st.mem st.ctx.phdrs i).addr (biasedCtx img st)) ∧
      (segmentAt st.mem st.ctx.phdrs i).addr (biasedCtx img st) + (segmentAt st.mem st.ctx.phdrs i).memsz ≤
        pagesOf st.mem st.ctx.phdrs (segmentPages img st) i +
          (segmentAt st.mem st.ctx.phdrs i).pagesLen (biasedCtx img st)
  apart : ∀ i < ePhnum img st.mem, ∀ j < i, (segmentAt st.mem st.ctx.phdrs i).pType = ptLoad →
    (segmentAt st.mem st.ctx.phdrs j).pType = ptLoad →
      pagesOf st.mem st.ctx.phdrs (segmentPages img st) i +
          (segmentAt st.mem st.ctx.phdrs i).pagesLen (biasedCtx img st) ≤
        pagesOf st.mem st.ctx.phdrs (segmentPages img st) j ∨
      pagesOf st.mem st.ctx.phdrs (segmentPages img st) j +
          (segmentAt st.mem st.ctx.phdrs j).pagesLen (biasedCtx img st) ≤
        pagesOf st.mem st.ctx.phdrs (segmentPages img st) i

/-! ## Memory -/

/-- The memories agree on the image. -/
def SameImage (img : Image) (m m' : Mem) : Prop := ∀ x, img.Has x 1 → m x = m' x

theorem SameImage.fieldVal {m' : Mem} (h : SameImage img m m') {p off n : Nat} (hin : img.FieldIn p off n) :
    fieldVal m p off n = fieldVal m' p off n := by
  apply Mem.loadLE_congr
  intro x h1 h2
  apply h
  unfold Image.FieldIn Image.Has at hin
  unfold Image.Has
  omega

theorem SameImage.field_eq {m' : Mem} (h : SameImage img m m') {p off n : Nat} : img.field m p off n = img.field m' p off n := by
  unfold Image.field Image.read require
  by_cases hin : img.Has (wrap (p + off)) n
  · rw [if_pos hin, if_pos hin]
    exact congrArg pure (h.fieldVal hin)
  · rw [if_neg hin, if_neg hin]

theorem SameImage.print_eq {m' : Mem} (h : SameImage img m m') {a : Nat} : img.print m a = img.print m' a := by
  have hread : ∀ a, img.read m (wrap a) 1 = img.read m' (wrap a) 1 := fun a => @SameImage.field_eq img m m' h a 0 1
  have hgo : ∀ n a, img.printFrom m n a = img.printFrom m' n a := by
    intro n
    induction n with
    | zero =>
      intro a
      rw [Image.printFrom, Image.printFrom, hread]
    | succ n ih =>
      intro a
      simp only [Image.printFrom, hread, ih]
  unfold Image.print
  rw [hgo]

theorem zeroFill_eq {a n : Nat} (ha : a + n ≤ 2 ^ 64) (hn : 0 < n) (x : Nat) :
    zeroFill m a n x = if a ≤ x ∧ x < a + n then 0 else m x := by
  have hcond : (x < 2 ^ 64 ∧ wrap (x + (2 ^ 64 - wrap a)) < n) ↔ a ≤ x ∧ x < a + n := by
    unfold wrap
    omega
  unfold zeroFill
  simp only [hcond]

theorem setByte_eq {a : Nat} {b : UInt8} (ha : a < 2 ^ 64) (x : Nat) : setByte m a b x = if x = a then b else m x := by
  unfold setByte wrap
  rw [Nat.mod_eq_of_lt ha]

/-- The first `j` bytes at `src` have been copied to `dst`. -/
def Copied (m : Mem) (src dst j : Nat) (t : Mem) : Prop :=
  ∀ x, t x = if dst ≤ x ∧ x < dst + j then m (wrap (src + (x - dst))) else m x

/-- One byte more; it lies in the image, which the copy has not touched. -/
theorem copied_succ {src dst n j : Nat} {t : Mem} (ht : Copied m src dst j t) (hin : img.Has (wrap (src + j)) 1) (hj : j < n)
    (hdst : dst + n ≤ 2 ^ 64) (hfresh : dst + n ≤ img.data ∨ img.data + img.size ≤ dst) :
    Copied m src dst (j + 1) (setByte t (dst + j) (UInt8.ofNat (t.loadLE (wrap (src + j)) 1))) := by
  intro x
  have hsrc : t (wrap (src + j)) = m (wrap (src + j)) := by
    unfold Image.Has at hin
    rw [ht, if_neg (by omega)]
  rw [setByte_eq (by omega), loadLE_one, UInt8.ofNat_toNat, hsrc, ht]
  by_cases hx : x = dst + j
  · subst hx
    rw [if_pos rfl, if_pos (by omega)]
    congr 3
    omega
  · rw [if_neg hx]
    by_cases hr : dst ≤ x ∧ x < dst + j
    · rw [if_pos hr, if_pos (by omega)]
    · rw [if_neg hr, if_neg (by omega)]

/-- A copy to pages that do not overlap the image leaves the image. -/
theorem Copied.sameImage {src dst n j : Nat} {t : Mem} (ht : Copied m src dst j t) (hj : j ≤ n)
    (hfresh : dst + n ≤ img.data ∨ img.data + img.size ≤ dst) : SameImage img t m := by
  intro x hx
  unfold Image.Has at hx
  rw [ht x, if_neg (by omega)]

theorem decides_read {a n : Nat} : Decides (img.read m a n) (img.Has a n) True fun v => v = m.loadLE a n := by
  refine Goes.decides (fun h => ?_) safe_read
  exact ⟨_, returns_read.mpr ⟨safe_read.mp h, rfl⟩, rfl⟩

/-- The copy of a range of the file to pages that do not overlap the image; `p_filesz` stays what it is. -/
theorem decides_copyFile {phdr src dst n : Nat} (hin : img.FieldIn phdr 32 8) (hn : fieldVal m phdr 32 8 = n)
    (hdst : dst + n ≤ 2 ^ 64) (hfresh : dst + n ≤ img.data ∨ img.data + img.size ≤ dst) :
    Decides (copyFile img phdr src dst m) (∀ j < n, img.Has (wrap (src + j)) 1) True (Copied m src dst n) := by
  have hlt : n < 2 ^ 64 := by
    rw [← hn]
    exact fieldVal_lt
  have hbound : ∀ j ≤ n, ∀ t, Copied m src dst j t → Returns (img.field t phdr 32 8) n := fun j hj t ht =>
    returns_field.mpr ⟨hin, ((ht.sameImage hj hfresh).fieldVal hin).trans hn⟩
  have hstep : ∀ j < n, ∀ t, Copied m src dst j t → Decides (do
      let b ← img.read t (wrap (src + j)) 1
      pure (setByte t (dst + j) (UInt8.ofNat b)) : M Mem) (img.Has (wrap (src + j)) 1) True (Copied m src dst (j + 1)) := by
    intro j hj t ht
    refine (decides_bind decides_read fun hsrc _ b hb => decides_pure ?_).congr (by simp) (fun _ => by simp) fun _ h => h
    rw [hb]
    exact copied_succ ht hsrc hj hdst hfresh
  have hnone : Copied m src dst 0 m := fun x => by rw [if_neg (by omega)]
  exact (decides_forBelow (Copied m src dst) hnone hbound hstep hlt.le).congr (by simp) (fun _ => by simp) fun _ h => h

theorem decides_copySegment {phdr src dst filesz : Nat} (hfilesz : img.FieldIn phdr 32 8 → fieldVal m phdr 32 8 = filesz)
    (hsrc : img.FieldIn phdr 8 8 → wrap (img.data + fieldVal m phdr 8 8) = src) (hdst : dst + filesz ≤ 2 ^ 64)
    (hfresh : dst + filesz ≤ img.data ∨ img.data + img.size ≤ dst) :
    Decides (copySegment img phdr dst m)
      (img.FieldIn phdr 32 8 ∧ (filesz > 0 → img.FieldIn phdr 8 8 ∧ ∀ j < filesz, img.Has (wrap (src + j)) 1)) True
      (Copied m src dst filesz) := by
  unfold copySegment
  refine decides_field_bind fun hin => ?_
  rw [hfilesz hin]
  have hcopy : Decides (img.field m phdr 8 8 >>= fun off => copyFile img phdr (wrap (img.data + off)) dst m)
      (img.FieldIn phdr 8 8 ∧ ∀ j < filesz, img.Has (wrap (src + j)) 1) True (Copied m src dst filesz) := by
    refine decides_field_bind fun hoff => ?_
    rw [hsrc hoff]
    exact decides_copyFile hin (hfilesz hin) hdst hfresh
  refine (decides_ite (fun _ => hcopy) fun hnone => decides_pure ?_).congr (by simp) (fun _ => by simp) fun _ h => h
  intro x
  rw [if_neg (by omega)]

theorem decides_clearBss {phdr dst filesz memsz : Nat} (hmemsz : img.FieldIn phdr 40 8 → fieldVal m phdr 40 8 = memsz)
    (hfilesz : img.FieldIn phdr 32 8 → fieldVal m phdr 32 8 = filesz) :
    Decides (clearBss img phdr dst m) (img.FieldIn phdr 40 8 ∧ img.FieldIn phdr 32 8) True
      fun m' => m' = if memsz > filesz then zeroFill m (dst + filesz) (memsz - filesz) else m := by
  unfold clearBss
  refine decides_field_bind fun hin => decides_field_pure fun hin' => ?_
  rw [hmemsz hin, hfilesz hin']

/-! ## One segment -/

/-- Pages have been returned, and they were not none. -/
def Mapped (page len : Nat) : Prop := page ≠ 0 ∧ 0 < len

theorem mappedSize_ge {vaddr size : Nat} (h : vaddr % 4096 + size ≤ 2 ^ 64) (hpos : 0 < mappedSize vaddr size) :
    vaddr % 4096 + size ≤ mappedSize vaddr size := by
  unfold mappedSize alignUp alignDown wrap at *
  omega

theorem mappedSize_div {vaddr size : Nat} : mappedSize vaddr size / 4096 = 0 ↔ ¬ 0 < mappedSize vaddr size := by
  unfold mappedSize alignUp alignDown wrap
  omega

/-- The pages are cleared. -/
theorem elfMapMemory_of_mapped {vaddr size : Nat} (h : Mapped (st.pages.headD 0) (mappedSize vaddr size)) :
    elfMapMemory st vaddr size = (st.pages.headD 0,
      { st with mem := zeroFill st.mem (st.pages.headD 0) (mappedSize vaddr size), pages := st.pages.tail }) := by
  have hcount : ¬ mappedSize vaddr size / 4096 = 0 := fun hcount => mappedSize_div.mp hcount h.2
  simp only [elfMapMemory, pmmAllocPages, hcount, if_false]
  exact if_neg h.1

theorem elfMapMemory_of_not {vaddr size : Nat} (h : ¬ Mapped (st.pages.headD 0) (mappedSize vaddr size)) :
    (elfMapMemory st vaddr size).1 = 0 := by
  unfold elfMapMemory pmmAllocPages
  by_cases hcount : mappedSize vaddr size / 4096 = 0
  · simp [hcount]
  · have hpage : st.pages.headD 0 = 0 :=
      not_not.mp fun hpage => h ⟨hpage, not_not.mp fun hpos => hcount (mappedSize_div.mpr hpos)⟩
    simp only [hcount, if_false]
    rw [if_pos hpage]

/-- What comes after `elf_map_memory`, which ends the loader when it fails. -/
theorem decides_elfMapMemory {α : Type} {vaddr size : Nat} {f : Nat → Loader → M α} {Q G : Prop} {R : α → Prop}
    (hf : Mapped (st.pages.headD 0) (mappedSize vaddr size) → Decides (f (st.pages.headD 0)
      { st with mem := zeroFill st.mem (st.pages.headD 0) (mappedSize vaddr size), pages := st.pages.tail }) Q G R) :
    Decides (if (elfMapMemory st vaddr size).1 = 0 then throw elfErrorNomem
        else f (elfMapMemory st vaddr size).1 (elfMapMemory st vaddr size).2)
      (Mapped (st.pages.headD 0) (mappedSize vaddr size) → Q)
      (Mapped (st.pages.headD 0) (mappedSize vaddr size) ∧ G) R := by
  by_cases hmap : Mapped (st.pages.headD 0) (mappedSize vaddr size)
  · rw [elfMapMemory_of_mapped hmap]
    refine (congrArg (Decides · _ _ _) (if_neg hmap.1)).mpr ((hf hmap).congr ?_ ?_ fun _ h => h)
    · exact ⟨fun h _ => h, fun h => h hmap⟩
    · exact fun _ => ⟨fun h => ⟨hmap, h⟩, And.right⟩
  · rw [if_pos (elfMapMemory_of_not hmap)]
    exact decides_throw.congr (iff_of_true trivial fun h => absurd h hmap) (fun _ => iff_of_false id fun h => hmap h.1)
      fun _ h => h

/-- Memory after a segment has been loaded into the `len` bytes of its pages, at `start`. -/
def Filled (m : Mem) (page len start src filesz : Nat) (t : Mem) : Prop := ∀ x, t x =
  if page ≤ x ∧ x < page + len then
    if start ≤ x ∧ x < start + filesz then m (wrap (src + (x - start))) else 0
  else m x

/-- The bytes from the file and the zeros behind them, in pages that have been cleared. -/
theorem decides_fill {phdr page len start src filesz memsz : Nat}
    (hin : img.FieldIn phdr 32 8) (hfilesz : fieldVal m phdr 32 8 = filesz) (hmemsz : fieldVal m phdr 40 8 = memsz)
    (hin' : img.FieldIn phdr 40 8) (hsrc : img.FieldIn phdr 8 8 → wrap (img.data + fieldVal m phdr 8 8) = src)
    (hle : filesz ≤ memsz) (hstart : page ≤ start ∧ start + memsz ≤ page + len) (hmap : Mapped page len)
    (hfresh : FreshPages img page len) :
    Decides (copySegment img phdr start (zeroFill m page len) >>= clearBss img phdr start)
      (filesz > 0 → img.FieldIn phdr 8 8 ∧ ∀ j < filesz, img.Has (wrap (src + j)) 1) True
      (Filled m page len start src filesz) := by
  obtain ⟨hend, hapart⟩ := hfresh hmap.1
  have hlen := hmap.2
  have hzero := zeroFill_eq (m := m) hend hlen
  have hsame : SameImage img (zeroFill m page len) m := by
    intro x hx
    unfold Image.Has at hx
    rw [hzero, if_neg (by omega)]
  have hcopy := decides_copySegment (m := zeroFill m page len) (fun h => (hsame.fieldVal h).trans hfilesz)
    (fun h => by rw [hsame.fieldVal h, hsrc h]) (by omega : start + filesz ≤ 2 ^ 64)
    (by omega : start + filesz ≤ img.data ∨ img.data + img.size ≤ start)
  have hrest : (img.FieldIn phdr 32 8 ∧ (filesz > 0 → img.FieldIn phdr 8 8 ∧ ∀ j < filesz, img.Has (wrap (src + j)) 1)) →
      ∀ t, Copied (zeroFill m page len) src start filesz t → Decides (clearBss img phdr start t)
        (img.FieldIn phdr 40 8 ∧ img.FieldIn phdr 32 8) True (Filled m page len start src filesz) := by
    intro hread t ht
    have hsame' : SameImage img t m := fun x hx => (ht.sameImage le_rfl (by omega) x hx).trans (hsame x hx)
    refine (decides_clearBss (fun h => (hsame'.fieldVal h).trans hmemsz) fun h => (hsame'.fieldVal h).trans hfilesz).congr
      Iff.rfl (fun _ => Iff.rfl) ?_
    rintro m' rfl x
    have hbss : (if memsz > filesz then zeroFill t (start + filesz) (memsz - filesz) else t) x = t x := by
      split
      · rw [zeroFill_eq (by omega) (by omega)]
        split
        · rw [ht x, if_neg (by omega), hzero, if_pos (by omega)]
        · rfl
      · rfl
    rw [hbss, ht x]
    by_cases hfile : start ≤ x ∧ x < start + filesz
    · have hsrcin := (hread.2 (by omega)).2 (x - start) (by omega)
      rw [if_pos hfile, if_pos (by omega), if_pos hfile, hsame _ hsrcin]
    · rw [if_neg hfile, if_neg hfile, hzero]
  exact (decides_bind hcopy fun hread _ => hrest hread).congr (by simp [hin, hin']) (fun _ => by simp) fun _ h => h

/-- What is read of a segment of type `PT_LOAD` and its header: of the segment, only when there are pages for it. -/
def LoadOk (img : Image) (phdr src filesz : Nat) (mapped : Prop) : Prop :=
  (img.FieldIn phdr 16 8 ∧ img.FieldIn phdr 32 8 ∧ img.FieldIn phdr 40 8 ∧ img.FieldIn phdr 4 4) ∧
    (mapped → filesz > 0 → img.FieldIn phdr 8 8 ∧ ∀ j < filesz, img.Has (wrap (src + j)) 1)

/-- A segment is loaded when it gets pages; then it is in them, with zeros around. -/
theorem decides_loadSegment {phdr vaddr src filesz memsz page : Nat}
    (hvaddr : img.FieldIn phdr 16 8 → wrap (fieldVal st.mem phdr 16 8 + st.ctx.loadBias) = vaddr)
    (hfilesz : img.FieldIn phdr 32 8 → fieldVal st.mem phdr 32 8 = filesz)
    (hmemsz : img.FieldIn phdr 40 8 → fieldVal st.mem phdr 40 8 = memsz)
    (hsrc : img.FieldIn phdr 8 8 → wrap (img.data + fieldVal st.mem phdr 8 8) = src)
    (hpage : st.pages.headD 0 = page) (hle : filesz ≤ memsz) (hsize : vaddr % 4096 + memsz ≤ 2 ^ 64)
    (hfresh : FreshPages img page (mappedSize vaddr memsz)) :
    Decides (loadSegment img phdr st) (LoadOk img phdr src filesz (Mapped page (mappedSize vaddr memsz)))
      (Mapped page (mappedSize vaddr memsz)) fun t => (t.ctx = st.ctx ∧ t.pages = st.pages.tail ∧ t.blocks = st.blocks) ∧
        Filled st.mem page (mappedSize vaddr memsz) (page + vaddr % 4096) src filesz t.mem := by
  subst hpage
  have hpages : img.FieldIn phdr 32 8 → img.FieldIn phdr 40 8 → Mapped (st.pages.headD 0) (mappedSize vaddr memsz) → Decides
      (fillPages img phdr vaddr (st.pages.headD 0)
        { st with mem := zeroFill st.mem (st.pages.headD 0) (mappedSize vaddr memsz), pages := st.pages.tail })
      (filesz > 0 → img.FieldIn phdr 8 8 ∧ ∀ j < filesz, img.Has (wrap (src + j)) 1) True
      fun t => (t.ctx = st.ctx ∧ t.pages = st.pages.tail ∧ t.blocks = st.blocks) ∧
        Filled st.mem (st.pages.headD 0) (mappedSize vaddr memsz) (st.pages.headD 0 + vaddr % 4096) src filesz t.mem := by
    intro hin hin' hmap
    have hge := mappedSize_ge hsize hmap.2
    have hstart : st.pages.headD 0 + (vaddr - alignDown vaddr) = st.pages.headD 0 + vaddr % 4096 := by
      unfold alignDown
      omega
    unfold fillPages
    rw [hstart, ← bind_assoc]
    exact (decides_bind (decides_fill hin (hfilesz hin) (hmemsz hin') hin' hsrc hle ⟨by omega, by omega⟩ hmap hfresh)
      fun _ _ m hm => decides_pure ⟨⟨rfl, rfl, rfl⟩, hm⟩).congr (by simp) (fun _ => by simp) fun _ h => h
  unfold loadSegment LoadOk
  rw [and_assoc, and_assoc, and_assoc]
  refine (decides_field_bind fun hin16 => decides_field_bind fun hin32 => decides_field_bind fun hin40 =>
    decides_field_bind fun _ => ?_)
  rw [hvaddr hin16, hmemsz hin40]
  exact (decides_elfMapMemory (hpages hin32 hin40)).congr Iff.rfl (fun _ => and_iff_left trivial) fun _ h => h

/-! ## The load bias -/

/-- What the first loop reads of a program header. -/
def ExtentOk (img : Image) (m : Mem) (ctx : ElfContext) (i : Nat) : Prop :=
  img.FieldIn (phdrAt ctx i) 0 4 ∧ ((segmentAt m ctx.phdrs i).pType = ptLoad →
    img.FieldIn (phdrAt ctx i) 16 8 ∧ img.FieldIn (phdrAt ctx i) 40 8)

theorem decides_extentStep {ctx : ElfContext} {i : Nat} : Decides (extentStep img m ctx i (extentOf m ctx i))
    (ExtentOk img m ctx i) True fun e => e = extentOf m ctx (i + 1) := by
  unfold extentStep ExtentOk
  refine decides_field_bind fun _ => ?_
  rw [show fieldVal m (phdrAt ctx i) 0 4 = (segmentAt m ctx.phdrs i).pType from rfl]
  have hload : (segmentAt m ctx.phdrs i).pType = ptLoad → Decides (do
      let vaddr ← img.field m (phdrAt ctx i) 16 8
      let memsz ← img.field m (phdrAt ctx i) 40 8
      pure (min (extentOf m ctx i).1 vaddr, max (extentOf m ctx i).2 (wrap (vaddr + memsz))) : M (Nat × Nat))
      (img.FieldIn (phdrAt ctx i) 16 8 ∧ img.FieldIn (phdrAt ctx i) 40 8) True fun e => e = extentOf m ctx (i + 1) := by
    intro hload
    refine decides_field_bind fun _ => decides_field_pure fun _ => ?_
    rw [extentOf, if_pos hload]
    rfl
  refine (decides_ite hload fun hother => decides_pure ?_).congr (by simp) (fun _ => by simp) fun _ h => h
  rw [extentOf, if_neg hother]

/-- The loop over the program headers finds the extent. -/
theorem decides_extents {ctx : ElfContext} {n : Nat} : Decides (forLoop (extentStep img m ctx) n (2 ^ 64 - 1, 0))
    (∀ i < n, ExtentOk img m ctx i) True fun e => e = extentOf m ctx n :=
  (decides_forLoop (fun i e => e = extentOf m ctx i) rfl fun i _ e he => by
    rw [he]
    exact decides_extentStep).congr (by simp) (fun _ => by simp) fun _ h => h

/-- The extent covers every segment. -/
theorem extentOf_spec {ctx : ElfContext} {n : Nat} (hsizes : SizesOk m ctx n) :
    (extentOf m ctx n).1 < 2 ^ 64 ∧ (extentOf m ctx n).2 < 2 ^ 64 ∧
      ∀ i < n, (segmentAt m ctx.phdrs i).pType = ptLoad → (extentOf m ctx n).1 ≤ (segmentAt m ctx.phdrs i).vaddr ∧
        (segmentAt m ctx.phdrs i).vaddr + (segmentAt m ctx.phdrs i).memsz ≤ (extentOf m ctx n).2 := by
  induction n with
  | zero => exact ⟨by simp [extentOf], by simp [extentOf], fun i hi => absurd hi (by omega)⟩
  | succ n ih =>
    obtain ⟨hlo, hhi, hall⟩ := ih fun i hi => hsizes i (by omega)
    unfold extentOf
    by_cases hload : (segmentAt m ctx.phdrs n).pType = ptLoad
    · obtain ⟨_, hend⟩ := hsizes n (by omega) hload
      have hwrap : wrap ((segmentAt m ctx.phdrs n).vaddr + (segmentAt m ctx.phdrs n).memsz) =
          (segmentAt m ctx.phdrs n).vaddr + (segmentAt m ctx.phdrs n).memsz := Nat.mod_eq_of_lt hend
      rw [if_pos hload, hwrap]
      refine ⟨by dsimp only; omega, by dsimp only; omega, fun i hi hi' => ?_⟩
      rcases Nat.lt_succ_iff_lt_or_eq.mp hi with hlt | rfl
      · have := hall i hlt hi'
        dsimp only
        omega
      · dsimp only
        omega
    · rw [if_neg hload]
      refine ⟨hlo, hhi, fun i hi hi' => ?_⟩
      rcases Nat.lt_succ_iff_lt_or_eq.mp hi with hlt | rfl
      · exact hall i hlt hi'
      · exact absurd hi' hload

/-- There are pages for an image of type `ET_DYN`. -/
def Based (img : Image) (st : Loader) : Prop := eType img st.mem = etDyn → Mapped (st.pages.headD 0) (baseLen img st)

/-- The state after the load bias has been chosen. -/
structure Biased (img : Image) (st s : Loader) : Prop where
  ctx : s.ctx = biasedCtx img st
  pages : s.pages = segmentPages img st
  mem : s.mem = biasedMem img st
  blocks : s.blocks = st.blocks

theorem decides_chooseBias : Decides (chooseBias (eType img st.mem) (extent img st).1 (extent img st).2 st) True
    (Based img st) (Biased img st) := by
  unfold chooseBias
  by_cases hdyn : eType img st.mem = etDyn
  · rw [if_pos hdyn]
    have hbase : Based img st ↔ Mapped (st.pages.headD 0) (baseLen img st) := ⟨fun h => h hdyn, fun h _ => h⟩
    have hpages : Mapped (st.pages.headD 0) (baseLen img st) → Biased img st
        { st with
          mem := zeroFill st.mem (st.pages.headD 0) (baseLen img st)
          pages := st.pages.tail
          ctx := { st.ctx with loadBias := wrap (st.pages.headD 0 + (2 ^ 64 - (extent img st).1)) }
          info := { st.info with baseAddr := st.pages.headD 0 } } := by
      intro _
      constructor
      · rw [biasedCtx, if_pos hdyn]
      · rw [segmentPages, if_pos hdyn]
      · rw [biasedMem, if_pos hdyn]
      · rfl
    exact (decides_elfMapMemory (f := fun base s => (pure { s with
        ctx := { s.ctx with loadBias := wrap (base + (2 ^ 64 - (extent img st).1)) }
        info := { s.info with baseAddr := base } } : M Loader)) fun hmap => decides_pure (hpages hmap)).congr
      (iff_of_true (fun _ => trivial) trivial) (fun _ => (and_iff_left trivial).trans hbase.symm) fun _ h => h
  · rw [if_neg hdyn]
    refine (decides_pure ?_).congr Iff.rfl (fun _ => iff_of_true trivial fun h => absurd h hdyn) fun _ h => h
    constructor
    · rw [biasedCtx, if_neg hdyn]
    · rw [segmentPages, if_neg hdyn]
    · rw [biasedMem, if_neg hdyn]
    · rfl

/-- The load bias that is chosen, and what is left of memory and pages. -/
theorem decides_setLoadBias : Decides (setLoadBias img st)
    (img.FieldIn img.data 56 2 ∧ (∀ i < ePhnum img st.mem, ExtentOk img st.mem st.ctx i) ∧ img.FieldIn img.data 16 2)
    (Based img st) (Biased img st) := by
  unfold setLoadBias
  have hchoose : Decides (img.field st.mem img.data 16 2 >>= fun eType =>
      chooseBias eType (extent img st).1 (extent img st).2 st) (img.FieldIn img.data 16 2) (Based img st) (Biased img st) :=
    (decides_field_bind fun _ => decides_chooseBias).congr (and_iff_left trivial) (fun _ => Iff.rfl) fun _ h => h
  refine decides_field_bind fun _ => ?_
  exact (decides_bind decides_extents fun _ _ e he => by rw [he]; exact hchoose).congr (by simp [ePhnum]) (fun _ => by simp)
    fun _ h => h

/-- Choosing the load bias does not change the image. -/
theorem sameImage_biasedMem (hfresh : Fresh img st) (hbased : Based img st) :
    SameImage img (biasedMem img st) st.mem := by
  intro x hx
  unfold biasedMem
  split
  · rename_i hdyn
    obtain ⟨hend, hapart⟩ := hfresh.base hdyn (hbased hdyn).1
    unfold Image.Has at hx
    rw [zeroFill_eq hend (hbased hdyn).2, if_neg (by omega)]
  · rfl

/-- A segment ends in the address space also where it is promised. -/
theorem addr_fits (hsizes : SizesOk st.mem st.ctx (ePhnum img st.mem)) (hfresh : Fresh img st)
    (hbased : Based img st) {i : Nat} (hi : i < ePhnum img st.mem)
    (hload : (segmentAt st.mem st.ctx.phdrs i).pType = ptLoad) :
    (segmentAt st.mem st.ctx.phdrs i).addr (biasedCtx img st) + (segmentAt st.mem st.ctx.phdrs i).memsz ≤ 2 ^ 64 := by
  obtain ⟨hlo, hhi, hall⟩ := extentOf_spec hsizes
  obtain ⟨hle, hge⟩ := hall i hi hload
  obtain ⟨_, hend⟩ := hsizes i hi hload
  unfold Segment.addr biasedCtx
  by_cases hdyn : eType img st.mem = etDyn
  · simp only [hdyn, if_true]
    obtain ⟨hfit, _⟩ := hfresh.base hdyn (hbased hdyn).1
    have hbase : wrap ((extent img st).2 + (2 ^ 64 - (extent img st).1)) ≤ baseLen img st := by
      have hsize : 0x400000 % 4096 + wrap ((extent img st).2 + (2 ^ 64 - (extent img st).1)) ≤ 2 ^ 64 := by
        unfold wrap
        omega
      have := mappedSize_ge hsize (hbased hdyn).2
      unfold baseLen
      omega
    unfold extent wrap at *
    omega
  · simp only [hdyn, if_false]
    unfold wrap
    omega

/-! ## All segments -/

/-- Program headers of another type change neither memory nor the context, nor do they take pages or blocks. -/
structure SameRest (st t : Loader) : Prop where
  ctx : t.ctx = st.ctx
  pages : t.pages = st.pages
  blocks : t.blocks = st.blocks
  mem : t.mem = st.mem

/-- What is read of and through such a program header. -/
def OtherOk (img : Image) (m : Mem) (phdr pType : Nat) : Prop :=
  (pType = ptDynamic ∨ pType = ptTls ∨ pType = ptPhdr → img.FieldIn phdr 16 8) ∧
    (pType = ptTls → img.FieldIn phdr 40 8 ∧ img.FieldIn phdr 48 8) ∧
    (pType = ptInterp → img.FieldIn phdr 8 8 ∧ img.CanPrint m (wrap (img.data + fieldVal m phdr 8 8)))

theorem SameImage.otherOk {m' : Mem} (h : SameImage img m m') {phdr pType : Nat} :
    OtherOk img m phdr pType ↔ OtherOk img m' phdr pType := by
  refine and_congr_right fun _ => and_congr_right fun _ => imp_congr_right fun _ => and_congr_right fun hin => ?_
  rw [h.fieldVal hin, ← safe_print, ← safe_print, h.print_eq]

theorem decides_otherHeader {phdr pType : Nat} :
    Decides (otherHeader img phdr pType st) (OtherOk img st.mem phdr pType) True (SameRest st) := by
  have hgoes : Goes (otherHeader img phdr pType st) (SameRest st) := by
    refine goes_ite ?dynamic (goes_ite ?interp (goes_ite ?tls (goes_ite ?phdr (goes_pure ⟨rfl, rfl, rfl, rfl⟩))))
    case dynamic => exact goes_bind goes_field fun _ _ => goes_pure ⟨rfl, rfl, rfl, rfl⟩
    case interp => exact goes_bind goes_field fun _ _ => goes_bind goes_print fun _ _ => goes_pure ⟨rfl, rfl, rfl, rfl⟩
    case tls =>
      exact goes_bind goes_field fun _ _ => goes_bind goes_field fun _ _ => goes_bind goes_field fun _ _ =>
        goes_pure ⟨rfl, rfl, rfl, rfl⟩
    case phdr => exact goes_bind goes_field fun _ _ => goes_pure ⟨rfl, rfl, rfl, rfl⟩
  refine hgoes.decides ?_
  unfold otherHeader OtherOk
  simp only [safe_field_bind, safe_ite, safe_print_bind, safe_pure]
  grind [ptDynamic, ptInterp, ptTls, ptPhdr]

theorem segmentStep_other {i : Nat} {t : Loader} (h : Returns (segmentStep img i st) t)
    (htype : fieldVal st.mem (phdrAt st.ctx i) 0 4 ≠ ptLoad) : SameRest st t := by
  obtain ⟨_, h⟩ := returns_field_bind.mp h
  rw [if_neg htype] at h
  exact (decides_otherHeader.of_returns h).2.2

theorem headD_drop (l : List Nat) (n : Nat) : (l.drop n).headD 0 = l.getD n 0 := by
  rw [List.headD_eq_head?_getD, List.head?_drop, List.getD_eq_getElem?_getD]

/-- The state after the first `i` program headers. -/
structure LoadedUpTo (img : Image) (st : Loader) (i : Nat) (t : Loader) : Prop where
  ctx : t.ctx = biasedCtx img st
  pages : t.pages = (segmentPages img st).drop (loadsBefore st.mem st.ctx.phdrs i)
  mem : ∀ x, t.mem x =
    (contentUpTo img st.mem (biasedCtx img st) (segmentPages img st) i x).getD (biasedMem img st x)
  image : SameImage img t.mem st.mem
  blocks : t.blocks = st.blocks

theorem contentUpTo_succ {pages : List Nat} {i x : Nat} :
    contentUpTo img st.mem (biasedCtx img st) pages (i + 1) x =
      if (segmentAt st.mem st.ctx.phdrs i).pType = ptLoad ∧ pagesOf st.mem st.ctx.phdrs pages i ≤ x ∧
          x < pagesOf st.mem st.ctx.phdrs pages i + (segmentAt st.mem st.ctx.phdrs i).pagesLen (biasedCtx img st) then
        some ((segmentAt st.mem st.ctx.phdrs i).contentAt img st.mem (biasedCtx img st)
          (pagesOf st.mem st.ctx.phdrs pages i) x)
      else contentUpTo img st.mem (biasedCtx img st) pages i x := rfl

/-- Program header `i` is not for a segment to be loaded, or there are pages for the segment. -/
def SegmentMapped (img : Image) (st : Loader) (i : Nat) : Prop := (segmentAt st.mem st.ctx.phdrs i).pType = ptLoad →
  Mapped (pagesOf st.mem st.ctx.phdrs (segmentPages img st) i)
    ((segmentAt st.mem st.ctx.phdrs i).pagesLen (biasedCtx img st))

/-- What the second loop reads of and through program header `i`. -/
def SegmentOk (img : Image) (st : Loader) (i : Nat) : Prop :=
  let phdr := phdrAt st.ctx i
  let seg := segmentAt st.mem st.ctx.phdrs i
  img.FieldIn phdr 0 4 ∧
    (seg.pType = ptLoad → LoadOk img phdr (wrap (img.data + seg.offset)) seg.filesz (SegmentMapped img st i)) ∧
    (seg.pType ≠ ptLoad → OtherOk img st.mem phdr seg.pType)

theorem loadedUpTo_load {i : Nat} {t t' : Loader} (hfresh : Fresh img st) (hi : i < ePhnum img st.mem)
    (h : LoadedUpTo img st i t) (hload : (segmentAt st.mem st.ctx.phdrs i).pType = ptLoad) (hmap : SegmentMapped img st i)
    (hrange : ∀ j < (segmentAt st.mem st.ctx.phdrs i).filesz,
      img.Has (wrap (wrap (img.data + (segmentAt st.mem st.ctx.phdrs i).offset) + j)) 1)
    (hrest : t'.ctx = t.ctx ∧ t'.pages = t.pages.tail ∧ t'.blocks = t.blocks)
    (hmem : Filled t.mem (pagesOf st.mem st.ctx.phdrs (segmentPages img st) i)
      ((segmentAt st.mem st.ctx.phdrs i).pagesLen (biasedCtx img st))
      (pagesOf st.mem st.ctx.phdrs (segmentPages img st) i + (segmentAt st.mem st.ctx.phdrs i).addr (biasedCtx img st) % 4096)
      (wrap (img.data + (segmentAt st.mem st.ctx.phdrs i).offset)) (segmentAt st.mem st.ctx.phdrs i).filesz t'.mem) :
    LoadedUpTo img st (i + 1) t' := by
  refine ⟨hrest.1.trans h.ctx, ?_, ?_, ?_, hrest.2.2.trans h.blocks⟩
  · rw [hrest.2.1, h.pages, List.tail_drop, loadsBefore, if_pos hload]
  · intro x
    rw [hmem x, contentUpTo_succ, h.mem x]
    by_cases hx : pagesOf st.mem st.ctx.phdrs (segmentPages img st) i ≤ x ∧
        x < pagesOf st.mem st.ctx.phdrs (segmentPages img st) i +
          (segmentAt st.mem st.ctx.phdrs i).pagesLen (biasedCtx img st)
    · have hc := And.intro hload hx
      rw [if_pos hc, Option.getD_some, Segment.contentAt]
      refine (if_pos hx).trans ?_
      split
      · rename_i hin
        have hj : x - (pagesOf st.mem st.ctx.phdrs (segmentPages img st) i +
            (segmentAt st.mem st.ctx.phdrs i).addr (biasedCtx img st) % 4096) <
            (segmentAt st.mem st.ctx.phdrs i).filesz := by omega
        rw [h.image _ (hrange _ hj), Segment.byte, if_pos hj]
      · rfl
    · refine (if_neg hx).trans ?_
      rw [if_neg fun hc => hx hc.2]
  · intro x hx
    obtain ⟨_, hapart⟩ := hfresh.segments i hi hload (hmap hload).1
    rw [hmem x, ← h.image x hx]
    apply if_neg
    unfold Image.Has at hx
    omega

theorem decides_segmentStep {i : Nat} {t : Loader} (hsizes : SizesOk st.mem st.ctx (ePhnum img st.mem))
    (hfresh : Fresh img st) (hbased : Based img st) (hi : i < ePhnum img st.mem)
    (h : LoadedUpTo img st i t) :
    Decides (segmentStep img i t) (SegmentOk img st i) (SegmentMapped img st i) (LoadedUpTo img st (i + 1)) := by
  have hphdr : phdrAt t.ctx i = phdrAt st.ctx i := by
    rw [h.ctx]
    rfl
  have hload : (segmentAt st.mem st.ctx.phdrs i).pType = ptLoad → Decides (loadSegment img (phdrAt st.ctx i) t)
      (LoadOk img (phdrAt st.ctx i) (wrap (img.data + (segmentAt st.mem st.ctx.phdrs i).offset))
        (segmentAt st.mem st.ctx.phdrs i).filesz (SegmentMapped img st i)) (SegmentMapped img st i)
      (LoadedUpTo img st (i + 1)) := by
    intro hload
    -- the fields are those of the image at the start
    have hvaddr : img.FieldIn (phdrAt st.ctx i) 16 8 → wrap (fieldVal t.mem (phdrAt st.ctx i) 16 8 + t.ctx.loadBias) =
        (segmentAt st.mem st.ctx.phdrs i).addr (biasedCtx img st) := by
      intro hin
      rw [h.image.fieldVal hin, h.ctx]
      rfl
    have hfilesz : img.FieldIn (phdrAt st.ctx i) 32 8 →
        fieldVal t.mem (phdrAt st.ctx i) 32 8 = (segmentAt st.mem st.ctx.phdrs i).filesz := h.image.fieldVal
    have hmemsz : img.FieldIn (phdrAt st.ctx i) 40 8 →
        fieldVal t.mem (phdrAt st.ctx i) 40 8 = (segmentAt st.mem st.ctx.phdrs i).memsz := h.image.fieldVal
    have hsrc : img.FieldIn (phdrAt st.ctx i) 8 8 → wrap (img.data + fieldVal t.mem (phdrAt st.ctx i) 8 8) =
        wrap (img.data + (segmentAt st.mem st.ctx.phdrs i).offset) := by
      intro hin
      rw [h.image.fieldVal hin]
      rfl
    have hpage : t.pages.headD 0 = pagesOf st.mem st.ctx.phdrs (segmentPages img st) i := by
      rw [h.pages, headD_drop]
      rfl
    have hmapped : Mapped (pagesOf st.mem st.ctx.phdrs (segmentPages img st) i)
        ((segmentAt st.mem st.ctx.phdrs i).pagesLen (biasedCtx img st)) ↔ SegmentMapped img st i :=
      ⟨fun hm _ => hm, fun hm => hm hload⟩
    have hfits := addr_fits hsizes hfresh hbased hi hload
    have hrun := decides_loadSegment hvaddr hfilesz hmemsz hsrc hpage (hsizes i hi hload).1
      (le_trans (Nat.add_le_add_right (Nat.mod_le _ _) _) hfits) (hfresh.segments i hi hload)
    rw [show mappedSize ((segmentAt st.mem st.ctx.phdrs i).addr (biasedCtx img st)) (segmentAt st.mem st.ctx.phdrs i).memsz =
      (segmentAt st.mem st.ctx.phdrs i).pagesLen (biasedCtx img st) from rfl, propext hmapped] at hrun
    refine hrun.imp fun hok hm t' ht' => loadedUpTo_load hfresh hi h hload hm (fun j hj => ?_) ht'.1 ht'.2
    exact (hok.2 hm (by omega)).2 j hj
  have hother : (segmentAt st.mem st.ctx.phdrs i).pType ≠ ptLoad → Decides
      (otherHeader img (phdrAt st.ctx i) (segmentAt st.mem st.ctx.phdrs i).pType t)
      (OtherOk img st.mem (phdrAt st.ctx i) (segmentAt st.mem st.ctx.phdrs i).pType) True (LoadedUpTo img st (i + 1)) := by
    intro hne
    refine decides_otherHeader.congr (h.image.otherOk) (fun _ => Iff.rfl) fun t' ht' => ?_
    refine ⟨ht'.ctx.trans h.ctx, ?_, ?_, ht'.mem ▸ h.image, ht'.blocks.trans h.blocks⟩
    · rw [ht'.pages, h.pages, loadsBefore, if_neg hne, Nat.add_zero]
    · intro x
      rw [ht'.mem, h.mem, contentUpTo_succ, if_neg fun hc => hne hc.1]
  unfold segmentStep
  rw [hphdr]
  refine decides_field_bind fun hin => ?_
  rw [show fieldVal t.mem (phdrAt st.ctx i) 0 4 = (segmentAt st.mem st.ctx.phdrs i).pType from h.image.fieldVal hin]
  refine (decides_ite hload hother).congr Iff.rfl (fun _ => ?_) fun _ h => h
  exact ⟨fun hm hl => hm.1 hl hl, fun hm => ⟨fun _ => hm, fun _ => trivial⟩⟩

/-- The state before the first program header. -/
theorem loadedUpTo_zero {s : Loader} (hfresh : Fresh img st) (hbased : Based img st)
    (h : Biased img st s) : LoadedUpTo img st 0 s where
  ctx := h.ctx
  pages := h.pages
  mem := fun x => by rw [h.mem]; rfl
  image := h.mem ▸ sameImage_biasedMem hfresh hbased
  blocks := h.blocks

/-- What `elf_load_segments` reads of the image. -/
structure SegmentsOk (img : Image) (st : Loader) : Prop where
  extents : ∀ i < ePhnum img st.mem, ExtentOk img st.mem st.ctx i
  segments : Based img st → ∀ i < ePhnum img st.mem, (∀ j < i, SegmentMapped img st j) → SegmentOk img st i

/-- There are pages for everything that is loaded. -/
def AllMapped (img : Image) (st : Loader) : Prop := Based img st ∧ ∀ i < ePhnum img st.mem, SegmentMapped img st i

/-- The state after `elf_load_segments`. -/
structure Loaded (img : Image) (st s : Loader) : Prop where
  upTo : LoadedUpTo img st (ePhnum img st.mem) s
  entryPoint : s.info.entryPoint = wrap (fieldVal st.mem img.data 24 8 + s.ctx.loadBias)

theorem ePhnum_lt : ePhnum img m < 2 ^ 16 := fieldVal_lt

/-- The first 58 bytes of the file header lie in the image if `e_phnum` does. -/
theorem fieldIn_of_phnum (h : img.FieldIn img.data 56 2) {off n : Nat} (hoff : off + n ≤ 58) (hn : 0 < n) :
    img.FieldIn img.data off n := by
  have hfits := img.fits
  unfold Image.FieldIn Image.Has wrap at *
  omega

/-- **`elf_load_segments`** reads the program headers and the segments for which there are pages. -/
theorem decides_elfLoadSegments (h : img.FieldIn img.data 56 2) (hsizes : SizesOk st.mem st.ctx (ePhnum img st.mem))
    (hfresh : Fresh img st) : Decides (elfLoadSegments img st) (SegmentsOk img st) (AllMapped img st) (Loaded img st) := by
  have hin : ∀ off n, off + n ≤ 58 → 0 < n → img.FieldIn img.data off n := fun _ _ => fieldIn_of_phnum h
  have hbias : Decides (setLoadBias img st) (∀ i < ePhnum img st.mem, ExtentOk img st.mem st.ctx i) (Based img st)
      (Biased img st) :=
    decides_setLoadBias.congr (by simp [hin]) (fun _ => Iff.rfl) fun _ h => h
  have hphdrs : Based img st → ∀ s, Biased img st s → Decides (loadPhdrs img s)
      (∀ i < ePhnum img st.mem, (∀ j < i, SegmentMapped img st j) → SegmentOk img st i)
      (∀ i < ePhnum img st.mem, SegmentMapped img st i) (LoadedUpTo img st (ePhnum img st.mem)) := by
    intro hbased s hs
    refine decides_forBelow (LoadedUpTo img st) (loadedUpTo_zero hfresh hbased hs) (fun i _ t ht => ?_)
      (fun i hi t ht => decides_segmentStep hsizes hfresh hbased hi ht) ePhnum_lt.le
    exact returns_field.mpr ⟨h, ht.image.fieldVal h⟩
  have hend : ∀ t, LoadedUpTo img st (ePhnum img st.mem) t → Decides (do
      let entry ← img.field t.mem img.data 24 8
      let phnum ← img.field t.mem img.data 56 2
      let entsize ← img.field t.mem img.data 54 2
      pure { t with info := { t.info with
        entryPoint := wrap (entry + t.ctx.loadBias), phdrCount := phnum, phdrEntsize := entsize } } : M Loader)
      True True (Loaded img st) := by
    intro t ht
    refine (decides_field_bind fun hentry => decides_field_bind fun _ => decides_field_pure fun _ => ?_).congr
      (by simp [hin]) (fun _ => Iff.rfl) fun _ h => h
    refine ⟨⟨ht.ctx, ht.pages, ht.mem, ht.image, ht.blocks⟩, ?_⟩
    show wrap (fieldVal t.mem img.data 24 8 + t.ctx.loadBias) = _
    rw [ht.image.fieldVal hentry]
  unfold elfLoadSegments
  refine (decides_bind hbias fun _ hbased s hs => decides_bind (hphdrs hbased s hs)
    fun _ _ t ht => hend t ht).congr ?_ (fun _ => ?_) fun _ h => h
  · exact ⟨fun hok => ⟨hok.1, fun hbased => (hok.2 hbased).1⟩,
      fun hok => ⟨hok.extents, fun hbased => ⟨hok.segments hbased, fun _ => trivial⟩⟩⟩
  · exact and_congr_right fun _ => and_iff_left trivial

/-- **What is in memory after `elf_load_segments`**: every segment has got its pages, these hold what the loader puts there,
and the rest is as it was. -/
theorem elfLoadSegments_mem {s : Loader} (hsizes : SizesOk st.mem st.ctx (ePhnum img st.mem)) (hfresh : Fresh img st)
    (h : Returns (elfLoadSegments img st) s) : AllMapped img st ∧ Loaded img st s := by
  have hin : img.FieldIn img.data 56 2 := by
    obtain ⟨_, hbias, _⟩ := returns_bind.mp h
    exact (decides_setLoadBias.of_returns hbias).1.1
  exact ((decides_elfLoadSegments hin hsizes hfresh).of_returns h).2

/-- In the pages of segment `i`, only this segment is put by the segments up to `n`. -/
theorem contentUpTo_own {i x : Nat} (hown : OwnPages img st)
    (hload : (segmentAt st.mem st.ctx.phdrs i).pType = ptLoad)
    (hx : pagesOf st.mem st.ctx.phdrs (segmentPages img st) i ≤ x ∧ x <
      pagesOf st.mem st.ctx.phdrs (segmentPages img st) i +
        (segmentAt st.mem st.ctx.phdrs i).pagesLen (biasedCtx img st)) {n : Nat} (hlt : i < n)
    (hn : n ≤ ePhnum img st.mem) :
    contentUpTo img st.mem (biasedCtx img st) (segmentPages img st) n x =
      some ((segmentAt st.mem st.ctx.phdrs i).contentAt img st.mem (biasedCtx img st)
        (pagesOf st.mem st.ctx.phdrs (segmentPages img st) i) x) := by
  induction n with
  | zero => omega
  | succ n ih =>
    rw [contentUpTo_succ]
    rcases Nat.lt_succ_iff_lt_or_eq.mp hlt with hlt | rfl
    · rw [if_neg, ih hlt (by omega)]
      rintro ⟨hn', hlo, hhi⟩
      rcases hown.apart n (by omega) i hlt hn' hload with h | h
      · omega
      · omega
    · rw [if_pos ⟨hload, hx⟩]

/-- Pages at the addresses that the headers promise back the segments. -/
theorem backed_of_ownPages (hsizes : SizesOk st.mem st.ctx (ePhnum img st.mem)) (hfresh : Fresh img st)
    (hmapped : AllMapped img st) (hown : OwnPages img st) : Backed img st := by
  intro i hi hload k hk
  obtain ⟨hpage, hcover⟩ := hown.start i hi hload
  obtain ⟨hend, _⟩ := hfresh.segments i hi hload (hmapped.2 i hi hload).1
  obtain ⟨hle, _⟩ := hsizes i hi hload
  have hstart : pagesOf st.mem st.ctx.phdrs (segmentPages img st) i +
      (segmentAt st.mem st.ctx.phdrs i).addr (biasedCtx img st) % 4096 =
        (segmentAt st.mem st.ctx.phdrs i).addr (biasedCtx img st) := by
    unfold alignDown at hpage
    omega
  have haddr : wrap ((segmentAt st.mem st.ctx.phdrs i).addr (biasedCtx img st) + k) =
      (segmentAt st.mem st.ctx.phdrs i).addr (biasedCtx img st) + k := Nat.mod_eq_of_lt (by omega)
  dsimp only
  rw [haddr, contentUpTo_own hown hload (by omega) hi (le_refl _), Option.getD_some, Segment.contentAt, hstart,
    Nat.add_sub_cancel_left]
  by_cases hfile : k < (segmentAt st.mem st.ctx.phdrs i).filesz
  · exact if_pos (by omega)
  · rw [if_neg (by omega), Segment.byte, if_neg hfile]

/-- **Load placement**: after `elf_load_segments` the segments are where the headers say if and only if the pages are such
that what the loader puts there, or else what was there, is that; as it is when every segment got the pages at its own
address. -/
theorem elfLoadSegments_placed_iff {s : Loader} (hsizes : SizesOk st.mem st.ctx (ePhnum img st.mem))
    (hfresh : Fresh img st) (h : Returns (elfLoadSegments img st) s) :
    (Placed img st.mem s ↔ Backed img st) ∧ (OwnPages img st → Placed img st.mem s) := by
  obtain ⟨hmapped, ⟨hctx, _, hmem, _⟩, hentry⟩ := elfLoadSegments_mem hsizes hfresh h
  have hphdrs : s.ctx.phdrs = st.ctx.phdrs := by
    rw [hctx]
    rfl
  have hiff : Placed img st.mem s ↔ Backed img st := by
    constructor
    · intro hplaced i hi hload k hk
      have hbyte := hplaced.segments i hi (hphdrs ▸ hload) k (hphdrs ▸ hk)
      rwa [hphdrs, hctx, hmem] at hbyte
    · intro hbacked
      refine ⟨?_, hentry⟩
      intro i hi hload k hk
      rw [hphdrs] at hload hk ⊢
      rw [hctx, hmem]
      exact hbacked i hi hload k hk
  exact ⟨hiff, fun hown => hiff.mpr (backed_of_ownPages hsizes hfresh hmapped hown)⟩

/-- The image has its headers and the bytes of its segments, and the segments do not overlap. -/
structure WellFormed (img : Image) (st : Loader) : Prop where
  valid : Returns (elfValidate img st.mem) 0
  phdrs : st.ctx.phdrs = img.data + fieldVal st.mem img.data 32 8
  headers : fieldVal st.mem img.data 32 8 + 56 * ePhnum img st.mem ≤ img.size
  sizes : SizesOk st.mem st.ctx (ePhnum img st.mem)
  inFile : ∀ i < ePhnum img st.mem, (segmentAt st.mem st.ctx.phdrs i).pType = ptLoad →
    (segmentAt st.mem st.ctx.phdrs i).offset + (segmentAt st.mem st.ctx.phdrs i).filesz ≤ img.size
  apart : ∀ i < ePhnum img st.mem, ∀ j < i, (segmentAt st.mem st.ctx.phdrs i).pType = ptLoad →
    (segmentAt st.mem st.ctx.phdrs j).pType = ptLoad →
      (segmentAt st.mem st.ctx.phdrs i).vaddr + (segmentAt st.mem st.ctx.phdrs i).memsz ≤
        (segmentAt st.mem st.ctx.phdrs j).vaddr ∨
      (segmentAt st.mem st.ctx.phdrs j).vaddr + (segmentAt st.mem st.ctx.phdrs j).memsz ≤
        (segmentAt st.mem st.ctx.phdrs i).vaddr

/-! ## Images of the assembler -/

/-- A field of `n` bytes. -/
def fieldBytes (n v : Nat) : List UInt8 := (List.range n).map fun k => UInt8.ofNat (v / 256 ^ k)

/-- The file that `create_elf_from_asm` writes for some machine code. -/
def createElfFromAsm (code : List UInt8) : List UInt8 :=
  -- the file header
  [0x7F, 0x45, 0x4C, 0x46, 2, 1, 1, 0, 0, 0, 0, 0, 0, 0, 0, 0] ++ fieldBytes 2 etExec ++ fieldBytes 2 emX8664 ++
    fieldBytes 4 1 ++ fieldBytes 8 0x400000 ++ fieldBytes 8 64 ++ fieldBytes 8 0 ++ fieldBytes 4 0 ++ fieldBytes 2 64 ++
    fieldBytes 2 56 ++ fieldBytes 2 1 ++ fieldBytes 2 0 ++ fieldBytes 2 0 ++ fieldBytes 2 0 ++
    -- the program header
    fieldBytes 4 ptLoad ++ fieldBytes 4 5 ++ fieldBytes 8 120 ++ fieldBytes 8 0x400000 ++ fieldBytes 8 0x400000 ++
    fieldBytes 8 code.length ++ fieldBytes 8 code.length ++ fieldBytes 8 0x1000 ++ code

/-- The image of `ret` at address 4096. -/
def retImage : Image := ⟨4096, 121, by norm_num⟩

/-- The file is in memory, which is clear otherwise, and its program headers have been found. -/
def retLoader (page : Nat) : Loader :=
  ⟨fun a => if 4096 ≤ a then (createElfFromAsm [0xC3]).getD (a - 4096) 0 else 0, [page], [],
    { emptyContext with phdrs := 4160 }, emptyInfo⟩

/-- The byte at the promised address after `elf_load_segments`. -/
def retLoaded (page : Nat) : Option UInt8 :=
  match (elfLoadSegments retImage (retLoader page) : Option (Except Int Loader)) with
  | some (.ok s) => some (s.mem 0x400000)
  | _ => none

theorem returns_of_retLoaded {page : Nat} {b : UInt8} (h : retLoaded page = some b) :
    ∃ s, Returns (elfLoadSegments retImage (retLoader page)) s ∧ s.mem 0x400000 = b := by
  unfold retLoaded at h
  split at h
  · rename_i s hs
    exact ⟨s, hs, by simpa using h⟩
  · simp at h

theorem retLoader_header {page : Nat} : ePhnum retImage (retLoader page).mem = 1 ∧
    eType retImage (retLoader page).mem = etExec ∧
    segmentAt (retLoader page).mem (retLoader page).ctx.phdrs 0 = ⟨ptLoad, 0x400000, 120, 1, 1⟩ := by
  -- the pages do not matter
  have h : ePhnum retImage (retLoader 0).mem = 1 ∧ eType retImage (retLoader 0).mem = etExec ∧
      segmentAt (retLoader 0).mem (retLoader 0).ctx.phdrs 0 = ⟨ptLoad, 0x400000, 120, 1, 1⟩ := by decide
  exact h

theorem sizesOk_retLoader {page : Nat} :
    SizesOk (retLoader page).mem (retLoader page).ctx (ePhnum retImage (retLoader page).mem) := by
  obtain ⟨hnum, _, hseg⟩ := @retLoader_header page
  intro i hi _
  obtain rfl : i = 0 := by omega
  rw [hseg]
  decide

theorem wellFormed_retLoader {page : Nat} : WellFormed retImage (retLoader page) := by
  obtain ⟨hnum, _, hseg⟩ := @retLoader_header page
  have hphdrs : (retLoader 0).ctx.phdrs = retImage.data + fieldVal (retLoader 0).mem retImage.data 32 8 := by
    decide
  refine ⟨by rfl, hphdrs, ?_, sizesOk_retLoader, ?_, ?_⟩
  · rw [hnum]
    have h : fieldVal (retLoader 0).mem retImage.data 32 8 + 56 * 1 ≤ retImage.size := by decide
    exact h
  · intro i hi _
    obtain rfl : i = 0 := by omega
    rw [hseg]
    decide
  · intro i hi j hj
    omega

theorem fresh_retLoader {page : Nat} (hpage : page = 0x400000 ∨ page = 0x800000) : Fresh retImage (retLoader page) := by
  obtain ⟨hnum, htype, hseg⟩ := @retLoader_header page
  constructor
  · intro hdyn
    rw [htype] at hdyn
    simp [etExec, etDyn] at hdyn
  · intro i hi _
    obtain rfl : i = 0 := by omega
    rcases hpage with rfl | rfl
    · unfold FreshPages
      decide
    · unfold FreshPages
      decide

theorem elfLoadSegments_placed_ret : ∃ s, Returns (elfLoadSegments retImage (retLoader 0x400000)) s ∧
    Placed retImage (retLoader 0x400000).mem s := by
  obtain ⟨s, hs, _⟩ := returns_of_retLoaded (show retLoaded 0x400000 = some 0xC3 by decide)
  refine ⟨s, hs, (elfLoadSegments_placed_iff sizesOk_retLoader (fresh_retLoader (.inl rfl)) hs).2 ?_⟩
  obtain ⟨hnum, _, hseg⟩ := @retLoader_header 0x400000
  constructor
  · intro i hi _
    obtain rfl : i = 0 := by omega
    decide
  · intro i hi j hj
    omega

/-- The pages for the segment of a program of the assembler are elsewhere: it is not at its entry point. -/
theorem elfLoadSegments_elsewhere : ¬ ∀ (img : Image) (st s : Loader), WellFormed img st → Fresh img st →
    Returns (elfLoadSegments img st) s → Placed img st.mem s := by
  intro h
  obtain ⟨s, hs, hbyte⟩ := returns_of_retLoaded (show retLoaded 0x800000 = some 0 by decide)
  obtain ⟨hsegs, _⟩ := h retImage (retLoader 0x800000) s wellFormed_retLoader (fresh_retLoader (.inr rfl)) hs
  obtain ⟨hnum, htype, hseg⟩ := @retLoader_header 0x800000
  have hctx := (elfLoadSegments_mem sizesOk_retLoader (fresh_retLoader (.inr rfl)) hs).2.upTo.ctx
  have hphdrs : s.ctx.phdrs = (retLoader 0x800000).ctx.phdrs := by
    rw [hctx]
    rfl
  have hbias : s.ctx.loadBias = 0 := by
    rw [hctx]
    unfold biasedCtx
    rw [htype]
    rfl
  have hplace := hsegs 0 (by omega)
  rw [hphdrs, hseg] at hplace
  specialize hplace rfl 0 (by decide)
  simp only [Segment.addr, hbias, wrap, Nat.add_zero] at hplace
  rw [show 4194304 % 2 ^ 64 % 2 ^ 64 = 0x400000 from rfl, hbyte] at hplace
  exact absurd hplace (by decide)

end AmqOs.Elf
