import AmqOs.Lib.ByteMem
import AmqOs.Lib.Guarded
import AmqOs.Lib.Loop

/-!
# The ELF loader

`elf_load.c`: `elf_validate`, `elf_create_context`, `elf_load_segments`, `elf_resolve_symbols`, `elf_apply_relocations` and
`elf_load`. Pointers are 64-bit addresses into one memory, in which the image takes the `size` bytes from `data` on; the
context, the symbols of the hash table and `info` are not in it, so a store that hits them is not seen. A read through a
pointer into the image goes wrong when it is not inside the image, and a scan goes wrong when it does not end. What
`pmm_alloc_pages` and `kmalloc` return is given: the pages in the order of the calls (0 for `NULL`), and for each block
whether there is memory. A field is read again wherever the loader does so after it has written to memory, which may be the
image: a segment with more bytes in the file than in memory is copied beyond its pages.
-/

set_option autoImplicit false

namespace AmqOs.Elf

open AmqOs.Lib AmqOs.Lib.Guarded

/-! ## Codes and constants -/

def elfErrorInvalid : Int := -1
def elfErrorUnsupported : Int := -2
def elfErrorNomem : Int := -3
def elfErrorReloc : Int := -5
def elfErrorSymbol : Int := -6

def etRel : Nat := 1
def etExec : Nat := 2
def etDyn : Nat := 3
def emX8664 : Nat := 62

def ptLoad : Nat := 1
def ptDynamic : Nat := 2
def ptInterp : Nat := 3
def ptPhdr : Nat := 6
def ptTls : Nat := 7

def shtSymtab : Nat := 2
def shtStrtab : Nat := 3
def shtRela : Nat := 4
def shtDynamic : Nat := 6
def shtDynsym : Nat := 11

def shnAbs : Nat := 0xfff1
def stbWeak : Nat := 2
def sttSection : Nat := 3

def dtPltrelsz : Nat := 2
def dtRela : Nat := 7
def dtRelasz : Nat := 8
def dtJmprel : Nat := 23

/-! ## Memory -/

/-- 64-bit arithmetic. -/
def wrap (a : Nat) : Nat := a % 2 ^ 64

/-- `align_down(addr, 4096)`. -/
def alignDown (addr : Nat) : Nat := addr - addr % 4096

/-- `align_up(addr, 4096)`. -/
def alignUp (addr : Nat) : Nat := alignDown (wrap (addr + 4095))

/-- `*a = b` for a byte. -/
def setByte (m : Mem) (a : Nat) (b : UInt8) : Mem := fun x => if x = wrap a then b else m x

/-- `for (i = 0; i < n; i++) a[i] = 0;` -/
def zeroFill (m : Mem) (a n : Nat) : Mem := fun x => if x < 2 ^ 64 ∧ wrap (x + (2 ^ 64 - wrap a)) < n then 0 else m x

/-- A store of the low `n` bytes of `v`. -/
def poke (m : Mem) (a n v : Nat) : Mem := forUpTo (fun k m => setByte m (a + k) (UInt8.ofNat (v / 256 ^ k))) n m

/-- The image: its address and its size. -/
structure Image where
  data : Nat
  size : Nat
  fits : data + size ≤ 2 ^ 64

/-- The `n` bytes at `a` lie in the image. -/
def Image.Has (img : Image) (a n : Nat) : Prop := img.data ≤ a ∧ a + n ≤ img.data + img.size

instance (img : Image) (a n : Nat) : Decidable (img.Has a n) := inferInstanceAs (Decidable (_ ∧ _))

/-- Outcomes: the code is that of an early return. -/
abbrev M := Guarded Int

/-- A number read from the image. -/
def Image.read (img : Image) (m : Mem) (a n : Nat) : M Nat := require (img.Has a n) (m.loadLE a n)

/-- A field of `n` bytes of the structure at `p`. -/
def Image.field (img : Image) (m : Mem) (p off n : Nat) : M Nat := img.read m (wrap (p + off)) n

/-- The characters at `a` against those of a literal with its terminator, up to the first difference. -/
def Image.equals (img : Image) (m : Mem) : Nat → List UInt8 → M Bool
  | _, [] => pure true
  | a, c :: literal => do
    let b ← img.read m (wrap a) 1
    if b = c.toNat then img.equals m (a + 1) literal else pure false

/-- The string at `a`: the bytes before the first zero. A scan of all of memory does not end. -/
def Image.strFrom (img : Image) (m : Mem) : Nat → Nat → M (List UInt8)
  | 0, _ => (none : Option (Except Int (List UInt8)))
  | fuel + 1, a => do
    let b ← img.read m (wrap a) 1
    if b = 0 then pure [] else do
      let rest ← img.strFrom m fuel (a + 1)
      pure (UInt8.ofNat b :: rest)

/-- The string at `a`. -/
def Image.str (img : Image) (m : Mem) (a : Nat) : M (List UInt8) := img.strFrom m (2 ^ 64) a

/-- `safe_print_str`: reads at most `n` characters and one more. -/
def Image.printFrom (img : Image) (m : Mem) : Nat → Nat → M Unit
  | 0, a => do
    let _ ← img.read m (wrap a) 1
    pure ()
  | n + 1, a => do
    let b ← img.read m (wrap a) 1
    if b = 0 then pure () else img.printFrom m n (a + 1)

/-- `PRINT` with `%s`. -/
def Image.print (img : Image) (m : Mem) (a : Nat) : M Unit := if a = 0 then pure () else img.printFrom m 255 a

/-! ## State -/

/-- `elf_symbol_t`. -/
structure ElfSymbol where
  name : List UInt8
  value : Nat
  size : Nat
  type : Nat
  binding : Nat
  shndx : Nat

/-- `elf_context_t`; the pointers are 0 for `NULL`. -/
structure ElfContext where
  phdrs : Nat
  shdrs : Nat
  shstrtab : Nat
  strtab : Nat
  dynstr : Nat
  symtab : Nat
  dynsym : Nat
  symtabCount : Nat
  dynsymCount : Nat
  dynamic : Nat
  symbolHash : Nat → List ElfSymbol
  loadBias : Nat

/-- `elf_load_info_t`. -/
structure ElfLoadInfo where
  baseAddr : Nat
  entryPoint : Nat
  phdrAddr : Nat
  phdrCount : Nat
  phdrEntsize : Nat
  dynamicAddr : Nat
  tlsBase : Nat
  tlsSize : Nat
  tlsAlign : Nat
  interpPath : Nat
  isDynamic : Bool
  hasTls : Bool

/-- The state of a call of `elf_load`. -/
structure Loader where
  mem : Mem
  pages : List Nat
  blocks : List Bool
  ctx : ElfContext
  info : ElfLoadInfo

def emptyContext : ElfContext := ⟨0, 0, 0, 0, 0, 0, 0, 0, 0, 0, fun _ => [], 0⟩

def emptyInfo : ElfLoadInfo := ⟨0, 0, 0, 0, 0, 0, 0, 0, 0, 0, false, false⟩

/-- `kmalloc`: whether there is memory. -/
def kmalloc (st : Loader) : Bool × Loader := (st.blocks.headD false, { st with blocks := st.blocks.tail })

/-- `pmm_alloc_pages`. -/
def pmmAllocPages (st : Loader) (count : Nat) : Nat × Loader :=
  if count = 0 then (0, st) else (st.pages.headD 0, { st with pages := st.pages.tail })

/-- The bytes that `elf_map_memory` asks for. -/
def mappedSize (vaddr size : Nat) : Nat := alignUp (wrap (size + (vaddr - alignDown vaddr)))

/-- `elf_map_memory`. -/
def elfMapMemory (st : Loader) (vaddr size : Nat) : Nat × Loader :=
  let alignedSize := mappedSize vaddr size
  let (phys, st) := pmmAllocPages st (alignedSize / 4096)
  if phys = 0 then (0, st) else (phys, { st with mem := zeroFill st.mem phys alignedSize })

/-! ## `elf_validate` and `elf_create_context` -/

/-- A field of the file header that has to be right. -/
def Image.check (img : Image) (m : Mem) (off n : Nat) (good : Nat → Bool) (code : Int) (rest : M Int) : M Int := do
  let v ← img.field m img.data off n
  if good v then rest else pure code

/-- The size of the entries of a table, which has to be right unless the table is empty. -/
def Image.checkTable (img : Image) (m : Mem) (entsize num size : Nat) (rest : M Int) : M Int := do
  let v ← img.field m img.data entsize 2
  if v = size then rest
  else do
    let n ← img.field m img.data num 2
    if n > 0 then pure elfErrorInvalid else rest

/-- `elf_validate`. -/
def elfValidate (img : Image) (m : Mem) : M Int :=
  if img.data = 0 ∨ img.size < 64 then pure elfErrorInvalid
  else
    img.check m 0 1 (· = 0x7F) elfErrorInvalid <|
    img.check m 1 1 (· = 0x45) elfErrorInvalid <|
    img.check m 2 1 (· = 0x4C) elfErrorInvalid <|
    img.check m 3 1 (· = 0x46) elfErrorInvalid <|
    img.check m 4 1 (· = 2) elfErrorUnsupported <|
    img.check m 5 1 (· = 1) elfErrorUnsupported <|
    img.check m 6 1 (· = 1) elfErrorInvalid <|
    img.check m 18 2 (· = emX8664) elfErrorUnsupported <|
    img.check m 16 2 (fun v => v = etExec || v = etDyn || v = etRel) elfErrorUnsupported <|
    img.check m 52 2 (· = 64) elfErrorInvalid <|
    img.checkTable m 54 56 56 <|
    img.checkTable m 58 60 64 <|
    pure 0

/-- `.strtab` with its terminator. -/
def strtabName : List UInt8 := [0x2E, 0x73, 0x74, 0x72, 0x74, 0x61, 0x62, 0]

/-- `.dynstr` with its terminator. -/
def dynstrName : List UInt8 := [0x2E, 0x64, 0x79, 0x6E, 0x73, 0x74, 0x72, 0]

/-- One iteration over the section headers in `elf_create_context`. -/
def contextSection (img : Image) (m : Mem) (i : Nat) (ctx : ElfContext) : M ElfContext := do
  let shdr := wrap (ctx.shdrs + 64 * i)
  let shType ← img.field m shdr 4 4
  if shType = shtStrtab ∧ ctx.shstrtab ≠ 0 then do
    let shName ← img.field m shdr 0 4
    let name := wrap (ctx.shstrtab + shName)
    if ← img.equals m name strtabName then do
      let off ← img.field m shdr 24 8
      pure { ctx with strtab := wrap (img.data + off) }
    else if ← img.equals m name dynstrName then do
      let off ← img.field m shdr 24 8
      pure { ctx with dynstr := wrap (img.data + off) }
    else pure ctx
  else if shType = shtSymtab then do
    let off ← img.field m shdr 24 8
    let size ← img.field m shdr 32 8
    pure { ctx with symtab := wrap (img.data + off), symtabCount := size / 24 }
  else if shType = shtDynsym then do
    let off ← img.field m shdr 24 8
    let size ← img.field m shdr 32 8
    pure { ctx with dynsym := wrap (img.data + off), dynsymCount := size / 24 }
  else if shType = shtDynamic then do
    let off ← img.field m shdr 24 8
    pure { ctx with dynamic := wrap (img.data + off) }
  else pure ctx

/-- The tables that the file header gives. -/
def contextTables (img : Image) (m : Mem) : M (Nat × ElfContext) := do
  let phnum ← img.field m img.data 56 2
  let phoff ← img.field m img.data 32 8
  let shnum ← img.field m img.data 60 2
  let shoff ← img.field m img.data 40 8
  let shstrndx ← img.field m img.data 62 2
  let ctx := { emptyContext with
    phdrs := if phnum > 0 then wrap (img.data + phoff) else 0
    shdrs := if shnum > 0 then wrap (img.data + shoff) else 0 }
  if shnum > 0 ∧ shstrndx ≠ 0 ∧ shstrndx < shnum then do
    let off ← img.field m (wrap (ctx.shdrs + 64 * shstrndx)) 24 8
    pure (shnum, { ctx with shstrtab := wrap (img.data + off) })
  else pure (shnum, ctx)

/-- `elf_create_context`; when it returns `NULL`, `elf_load` returns `ELF_ERROR_INVALID`. -/
def elfCreateContext (img : Image) (st : Loader) : M Loader := do
  let code ← elfValidate img st.mem
  if code ≠ 0 then throw elfErrorInvalid
  else
    let (got, st) := kmalloc st
    if got then do
      let (shnum, ctx) ← contextTables img st.mem
      let ctx ← forLoop (contextSection img st.mem) shnum ctx
      pure { st with ctx := ctx }
    else throw elfErrorInvalid

/-! ## `elf_load_segments` -/

/-- The program header `i`. -/
def phdrAt (ctx : ElfContext) (i : Nat) : Nat := wrap (ctx.phdrs + 56 * i)

/-- One iteration of the loop for the smallest and the largest address. -/
def extentStep (img : Image) (m : Mem) (ctx : ElfContext) (i : Nat) (extent : Nat × Nat) : M (Nat × Nat) := do
  let phdr := phdrAt ctx i
  let pType ← img.field m phdr 0 4
  if pType = ptLoad then do
    let vaddr ← img.field m phdr 16 8
    let memsz ← img.field m phdr 40 8
    pure (min extent.1 vaddr, max extent.2 (wrap (vaddr + memsz)))
  else pure extent

/-- The loop that copies a segment from `src` in the image; `p_filesz`, a number of 64 bits, is read before every byte. -/
def copyFile (img : Image) (phdr src dst : Nat) (m : Mem) : M Mem :=
  forBelow (fun m => img.field m phdr 32 8) (fun j m => do
    let b ← img.read m (wrap (src + j)) 1
    pure (setByte m (dst + j) (UInt8.ofNat b))) (2 ^ 64) 0 m

/-- The bytes of a segment that come from the file. -/
def copySegment (img : Image) (phdr dst : Nat) (m : Mem) : M Mem := do
  let filesz ← img.field m phdr 32 8
  if filesz > 0 then do
    let off ← img.field m phdr 8 8
    copyFile img phdr (wrap (img.data + off)) dst m
  else pure m

/-- The bytes of a segment behind those of the file. -/
def clearBss (img : Image) (phdr dst : Nat) (m : Mem) : M Mem := do
  let memsz ← img.field m phdr 40 8
  let filesz ← img.field m phdr 32 8
  pure (if memsz > filesz then zeroFill m (dst + filesz) (memsz - filesz) else m)

/-- The segment in its pages at `mem`. -/
def fillPages (img : Image) (phdr vaddr mem : Nat) (st : Loader) : M Loader := do
  let dst := mem + (vaddr - alignDown vaddr)
  let m ← copySegment img phdr dst st.mem
  let m ← clearBss img phdr dst m
  pure { st with mem := m }

/-- A segment of type `PT_LOAD`; its size in the file is printed first. -/
def loadSegment (img : Image) (phdr : Nat) (st : Loader) : M Loader := do
  let pVaddr ← img.field st.mem phdr 16 8
  let _ ← img.field st.mem phdr 32 8
  let memsz ← img.field st.mem phdr 40 8
  let _ ← img.field st.mem phdr 4 4
  let vaddr := wrap (pVaddr + st.ctx.loadBias)
  let (mem, st) := elfMapMemory st vaddr memsz
  if mem = 0 then throw elfErrorNomem else fillPages img phdr vaddr mem st

/-- A program header of another type. -/
def otherHeader (img : Image) (phdr pType : Nat) (st : Loader) : M Loader :=
  if pType = ptDynamic then do
    let vaddr ← img.field st.mem phdr 16 8
    pure { st with info := { st.info with dynamicAddr := wrap (vaddr + st.ctx.loadBias), isDynamic := true } }
  else if pType = ptInterp then do
    let off ← img.field st.mem phdr 8 8
    let path := wrap (img.data + off)
    img.print st.mem path
    pure { st with info := { st.info with interpPath := path, isDynamic := true } }
  else if pType = ptTls then do
    let vaddr ← img.field st.mem phdr 16 8
    let memsz ← img.field st.mem phdr 40 8
    let align ← img.field st.mem phdr 48 8
    pure { st with info := { st.info with
      tlsBase := wrap (vaddr + st.ctx.loadBias), tlsSize := memsz, tlsAlign := align, hasTls := true } }
  else if pType = ptPhdr then do
    let vaddr ← img.field st.mem phdr 16 8
    pure { st with info := { st.info with phdrAddr := wrap (vaddr + st.ctx.loadBias) } }
  else pure st

/-- One iteration over the program headers. -/
def segmentStep (img : Image) (i : Nat) (st : Loader) : M Loader := do
  let phdr := phdrAt st.ctx i
  let pType ← img.field st.mem phdr 0 4
  if pType = ptLoad then loadSegment img phdr st else otherHeader img phdr pType st

/-- The load bias and the base address, with the memory for an image of type `ET_DYN`. -/
def chooseBias (eType minVaddr maxVaddr : Nat) (st : Loader) : M Loader :=
  if eType = etDyn then
    let (base, st) := elfMapMemory st 0x400000 (wrap (maxVaddr + (2 ^ 64 - minVaddr)))
    if base = 0 then throw elfErrorNomem
    else pure { st with
      ctx := { st.ctx with loadBias := wrap (base + (2 ^ 64 - minVaddr)) }, info := { st.info with baseAddr := base } }
  else pure { st with ctx := { st.ctx with loadBias := 0 }, info := { st.info with baseAddr := minVaddr } }

/-- The first half of `elf_load_segments`. -/
def setLoadBias (img : Image) (st : Loader) : M Loader := do
  let phnum ← img.field st.mem img.data 56 2
  let extent ← forLoop (extentStep img st.mem st.ctx) phnum (2 ^ 64 - 1, 0)
  let eType ← img.field st.mem img.data 16 2
  chooseBias eType extent.1 extent.2 st

/-- The loop over the program headers; `e_phnum`, a number of 16 bits, is read before every iteration. -/
def loadPhdrs (img : Image) (st : Loader) : M Loader :=
  forBelow (fun st => img.field st.mem img.data 56 2) (segmentStep img) (2 ^ 16) 0 st

/-- `elf_load_segments`. -/
def elfLoadSegments (img : Image) (st : Loader) : M Loader := do
  let st ← setLoadBias img st
  let st ← loadPhdrs img st
  let entry ← img.field st.mem img.data 24 8
  let phnum ← img.field st.mem img.data 56 2
  let entsize ← img.field st.mem img.data 54 2
  pure { st with info := { st.info with
    entryPoint := wrap (entry + st.ctx.loadBias), phdrCount := phnum, phdrEntsize := entsize } }

/-! ## `elf_resolve_symbols` -/

/-- `elf_hash`. -/
def elfHash (name : List UInt8) : UInt32 :=
  name.foldl (fun h c =>
    let h := (h <<< 4) + UInt32.ofNat c.toNat
    let g := h &&& 0xf0000000
    let h := if g ≠ 0 then h ^^^ (g >>> 24) else h
    h &&& ~~~g) 0

/-- The symbol `i` of a table. -/
def symAt (table i : Nat) : Nat := wrap (table + 24 * i)

/-- The new entry at the head of its list. -/
def addSymbol (ctx : ElfContext) (entry : ElfSymbol) : ElfContext :=
  let hash := (elfHash entry.name).toNat % 256
  { ctx with symbolHash := fun i => if i = hash then entry :: ctx.symbolHash hash else ctx.symbolHash i }

/-- The entry is made of the fields of the symbol, when there is memory for the name. -/
def enterSymbol (img : Image) (sym : Nat) (name : List UInt8) (info : Nat) (st : Loader) : M Loader :=
  let (got, st) := kmalloc st
  if got then do
    let value ← img.field st.mem sym 8 8
    let size ← img.field st.mem sym 16 8
    let shndx ← img.field st.mem sym 6 2
    let entry := ⟨name, wrap (value + st.ctx.loadBias), size, info % 16, info / 16, shndx⟩
    pure { st with ctx := addSymbol st.ctx entry }
  else pure st

/-- One iteration over the symbols of `.symtab`. -/
def symtabStep (img : Image) (i : Nat) (st : Loader) : M Loader := do
  let sym := symAt st.ctx.symtab i
  let stName ← img.field st.mem sym 0 4
  if stName = 0 then pure st
  else do
    let info ← img.field st.mem sym 4 1
    if info % 16 = sttSection then pure st
    else
      let (got, st) := kmalloc st
      if got then do
        let name ← img.str st.mem (wrap (st.ctx.strtab + stName))
        enterSymbol img sym name info st
      else pure st

/-- The entry of the hash table with a name. -/
def findSymbol (ctx : ElfContext) (name : List UInt8) : Option ElfSymbol :=
  (ctx.symbolHash ((elfHash name).toNat % 256)).find? fun s => s.name = name

/-- One iteration over the symbols of `.dynsym`. -/
def dynsymStep (img : Image) (i : Nat) (st : Loader) : M Loader := do
  let sym := symAt st.ctx.dynsym i
  let stName ← img.field st.mem sym 0 4
  if stName = 0 then pure st
  else do
    let info ← img.field st.mem sym 4 1
    if info % 16 = sttSection then pure st
    else do
      let name ← img.str st.mem (wrap (st.ctx.dynstr + stName))
      if (findSymbol st.ctx name).isSome then pure st
      else
        let (got, st) := kmalloc st
        if got then enterSymbol img sym name info st else pure st

/-- The first half of `elf_resolve_symbols`. -/
def resolveSymtab (img : Image) (st : Loader) : M Loader :=
  if st.ctx.symtab ≠ 0 ∧ st.ctx.strtab ≠ 0 then forLoop (symtabStep img) st.ctx.symtabCount st else pure st

/-- `elf_resolve_symbols`. -/
def elfResolveSymbols (img : Image) (st : Loader) : M Loader := do
  let st ← resolveSymtab img st
  if st.ctx.dynsym ≠ 0 ∧ st.ctx.dynstr ≠ 0 then forLoop (dynsymStep img) st.ctx.dynsymCount st else pure st

/-! ## `elf_apply_relocations` -/

/-- The value of an undefined symbol: that of the entry found by its name, or zero if it is weak. -/
def foundValue (img : Image) (m : Mem) (sym : Nat) : Option ElfSymbol → M Nat
  | some s => pure s.value
  | none => do
    let info ← img.field m sym 4 1
    if info / 16 = stbWeak then pure 0 else throw elfErrorSymbol

/-- The value of a symbol that a relocation names. -/
def symbolValue (img : Image) (sym strtab : Nat) (st : Loader) : M Nat := do
  let shndx ← img.field st.mem sym 6 2
  if shndx = 0 then
    if strtab = 0 then pure 0
    else do
      let stName ← img.field st.mem sym 0 4
      if stName = 0 then pure 0
      else do
        let name ← img.str st.mem (wrap (strtab + stName))
        foundValue img st.mem sym (findSymbol st.ctx name)
  else do
    let value ← img.field st.mem sym 8 8
    pure (if shndx = shnAbs then value else wrap (value + st.ctx.loadBias))

/-- What a relocation stores, given the symbol's value, the addend, the place and the load bias. -/
inductive Store
  | nothing
  | plain (width : Nat) (value : Nat → Nat → Nat)
  | withAddend (width : Nat) (value : Nat → Nat → Nat → Nat → Nat)

/-- The `switch` over the type of a relocation. -/
def relocation (rType : Nat) : Option Store :=
  if rType = 0 then some .nothing
  else if rType = 1 ∨ rType = 17 ∨ rType = 18 then some (.withAddend 8 fun symval addend _ _ => wrap (symval + addend))
  else if rType = 2 ∨ rType = 4 ∨ rType = 9 then
    some (.withAddend 4 fun symval addend ref _ => wrap (symval + addend + (2 ^ 64 - ref)))
  else if rType = 6 ∨ rType = 7 then some (.plain 8 fun symval _ => symval)
  else if rType = 8 then some (.withAddend 8 fun _ addend _ bias => wrap (bias + addend))
  else if rType = 10 ∨ rType = 11 then some (.withAddend 4 fun symval addend _ _ => wrap (symval + addend))
  else if rType = 16 then some (.plain 8 fun _ _ => 1)
  else none

/-- A field of an entry of a relocation table, which lies in the image or in the loaded memory. -/
def tableField (img : Image) (inImage : Bool) (m : Mem) (p off n : Nat) : M Nat :=
  if inImage then img.field m p off n else pure (m.loadLE (wrap (p + off)) n)

/-- What the relocation at `rel` stores at `ref`. -/
def relocate (img : Image) (inImage : Bool) (rel ref symval : Nat) (st : Loader) : Option Store → M Loader
  | none => throw elfErrorReloc
  | some .nothing => pure st
  | some (.plain width value) => pure { st with mem := poke st.mem ref width (value symval ref) }
  | some (.withAddend width value) => do
    let addend ← tableField img inImage st.mem rel 16 8
    pure { st with mem := poke st.mem ref width (value symval addend ref st.ctx.loadBias) }

/-- One iteration of `elf_apply_rela_relocations`. -/
def relaStep (img : Image) (inImage : Bool) (rela symtab strtab i : Nat) (st : Loader) : M Loader := do
  let rel := wrap (rela + 24 * i)
  let info ← tableField img inImage st.mem rel 8 8
  let offset ← tableField img inImage st.mem rel 0 8
  let rSym := info / 2 ^ 32
  let ref := wrap (offset + st.ctx.loadBias)
  let symval ← if rSym ≠ 0 ∧ symtab ≠ 0 then symbolValue img (symAt symtab rSym) strtab st else pure 0
  relocate img inImage rel ref symval st (relocation (info % 2 ^ 32))

/-- `elf_apply_rela_relocations`. -/
def elfApplyRelaRelocations (img : Image) (inImage : Bool) (rela count symtab strtab : Nat) (st : Loader) : M Loader :=
  forLoop (relaStep img inImage rela symtab strtab) count st

/-- The address of the data of a section. -/
def sectionData (img : Image) (i : Nat) (st : Loader) : M Nat := do
  let off ← img.field st.mem (wrap (st.ctx.shdrs + 64 * i)) 24 8
  pure (wrap (img.data + off))

/-- The relocations of a section of type `SHT_RELA`. -/
def relaSection (img : Image) (i : Nat) (st : Loader) : M Loader := do
  let shdr := wrap (st.ctx.shdrs + 64 * i)
  let shType ← img.field st.mem shdr 4 4
  if shType = shtRela then do
    let rela ← sectionData img i st
    let size ← img.field st.mem shdr 32 8
    let link ← img.field st.mem shdr 40 4
    let shnum ← img.field st.mem img.data 60 2
    if link < shnum then do
      let symtab ← sectionData img link st
      let strLink ← img.field st.mem (wrap (st.ctx.shdrs + 64 * link)) 40 4
      let strtab ← if strLink < shnum then sectionData img strLink st else pure 0
      elfApplyRelaRelocations img true rela (size / 24) symtab strtab st
    else pure st
  else pure st

/-- One iteration over the section headers; `e_shnum` is read again before it. -/
def relaSectionStep (img : Image) (i : Nat) (st : Loader) : M Loader := do
  let shnum ← img.field st.mem img.data 60 2
  if i < shnum then relaSection img i st else pure st

/-- The loop over the section headers: `e_shnum` is a 16-bit number, and nothing changes once it is reached. -/
def relaSections (img : Image) (st : Loader) : M Loader := forLoop (relaSectionStep img) (2 ^ 16) st

/-- What the dynamic section says about relocations. -/
structure DynInfo where
  rela : Nat
  relaSize : Nat
  jmprel : Nat
  jmprelSize : Nat

/-- One entry of the dynamic section. -/
def dynamicEntry (img : Image) (m : Mem) (bias dyn tag : Nat) (d : DynInfo) : M DynInfo :=
  if tag = dtRela then do
    let v ← img.field m dyn 8 8
    pure { d with rela := wrap (v + bias) }
  else if tag = dtRelasz then do
    let v ← img.field m dyn 8 8
    pure { d with relaSize := v }
  else if tag = dtJmprel then do
    let v ← img.field m dyn 8 8
    pure { d with jmprel := wrap (v + bias) }
  else if tag = dtPltrelsz then do
    let v ← img.field m dyn 8 8
    pure { d with jmprelSize := v }
  else pure d

/-- The loop over the dynamic section, which ends at `DT_NULL`. A scan of all of memory does not end. -/
def dynamicFrom (img : Image) (m : Mem) (bias : Nat) : Nat → Nat → DynInfo → M DynInfo
  | 0, _, _ => (none : Option (Except Int DynInfo))
  | fuel + 1, dyn, d => do
    let tag ← img.field m dyn 0 8
    if tag = 0 then pure d
    else do
      let d ← dynamicEntry img m bias dyn tag d
      dynamicFrom img m bias fuel (wrap (dyn + 16)) d

/-- A relocation table of the dynamic section. -/
def dynamicRela (img : Image) (table size : Nat) (st : Loader) : M Loader :=
  if table ≠ 0 ∧ size > 0 then elfApplyRelaRelocations img false table (size / 24) st.ctx.dynsym st.ctx.dynstr st
  else pure st

/-- `elf_apply_relocations`. -/
def elfApplyRelocations (img : Image) (st : Loader) : M Loader := do
  let st ← relaSections img st
  if st.ctx.dynamic = 0 then pure st
  else do
    let d ← dynamicFrom img st.mem st.ctx.loadBias (2 ^ 64) st.ctx.dynamic ⟨0, 0, 0, 0⟩
    let st ← dynamicRela img d.rela d.relaSize st
    dynamicRela img d.jmprel d.jmprelSize st

/-! ## `elf_load` -/

/-- `elf_setup_tls`; the block itself is not used. -/
def elfSetupTls (st : Loader) : M Loader :=
  if st.info.hasTls then
    let (got, st) := kmalloc st
    if got then pure st else throw elfErrorNomem
  else pure st

/-- The calls of `elf_load`, each of which ends it when it fails. -/
def elfLoadSteps (img : Image) (st : Loader) : M Loader := do
  let st ← elfCreateContext img { st with info := emptyInfo }
  let st ← elfLoadSegments img st
  let st ← elfResolveSymbols img st
  let st ← elfApplyRelocations img st
  elfSetupTls st

/-- `elf_load`: its code, if no read is outside of the image and every loop ends. -/
def elfLoad (img : Image) (st : Loader) : Option Int :=
  match (elfLoadSteps img st : Option (Except Int Loader)) with
  | none => none
  | some (.error code) => some code
  | some (.ok _) => some 0

end AmqOs.Elf
