import AmqOs.Elf.ElfInside
import AmqOs.Lib.Accounts

/-!
# What a failed load gives back

A `Ledger` is what the allocators have given out: the pages that have been taken, for the image or to extend the heap, and
the live blocks of the heap, with the pointers through which `elf_destroy_context` frees them. `elfLoadAccount` is `elf_load`
with such a ledger (`elfLoad_eq_account`), for all answers that the loader gets. Nothing gives pages back, and `kfree` frees
only blocks whose header is intact. So pages and blocks are those before the call exactly when no page has been taken and
every block that has been taken is intact (`elfLoad_gives_back_iff`): this depends on the first request for pages
(`requested`), and on the calls of `kmalloc` before the load fails (`failCalls`).
-/

set_option autoImplicit false

namespace AmqOs.Elf

open AmqOs.Lib AmqOs.Lib.Guarded

variable {img : Image} {m : Mem} {st t : Loader}

/-! ## The ledger -/

/-- The allocators: the free pages, the pages that were taken, and the live blocks of the heap. Call `i` of `kmalloc` returns
`addrs i`, if it returns memory, and extends the heap by `growth i` pages; the header of a block that is `intact` is still
there when it is freed. The pointers are those of the context and, in each chain of its hash table, of the entries and their
names. -/
structure Ledger where
  freePages : List Nat
  pages : List Nat
  heap : Multiset Nat
  addrs : Nat → Nat
  growth : Nat → Nat
  intact : Nat → Bool
  calls : Nat
  ctx : Nat
  chains : Nat → List (Nat × Nat)

namespace Ledger

/-- `pmm_alloc_pages` takes one page after the other, and keeps them when there are not enough. -/
def pmmAllocPages (l : Ledger) (count : Nat) : Ledger :=
  { l with freePages := l.freePages.drop count, pages := l.freePages.take count ++ l.pages }

/-- `elf_map_memory`. -/
def elfMapMemory (l : Ledger) (vaddr size : Nat) : Ledger := l.pmmAllocPages (mappedSize vaddr size / 4096)

/-- What the next call of `kmalloc` returns, if it returns memory. -/
def next (l : Ledger) : Nat := l.addrs l.calls

/-- `kmalloc`. -/
def kmalloc (l : Ledger) (got : Bool) : Ledger :=
  { l.pmmAllocPages (l.growth l.calls) with
    heap := if got then l.next ::ₘ l.heap else l.heap
    calls := l.calls + 1 }

/-- `kfree`, which returns when the block has lost its magic number. -/
def kfree (l : Ledger) (ptr : Nat) : Ledger := if l.intact ptr then { l with heap := l.heap.erase ptr } else l

/-- The entry at the head of its chain, with its name. -/
def addSymbol (l : Ledger) (hash : Nat) (sym : Nat × Nat) : Ledger :=
  { l with chains := fun i => if i = hash then sym :: l.chains hash else l.chains i }

/-- The loop of `elf_destroy_context` over a chain; every entry has a name. -/
def freeChain (l : Ledger) (chain : List (Nat × Nat)) : Ledger :=
  chain.foldl (fun l sym => (l.kfree sym.2).kfree sym.1) l

/-- `elf_destroy_context`. -/
def elfDestroyContext (l : Ledger) : Ledger := (forUpTo (fun i l => l.freeChain (l.chains i)) 256 l).kfree l.ctx

end Ledger

/-! ## What the functions do to it -/

/-- `elf_create_context`, which clears the context. -/
def createLedger (img : Image) (st : Loader) (l : Ledger) : Ledger :=
  if value? (elfValidate img st.mem) = some 0 then { l.kmalloc (kmalloc st).1 with ctx := l.next, chains := fun _ => [] }
  else l

/-- The first half of `elf_load_segments`. -/
def biasLedger (img : Image) (st : Loader) (l : Ledger) : Ledger :=
  if eType img st.mem = etDyn then l.elfMapMemory 0x400000 (wrap ((extent img st).2 + (2 ^ 64 - (extent img st).1))) else l

/-- A program header. -/
def segmentLedger (i : Nat) (st : Loader) (l : Ledger) : Ledger :=
  let seg := segmentAt st.mem st.ctx.phdrs i
  if seg.pType = ptLoad then l.elfMapMemory (seg.addr st.ctx) seg.memsz else l

/-- The two blocks of an entry; without the second, the first is freed. -/
def enterLedger (name : List UInt8) (st : Loader) (l : Ledger) : Ledger :=
  let (got, st) := kmalloc st
  let entry := l.next
  let l := l.kmalloc got
  if got then
    let (got, _) := kmalloc st
    let text := l.next
    let l := l.kmalloc got
    if got then l.addSymbol (hashOf name) (entry, text) else l.kfree entry
  else l

/-- A symbol of `.symtab`. -/
def symtabLedger (img : Image) (i : Nat) (st : Loader) (l : Ledger) : Ledger :=
  let T := st.ctx.symtabTable
  if Named st.mem (symAt T.table i) then enterLedger (img.nameAt st.mem (T.nameAddr st.mem i)) st l else l

/-- A symbol of `.dynsym`, which is entered when its name is new. -/
def dynsymLedger (img : Image) (i : Nat) (st : Loader) (l : Ledger) : Ledger :=
  let T := st.ctx.dynsymTable
  let name := img.nameAt st.mem (T.nameAddr st.mem i)
  if Named st.mem (symAt T.table i) ∧ (findSymbol st.ctx name).isSome = false then enterLedger name st l else l

/-- `elf_setup_tls`. -/
def tlsLedger (st : Loader) (l : Ledger) : Ledger := if st.info.hasTls then l.kmalloc (kmalloc st).1 else l

/-! ## `elf_load` with a ledger -/

/-- The state with the ledger, when the load goes on or ends. -/
abbrev Account := Ending Int (Loader × Ledger)

/-- A computation that neither takes nor frees anything. -/
def passing (f : Loader → M Loader) : Loader × Ledger → Account := follow f fun _ l => l

/-- The end of `elf_load_segments`. -/
def segmentsEnd (img : Image) (st : Loader) : M Loader := do
  let entry ← img.field st.mem img.data 24 8
  let phnum ← img.field st.mem img.data 56 2
  let entsize ← img.field st.mem img.data 54 2
  pure { st with info := { st.info with
    entryPoint := wrap (entry + st.ctx.loadBias), phdrCount := phnum, phdrEntsize := entsize } }

/-- The loop over the program headers. -/
def loadPhdrsAccount (img : Image) (s : Loader × Ledger) : Account :=
  forEndingBelow (fun s => img.field s.1.mem img.data 56 2) (fun i => follow (segmentStep img i) (segmentLedger i)) (2 ^ 16) 0 s

/-- `elf_load_segments`. -/
def elfLoadSegmentsAccount (img : Image) (s : Loader × Ledger) : Account :=
  andThen (follow (setLoadBias img) (biasLedger img) s) fun s => andThen (loadPhdrsAccount img s) (passing (segmentsEnd img))

/-- The symbols of a table. -/
def symbolsAccount (T : SymTable) (step : Nat → Loader → M Loader) (ledger : Nat → Loader → Ledger → Ledger)
    (s : Loader × Ledger) : Account :=
  if T.Present then forEnding (fun i => follow (step i) (ledger i)) T.count s else some (none, s)

/-- `elf_resolve_symbols`. -/
def elfResolveSymbolsAccount (img : Image) (s : Loader × Ledger) : Account :=
  andThen (symbolsAccount s.1.ctx.symtabTable (symtabStep img) (symtabLedger img) s) fun s =>
    symbolsAccount s.1.ctx.dynsymTable (dynsymStep img) (dynsymLedger img) s

/-- `elf_destroy_context` before `elf_load` returns a code. -/
def destroyOnFailure : Account → Account
  | some (some code, s) => some (some code, (s.1, s.2.elfDestroyContext))
  | x => x

/-- The calls of `elf_load`. -/
def elfLoadStepsAccount (img : Image) (s : Loader × Ledger) : Account :=
  andThen (follow (fun st => elfCreateContext img { st with info := emptyInfo }) (createLedger img) s) fun s =>
    destroyOnFailure <| andThen (elfLoadSegmentsAccount img s) fun s => andThen (elfResolveSymbolsAccount img s) fun s =>
      andThen (passing (elfApplyRelocations img) s) (follow elfSetupTls tlsLedger)

/-- The code of `elf_load`, and the ledger after it. -/
def elfLoadAccount (img : Image) (st : Loader) (l : Ledger) : Option (Int × Ledger) :=
  (elfLoadStepsAccount img (st, l)).map fun r => (r.1.getD 0, r.2.2)

theorem plain_passing {f : Loader → M Loader} {s : Loader × Ledger} : plain (passing f s) = f s.1 := plain_follow

theorem plain_destroyOnFailure {x : Account} : plain (destroyOnFailure x) = plain x := by
  rcases x with _ | ⟨_ | e, s⟩
  · rfl
  · rfl
  · rw [destroyOnFailure, plain_early, plain_early]

theorem plain_elfLoadSegments {s : Loader × Ledger} : plain (elfLoadSegmentsAccount img s) = elfLoadSegments img s.1 := by
  unfold elfLoadSegmentsAccount elfLoadSegments
  rw [plain_andThen (g := fun st => loadPhdrs img st >>= segmentsEnd img), plain_follow]
  · rfl
  · intro s
    rw [plain_andThen fun s => plain_passing]
    congr 1
    exact @plain_forEndingBelow Int Loader Ledger (fun st => img.field st.mem img.data 56 2) (segmentStep img) segmentLedger
      (2 ^ 16) 0 s

theorem plain_symbols {T : SymTable} {step : Nat → Loader → M Loader} {ledger : Nat → Loader → Ledger → Ledger}
    {s : Loader × Ledger} :
    plain (symbolsAccount T step ledger s) = if T.Present then forLoop step T.count s.1 else pure s.1 := by
  unfold symbolsAccount
  split
  · exact plain_forEnding _ _
  · rfl

theorem plain_elfResolveSymbols {s : Loader × Ledger} :
    plain (elfResolveSymbolsAccount img s) = elfResolveSymbols img s.1 := by
  unfold elfResolveSymbolsAccount
  rw [plain_andThen (g := fun st => if st.ctx.dynsymTable.Present then
    forLoop (dynsymStep img) st.ctx.dynsymTable.count st else pure st) fun s => plain_symbols, plain_symbols]
  rfl

/-- Without the ledger, these are the calls of the loader. -/
theorem plain_elfLoadSteps {s : Loader × Ledger} : plain (elfLoadStepsAccount img s) = elfLoadSteps img s.1 := by
  unfold elfLoadStepsAccount elfLoadSteps
  rw [plain_andThen (g := fun st => elfLoadSegments img st >>= fun st => elfResolveSymbols img st >>= fun st =>
    elfApplyRelocations img st >>= elfSetupTls), plain_follow]
  intro s
  rw [plain_destroyOnFailure, plain_andThen (g := fun st => elfResolveSymbols img st >>= fun st =>
    elfApplyRelocations img st >>= elfSetupTls), plain_elfLoadSegments]
  intro s
  rw [plain_andThen (g := fun st => elfApplyRelocations img st >>= elfSetupTls), plain_elfResolveSymbols]
  intro s
  rw [plain_andThen fun s => plain_follow, plain_passing]

/-- The code is that of `elf_load`. -/
theorem elfLoad_eq_account (img : Image) (st : Loader) (l : Ledger) :
    elfLoad img st = (elfLoadAccount img st l).map Prod.fst := by
  have hsteps := @plain_elfLoadSteps img (st, l)
  unfold elfLoad elfLoadAccount
  rw [show elfLoadSteps img st = plain (elfLoadStepsAccount img (st, l)) from hsteps.symm]
  rcases elfLoadStepsAccount img (st, l) with _ | ⟨_ | e, s⟩ <;> rfl


/-! ## The pages -/

variable {l k : Ledger} {blocks : List Bool}

namespace Ledger

/-- The pages that have been taken since `l` are none when no page was free, or nothing has been asked for (`P`). -/
structure Takes (l : Ledger) (P : Prop) (k : Ledger) : Prop where
  suffix : l.pages <:+ k.pages
  free : k.pages = l.pages → k.freePages = l.freePages
  pages_iff : k.pages = l.pages ↔ l.freePages = [] ∨ P

theorem Takes.refl (l : Ledger) : l.Takes True l := ⟨List.suffix_refl _, fun _ => rfl, by simp⟩

theorem Takes.trans {j : Ledger} {P Q : Prop} (hlk : l.Takes P k) (hkj : k.Takes Q j) : l.Takes (P ∧ Q) j := by
  have hboth : j.pages = l.pages ↔ k.pages = l.pages ∧ j.pages = k.pages := by
    constructor
    · intro hj
      have hle := hkj.suffix.length_le
      rw [hj] at hle
      have hk := hlk.suffix.eq_of_length (le_antisymm hlk.suffix.length_le hle)
      exact ⟨hk.symm, hj.trans hk⟩
    · rintro ⟨hk, hj⟩
      exact hj.trans hk
  refine ⟨hlk.suffix.trans hkj.suffix, ?_, ?_⟩
  · intro hj
    obtain ⟨hk, hj⟩ := hboth.mp hj
    exact (hkj.free hj).trans (hlk.free hk)
  · rw [hboth, hkj.pages_iff]
    constructor
    · rintro ⟨hk, hnone⟩
      rw [hlk.free hk] at hnone
      have hP := hlk.pages_iff.mp hk
      tauto
    · intro h
      have hk : k.pages = l.pages := hlk.pages_iff.mpr (h.imp_right And.left)
      rw [hlk.free hk]
      exact ⟨hk, h.imp_right And.right⟩

theorem Takes.congr {P Q : Prop} (h : l.Takes P k) (hPQ : P ↔ Q) : l.Takes Q k := propext hPQ ▸ h

theorem takes_pmmAllocPages (l : Ledger) (n : Nat) : l.Takes (n = 0) (l.pmmAllocPages n) := by
  have hnone : l.freePages.take n ++ l.pages = l.pages ↔ l.freePages = [] ∨ n = 0 := by
    rw [List.append_left_eq_self, List.take_eq_nil_iff, or_comm]
  refine ⟨List.suffix_append _ _, fun hpages => ?_, hnone⟩
  show l.freePages.drop n = l.freePages
  rcases hnone.mp hpages with hfree | rfl
  · rw [hfree, List.drop_nil]
  · exact List.drop_zero

theorem takes_kmalloc (l : Ledger) (got : Bool) : l.Takes (l.growth l.calls = 0) (l.kmalloc got) :=
  ⟨(l.takes_pmmAllocPages _).suffix, (l.takes_pmmAllocPages _).free, (l.takes_pmmAllocPages _).pages_iff⟩

/-- The next `n` calls of `kmalloc` do not extend the heap. -/
def Quiet (l : Ledger) (n : Nat) : Prop := ∀ i < n, l.growth (l.calls + i) = 0

/-- The blocks that the next `n` calls of `kmalloc` return, given its answers, are intact. -/
def Intact (l : Ledger) (blocks : List Bool) (n : Nat) : Prop :=
  ∀ i < n, blocks.getD i false = true → l.intact (l.addrs (l.calls + i)) = true

/-- Pages are never given back. -/
def LeavesPages (l k : Ledger) : Prop := l.pages.length ≤ k.pages.length

theorem LeavesPages.trans {j : Ledger} (hlk : l.LeavesPages k) (hkj : k.LeavesPages j) : l.LeavesPages j := le_trans hlk hkj

theorem Takes.leavesPages {P : Prop} (h : l.Takes P k) : l.LeavesPages k := h.suffix.length_le

end Ledger

/-! ## The live blocks -/

/-- The blocks of the entries of a chain and of their names. -/
def chainBlocks : List (Nat × Nat) → Multiset Nat
  | [] => 0
  | sym :: chain => {sym.1} + {sym.2} + chainBlocks chain

namespace Ledger

variable {h : Multiset Nat}

/-- The blocks that `elf_destroy_context` frees. -/
def owned (l : Ledger) : Multiset Nat := {l.ctx} + ∑ i ∈ Finset.range 256, chainBlocks (l.chains i)

/-- The blocks among these that `kfree` does not free. -/
def kept (l : Ledger) (h : Multiset Nat) : Multiset Nat := h.filter fun ptr => l.intact ptr = false

/-- The live blocks are `h`. -/
def withHeap (l : Ledger) (h : Multiset Nat) : Ledger := { l with heap := h }

@[simp] theorem kept_withHeap {h' : Multiset Nat} : (l.withHeap h).kept h' = l.kept h' := rfl

theorem kept_add {h' : Multiset Nat} : l.kept (h + h') = l.kept h + l.kept h' := Multiset.filter_add _ _ _

theorem kept_singleton {ptr : Nat} : l.kept {ptr} = 0 ↔ l.intact ptr = true := by
  unfold kept
  rw [Multiset.filter_singleton]
  cases l.intact ptr with
  | true => simp
  | false => simp

theorem kfree_eq {ptr : Nat} (hl : l.heap = h + {ptr}) : l.kfree ptr = l.withHeap (h + l.kept {ptr}) := by
  unfold kfree
  by_cases hptr : l.intact ptr = true
  · rw [if_pos hptr, kept_singleton.mpr hptr, hl, add_comm, Multiset.singleton_add, Multiset.erase_cons_head, add_zero]
    rfl
  · rw [if_neg hptr, show l.kept {ptr} = {ptr} from ?_, ← hl]
    · rfl
    · unfold kept
      rw [Multiset.filter_singleton, if_pos (by simpa using hptr)]

theorem freeChain_eq {chain : List (Nat × Nat)} (hl : l.heap = h + chainBlocks chain) :
    l.freeChain chain = l.withHeap (h + l.kept (chainBlocks chain)) := by
  induction chain generalizing l h with
  | nil =>
    rw [chainBlocks, add_zero] at hl
    subst hl
    show l = l.withHeap (l.heap + 0)
    rw [add_zero]
    rfl
  | cons sym chain ih =>
    have hname : l.kfree sym.2 = l.withHeap (h + chainBlocks chain + {sym.1} + l.kept {sym.2}) := by
      refine kfree_eq ?_
      rw [hl, chainBlocks]
      abel
    have hentry : (l.kfree sym.2).kfree sym.1 = l.withHeap (h + l.kept {sym.2} + l.kept {sym.1} + chainBlocks chain) := by
      rw [hname, kfree_eq (h := h + chainBlocks chain + l.kept {sym.2})]
      · show l.withHeap _ = _
        rw [kept_withHeap]
        congr 1
        abel
      · show h + chainBlocks chain + {sym.1} + l.kept {sym.2} = _
        abel
    show ((l.kfree sym.2).kfree sym.1).freeChain chain = _
    rw [hentry, ih rfl]
    show l.withHeap _ = _
    rw [kept_withHeap, chainBlocks, kept_add, kept_add]
    congr 1
    abel

theorem freeChains_eq {n : Nat} (hl : l.heap = h + ∑ i ∈ Finset.range n, chainBlocks (l.chains i)) :
    forUpTo (fun i l => l.freeChain (l.chains i)) n l =
      l.withHeap (h + l.kept (∑ i ∈ Finset.range n, chainBlocks (l.chains i))) := by
  induction n generalizing h with
  | zero =>
    rw [Finset.sum_range_zero, add_zero] at hl
    subst hl
    show l = l.withHeap (l.heap + 0)
    rw [add_zero]
    rfl
  | succ n ih =>
    -- the last chain is freed at the end
    rw [Finset.sum_range_succ, add_comm (Finset.sum _ _), ← add_assoc] at hl
    rw [forUpTo, ih hl]
    refine (freeChain_eq (h := h + l.kept (∑ i ∈ Finset.range n, chainBlocks (l.chains i))) ?_).trans ?_
    · show h + chainBlocks (l.chains n) + l.kept (∑ i ∈ Finset.range n, chainBlocks (l.chains i)) =
        h + l.kept (∑ i ∈ Finset.range n, chainBlocks (l.chains i)) + chainBlocks (l.chains n)
      abel
    · show l.withHeap _ = _
      rw [kept_withHeap, Finset.sum_range_succ, kept_add, add_assoc]
      rfl

/-- Freeing the context leaves the other blocks, and those that are not intact. -/
theorem elfDestroyContext_eq (hl : l.heap = h + l.owned) : l.elfDestroyContext = l.withHeap (h + l.kept l.owned) := by
  have hl' : l.heap = (h + {l.ctx}) + ∑ i ∈ Finset.range 256, chainBlocks (l.chains i) := by
    rw [hl, owned]
    abel
  unfold Ledger.elfDestroyContext
  rw [freeChains_eq hl']
  refine (kfree_eq (h := h + l.kept (∑ i ∈ Finset.range 256, chainBlocks (l.chains i))) ?_).trans ?_
  · show h + {l.ctx} + _ = _
    abel
  · show l.withHeap _ = _
    rw [kept_withHeap, owned, kept_add]
    congr 1
    show h + _ + l.kept {l.ctx} = _
    abel

theorem owned_addSymbol {hash : Nat} {sym : Nat × Nat} (hhash : hash < 256) :
    (l.addSymbol hash sym).owned = l.owned + {sym.1} + {sym.2} := by
  have hchain : ∀ i, chainBlocks ((l.addSymbol hash sym).chains i) =
      (if i = hash then {sym.1} + {sym.2} else 0) + chainBlocks (l.chains i) := by
    intro i
    rw [show (l.addSymbol hash sym).chains i = if i = hash then sym :: l.chains hash else l.chains i from rfl]
    split
    · rename_i hi
      rw [hi, chainBlocks]
    · rw [zero_add]
  have hsum : ∑ i ∈ Finset.range 256, chainBlocks ((l.addSymbol hash sym).chains i) =
      ({sym.1} + {sym.2}) + ∑ i ∈ Finset.range 256, chainBlocks (l.chains i) := by
    rw [Finset.sum_congr rfl fun i _ => hchain i, Finset.sum_add_distrib, Finset.sum_ite_eq',
      if_pos (Finset.mem_range.mpr hhash)]
  unfold owned
  rw [hsum]
  show {l.ctx} + _ = _
  abel

/-! ## The calls of `kmalloc` -/

/-- Since `l` there have been `n` calls of `kmalloc`, and `P` if no page has been asked for otherwise. -/
structure Counts (l : Ledger) (P : Prop) (n : Nat) (k : Ledger) : Prop where
  calls : k.calls = l.calls + n
  addrs : k.addrs = l.addrs
  growth : k.growth = l.growth
  intact : k.intact = l.intact
  takes : l.Takes (P ∧ l.Quiet n) k

/-- Since `l` there have been `n` calls of `kmalloc` with these answers, and `P` if no page has been asked for otherwise. What
they returned is live and owned, or has been freed if it was intact. -/
structure Tracks (l : Ledger) (P : Prop) (blocks : List Bool) (n : Nat) (k : Ledger) : Prop extends Counts l P n k where
  heap : ∃ lost, k.heap = l.heap + lost + k.owned ∧ (lost = 0 ∧ l.kept k.owned = 0 ↔ l.Intact blocks n)

theorem quiet_succ {n : Nat} : l.Quiet (n + 1) ↔ l.Quiet n ∧ l.growth (l.calls + n) = 0 := by
  unfold Quiet
  rw [Nat.forall_lt_succ_right]

theorem intact_succ {n : Nat} : l.Intact blocks (n + 1) ↔
    l.Intact blocks n ∧ (blocks.getD n false = true → l.intact (l.addrs (l.calls + n)) = true) := by
  unfold Intact
  rw [Nat.forall_lt_succ_right]

variable {P : Prop} {n : Nat}

theorem Counts.next_eq (h : l.Counts P n k) : k.next = l.addrs (l.calls + n) := by
  unfold next
  rw [h.addrs, h.calls]

theorem Counts.kmalloc (h : l.Counts P n k) (got : Bool) : l.Counts P (n + 1) (k.kmalloc got) := by
  refine ⟨congrArg (· + 1) h.calls, h.addrs, h.growth, h.intact, (h.takes.trans (k.takes_kmalloc got)).congr ?_⟩
  rw [h.growth, h.calls, quiet_succ, and_assoc]

/-- Giving back and entering blocks changes neither the pages nor the answers of `kmalloc`. -/
theorem Counts.congr {j : Ledger} (h : l.Counts P n k) (hcalls : j.calls = k.calls) (haddrs : j.addrs = k.addrs)
    (hgrowth : j.growth = k.growth) (hintact : j.intact = k.intact) (hpages : j.pages = k.pages)
    (hfree : j.freePages = k.freePages) : l.Counts P n j where
  calls := hcalls.trans h.calls
  addrs := haddrs.trans h.addrs
  growth := hgrowth.trans h.growth
  intact := hintact.trans h.intact
  takes := by
    obtain ⟨hsuffix, hsame, hiff⟩ := h.takes
    exact ⟨hpages ▸ hsuffix, fun hj => hfree.trans (hsame (hpages ▸ hj)), hpages ▸ hiff⟩

theorem Counts.kfree (h : l.Counts P n k) (ptr : Nat) : l.Counts P n (k.kfree ptr) := by
  unfold Ledger.kfree
  split
  · exact h.congr rfl rfl rfl rfl rfl rfl
  · exact h

/-- What `elf_destroy_context` gives back. -/
theorem Tracks.gives_back (h : l.Tracks P blocks n k) :
    k.elfDestroyContext.pages = l.pages ∧ k.elfDestroyContext.heap = l.heap ↔
      (l.freePages = [] ∨ P ∧ l.Quiet n) ∧ l.Intact blocks n := by
  obtain ⟨lost, hheap, hintact⟩ := h.heap
  have hkept : k.kept k.owned = l.kept k.owned := by
    unfold kept
    rw [h.intact]
  rw [elfDestroyContext_eq hheap, hkept, ← hintact]
  refine and_congr h.takes.pages_iff ?_
  show l.heap + lost + l.kept k.owned = l.heap ↔ _
  rw [add_assoc, add_eq_left, add_eq_zero]

/-- The block of the context. -/
theorem tracks_create (hgot : blocks.headD false = true) :
    l.Tracks True blocks 1 { l.kmalloc true with ctx := l.next, chains := fun _ => [] } := by
  have hcounts : l.Counts True 0 l := by
    refine ⟨rfl, rfl, rfl, rfl, (Takes.refl l).congr ?_⟩
    simp [Quiet]
  have howned : ({ l.kmalloc true with ctx := l.next, chains := fun _ => [] } : Ledger).owned = {l.next} := by
    show {l.next} + ∑ i ∈ Finset.range 256, chainBlocks [] = _
    rw [chainBlocks, Finset.sum_const_zero, add_zero]
  refine ⟨(hcounts.kmalloc true).congr rfl rfl rfl rfl rfl rfl, 0, ?_, ?_⟩
  · rw [howned]
    show l.next ::ₘ l.heap = _
    rw [← Multiset.singleton_add, add_zero, add_comm]
  · have hhead : blocks.getD 0 false = true := by
      cases blocks with
      | nil => exact hgot
      | cons got blocks => exact hgot
    rw [howned, kept_singleton, intact_succ, hhead, hcounts.next_eq]
    simp [Intact]

/-- A call that returns no memory. -/
theorem Tracks.refused (h : l.Tracks P blocks n k) (hgot : blocks.getD n false = false) :
    l.Tracks P blocks (n + 1) (k.kmalloc false) := by
  obtain ⟨lost, hheap, hintact⟩ := h.heap
  refine ⟨h.toCounts.kmalloc false, lost, hheap, ?_⟩
  rw [intact_succ, hgot, ← hintact]
  show lost = 0 ∧ l.kept k.owned = 0 ↔ _
  simp

/-- The two blocks of an entry. -/
theorem Tracks.entered (h : l.Tracks P blocks n k) (h0 : blocks.getD n false = true) (h1 : blocks.getD (n + 1) false = true)
    {hash : Nat} (hhash : hash < 256) : l.Tracks P blocks (n + 2)
      (((k.kmalloc true).kmalloc true).addSymbol hash (k.next, (k.kmalloc true).next)) := by
  obtain ⟨lost, hheap, hintact⟩ := h.heap
  have hnext := (h.toCounts.kmalloc true).next_eq
  have howned : (((k.kmalloc true).kmalloc true).addSymbol hash (k.next, (k.kmalloc true).next)).owned =
      k.owned + {k.next} + {(k.kmalloc true).next} := owned_addSymbol hhash
  refine ⟨((h.toCounts.kmalloc true).kmalloc true).congr rfl rfl rfl rfl rfl rfl, lost, ?_, ?_⟩
  · rw [howned]
    show (k.kmalloc true).next ::ₘ k.next ::ₘ k.heap = _
    rw [hheap, ← Multiset.singleton_add, ← Multiset.singleton_add]
    abel
  · rw [howned, kept_add, kept_add, add_eq_zero, add_eq_zero, kept_singleton, kept_singleton, intact_succ, intact_succ, h0, h1,
      ← hintact, h.next_eq, hnext]
    tauto

/-- The first block of an entry is freed when there is no second one. -/
theorem Tracks.given_back (h : l.Tracks P blocks n k) (h0 : blocks.getD n false = true)
    (h1 : blocks.getD (n + 1) false = false) :
    l.Tracks P blocks (n + 2) (((k.kmalloc true).kmalloc false).kfree k.next) := by
  obtain ⟨lost, hheap, hintact⟩ := h.heap
  have hfreed : ((k.kmalloc true).kmalloc false).kfree k.next =
      ((k.kmalloc true).kmalloc false).withHeap (k.heap + l.kept {k.next}) := by
    refine (kfree_eq (h := k.heap) ?_).trans ?_
    · show k.next ::ₘ k.heap = _
      rw [← Multiset.singleton_add, add_comm]
    · show Ledger.withHeap _ (k.heap + k.kept {k.next}) = _
      unfold kept
      rw [h.intact]
  refine ⟨((h.toCounts.kmalloc true).kmalloc false).kfree _, lost + l.kept {k.next}, ?_, ?_⟩
  · rw [hfreed]
    show k.heap + _ = l.heap + _ + k.owned
    rw [hheap]
    abel
  · rw [hfreed, add_eq_zero, kept_singleton, intact_succ, intact_succ, h0, h1, ← hintact, h.next_eq]
    show (lost = 0 ∧ _) ∧ l.kept k.owned = 0 ↔ _
    simp only [forall_const, Bool.false_eq_true, false_implies, and_true]
    tauto

end Ledger

/-- The blocks of an entry. -/
theorem tracks_enterLedger {P : Prop} {n : Nat} (name : List UInt8) (h : l.Tracks P blocks n k)
    (hblocks : st.blocks = blocks.drop n) :
    l.Tracks P blocks (n + if st.blocks.headD false then 2 else 1) (enterLedger name st k) := by
  have h0 : (kmalloc st).1 = blocks.getD n false := by
    show st.blocks.headD false = _
    rw [hblocks, List.headD_eq_head?_getD, List.head?_drop, List.getD_eq_getElem?_getD]
  have h1 : (kmalloc (kmalloc st).2).1 = blocks.getD (n + 1) false := by
    show st.blocks.tail.headD false = _
    rw [hblocks, List.tail_drop, List.headD_eq_head?_getD, List.head?_drop, List.getD_eq_getElem?_getD]
  rw [show st.blocks.headD false = (kmalloc st).1 from rfl]
  unfold enterLedger
  dsimp only
  cases hgot : (kmalloc st).1 with
  | false =>
    rw [hgot] at h0
    exact h.refused h0.symm
  | true =>
    rw [hgot] at h0
    rw [if_pos rfl, if_pos rfl]
    cases hgot' : (kmalloc (kmalloc st).2).1 with
    | false =>
      rw [hgot'] at h1
      exact h.given_back h0.symm h1.symm
    | true =>
      rw [hgot'] at h1
      exact h.entered h0.symm h1.symm (Nat.mod_lt _ (by norm_num))

/-! ## The symbols -/

/-- Entries, with the calls of `kmalloc` for them. -/
structure Tally where
  entries : Entries
  calls : Nat

/-- An entry takes two calls, or one that returns no memory. -/
def Tally.enter (s : Tally) (e : ElfSymbol) : Tally :=
  ⟨s.entries.enter e, s.calls + if s.entries.blocks.headD false then 2 else 1⟩

/-- An entry for a name that has none. -/
def Tally.enterNew (s : Tally) (e : ElfSymbol) : Tally :=
  if (s.entries.items.find? fun x => x.name = e.name).isSome then s else s.enter e

/-- The symbols of `.symtab`. -/
def symtabTally (img : Image) (st : Loader) : Tally :=
  (st.ctx.symtabTable.entries img st.mem st.ctx.loadBias).foldl Tally.enter ⟨⟨st.blocks, []⟩, 0⟩

/-- The calls of `kmalloc` by `elf_resolve_symbols`. -/
def symbolCalls (img : Image) (st : Loader) : Nat :=
  ((st.ctx.dynsymTable.entries img st.mem st.ctx.loadBias).foldl Tally.enterNew (symtabTally img st)).calls

/-- The chains hold the entries of the tally, the ledger has its calls after that for the context. -/
structure Counted (l : Ledger) (blocks : List Bool) (st : Loader) (s : Tally) (u : Loader × Ledger) : Prop where
  holding : Holding st s.entries u.1
  tracks : l.Tracks True blocks (1 + s.calls) u.2
  left : s.entries.blocks = blocks.drop (1 + s.calls)

variable {s : Tally} {u : Loader × Ledger} {i : Nat}

theorem Counted.enter {e : ElfSymbol} {v : Loader} (h : Counted l blocks st s u) (hv : Holding st (s.entries.enter e) v) :
    Counted l blocks st (s.enter e) (v, enterLedger e.name u.1 u.2) := by
  have hblocks : u.1.blocks = s.entries.blocks := by
    obtain ⟨table, _, hu⟩ := h.holding
    rw [hu]
    rfl
  refine ⟨hv, ?_, ?_⟩
  · have htracks := tracks_enterLedger e.name h.tracks (hblocks.trans h.left)
    rwa [hblocks, add_assoc] at htracks
  · unfold Tally.enter Entries.enter
    dsimp only
    split
    · show s.entries.blocks.tail.tail = _
      rw [h.left, List.tail_drop, List.tail_drop]
      rfl
    · show s.entries.blocks.tail = _
      rw [h.left, List.tail_drop]
      rfl

/-- One symbol of `.symtab`. -/
theorem leaves_symtabStep (h : Counted l blocks st s u) :
    Leaves (follow (symtabStep img i) (symtabLedger img i) u) (fun _ _ => False)
      (Counted l blocks st ((st.ctx.symtabTable.entry img st.mem st.ctx.loadBias i).toList.foldl Tally.enter s)) := by
  refine leaves_follow (fun e he => absurd he (goes_symtabStep h.holding).ne_throw) fun v hv => ?_
  have hholding := (goes_symtabStep h.holding).of_returns hv
  have hsame : u.1.mem = st.mem ∧ u.1.ctx.symtabTable = st.ctx.symtabTable := by
    obtain ⟨table, _, hu⟩ := h.holding
    rw [hu]
    exact ⟨rfl, rfl⟩
  unfold symtabLedger
  dsimp only
  rw [hsame.1, hsame.2]
  unfold SymTable.entry at hholding ⊢
  by_cases hnamed : Named st.mem (symAt st.ctx.symtabTable.table i)
  · rw [if_pos hnamed] at hholding ⊢
    rw [if_pos hnamed]
    exact h.enter hholding
  · rw [if_neg hnamed] at hholding ⊢
    rw [if_neg hnamed]
    exact ⟨hholding, h.tracks, h.left⟩

/-- One symbol of `.dynsym`. -/
theorem leaves_dynsymStep (h : Counted l blocks st s u) :
    Leaves (follow (dynsymStep img i) (dynsymLedger img i) u) (fun _ _ => False)
      (Counted l blocks st ((st.ctx.dynsymTable.entry img st.mem st.ctx.loadBias i).toList.foldl Tally.enterNew s)) := by
  refine leaves_follow (fun e he => absurd he (goes_dynsymStep h.holding).ne_throw) fun v hv => ?_
  have hholding := (goes_dynsymStep h.holding).of_returns hv
  have hfind := findSymbol_of_holding h.holding (img.nameAt st.mem (st.ctx.dynsymTable.nameAddr st.mem i))
  have hsame : u.1.mem = st.mem ∧ u.1.ctx.dynsymTable = st.ctx.dynsymTable := by
    obtain ⟨table, _, hu⟩ := h.holding
    rw [hu]
    exact ⟨rfl, rfl⟩
  unfold dynsymLedger
  dsimp only
  rw [hsame.1, hsame.2, hfind]
  unfold SymTable.entry at hholding ⊢
  by_cases hnamed : Named st.mem (symAt st.ctx.dynsymTable.table i)
  · rw [if_pos hnamed] at hholding ⊢
    show Counted l blocks st (s.enterNew (st.ctx.dynsymTable.symbol img st.mem st.ctx.loadBias i)) _
    unfold Tally.enterNew
    replace hholding : Holding st (s.entries.enterNew (st.ctx.dynsymTable.symbol img st.mem st.ctx.loadBias i)) v := hholding
    unfold Entries.enterNew at hholding
    rw [show (st.ctx.dynsymTable.symbol img st.mem st.ctx.loadBias i).name =
      img.nameAt st.mem (st.ctx.dynsymTable.nameAddr st.mem i) from rfl] at hholding ⊢
    cases hsome : (s.entries.items.find? fun x => x.name =
        img.nameAt st.mem (st.ctx.dynsymTable.nameAddr st.mem i)).isSome with
    | true =>
      rw [hsome, if_pos rfl] at hholding
      rw [if_pos rfl, if_neg (by simp)]
      exact ⟨hholding, h.tracks, h.left⟩
    | false =>
      rw [hsome, if_neg (by simp)] at hholding
      rw [if_neg (by simp), if_pos ⟨hnamed, rfl⟩]
      exact h.enter hholding
  · rw [if_neg hnamed] at hholding ⊢
    rw [if_neg fun hboth => hnamed hboth.1]
    exact ⟨hholding, h.tracks, h.left⟩

/-- The symbols of a table. -/
theorem leaves_symbols {T : SymTable} {enter : Tally → ElfSymbol → Tally} {step : Nat → Loader → M Loader}
    {ledger : Nat → Loader → Ledger → Ledger} (h : Counted l blocks st s u)
    (hstep : ∀ i s u, Counted l blocks st s u → Leaves (follow (step i) (ledger i) u) (fun _ _ => False)
      (Counted l blocks st ((T.entry img st.mem st.ctx.loadBias i).toList.foldl enter s))) :
    Leaves (symbolsAccount T step ledger u) (fun _ _ => False)
      (Counted l blocks st ((T.entries img st.mem st.ctx.loadBias).foldl enter s)) := by
  unfold symbolsAccount SymTable.entries
  by_cases hp : T.Present
  · rw [if_pos hp, if_pos hp]
    refine leaves_forEnding (fun i => Counted l blocks st
      (((List.range i).filterMap (T.entry img st.mem st.ctx.loadBias)).foldl enter s)) h fun i _ v hv => ?_
    have hi := hstep i _ v hv
    rwa [← List.foldl_append, ← filterMap_range_succ] at hi
  · rw [if_neg hp, if_neg hp]
    exact leaves_return h

/-- All symbols. -/
theorem leaves_elfResolveSymbols (hempty : ∀ i, u.1.ctx.symbolHash i = []) (htracks : l.Tracks True blocks 1 u.2)
    (hleft : u.1.blocks = blocks.drop 1) : Leaves (elfResolveSymbolsAccount img u) (fun _ _ => False)
      fun v => l.Tracks True blocks (1 + symbolCalls img u.1) v.2 ∧ v.1.blocks = blocks.drop (1 + symbolCalls img u.1) := by
  have hstart : Counted l blocks u.1 ⟨⟨u.1.blocks, []⟩, 0⟩ u :=
    ⟨⟨u.1.ctx.symbolHash, bucketed_empty hempty, rfl⟩, htracks, hleft⟩
  refine leaves_andThen (leaves_symbols hstart fun i s v => @leaves_symtabStep img u.1 l blocks s v i) fun v hv => ?_
  have htable : v.1.ctx.dynsymTable = u.1.ctx.dynsymTable := by
    obtain ⟨table, _, hv⟩ := hv.holding
    rw [hv]
    rfl
  rw [htable]
  refine (leaves_symbols hv fun i s w => @leaves_dynsymStep img u.1 l blocks s w i).mono (fun _ _ h => h) fun w hw => ?_
  refine ⟨hw.tracks, ?_⟩
  have hleft := hw.left
  obtain ⟨table, _, hw⟩ := hw.holding
  rw [hw]
  exact hleft

/-! ## Pages that have been taken -/

namespace Ledger

theorem LeavesPages.refl (l : Ledger) : l.LeavesPages l := le_refl _

theorem leavesPages_kfree {ptr : Nat} : l.LeavesPages (l.kfree ptr) := by
  unfold kfree
  split
  · exact .refl l
  · exact .refl l

theorem leavesPages_freeChain {chain : List (Nat × Nat)} : l.LeavesPages (l.freeChain chain) := by
  induction chain generalizing l with
  | nil => exact .refl l
  | cons sym chain ih => exact (leavesPages_kfree.trans leavesPages_kfree).trans ih

theorem leavesPages_elfDestroyContext : l.LeavesPages l.elfDestroyContext :=
  (forUpTo_inv (fun _ k => l.LeavesPages k) (.refl l) fun _ _ _ hk => hk.trans leavesPages_freeChain).trans leavesPages_kfree

/-- Something has been taken if it was asked for while a page was free. -/
theorem Takes.lt {P : Prop} (h : l.Takes P k) (hfree : l.freePages ≠ []) (hP : ¬ P) : l.pages.length < k.pages.length := by
  refine lt_of_le_of_ne h.suffix.length_le fun heq => ?_
  exact (h.pages_iff.mp (h.suffix.eq_of_length heq).symm).elim hfree hP

end Ledger

theorem leavesPages_enterLedger {name : List UInt8} : l.LeavesPages (enterLedger name st l) := by
  have hone := (l.takes_kmalloc (kmalloc st).1).leavesPages
  have htwo := hone.trans ((l.kmalloc (kmalloc st).1).takes_kmalloc (kmalloc (kmalloc st).2).1).leavesPages
  unfold enterLedger
  dsimp only
  split
  · split
    · exact htwo
    · exact htwo.trans Ledger.leavesPages_kfree
  · exact hone

theorem leavesPages_symtabLedger {i : Nat} : l.LeavesPages (symtabLedger img i st l) := by
  unfold symtabLedger
  dsimp only
  split
  · exact leavesPages_enterLedger
  · exact .refl l

theorem leavesPages_dynsymLedger {i : Nat} : l.LeavesPages (dynsymLedger img i st l) := by
  unfold dynsymLedger
  dsimp only
  split
  · exact leavesPages_enterLedger
  · exact .refl l

theorem leavesPages_segmentLedger {i : Nat} : l.LeavesPages (segmentLedger i st l) := by
  unfold segmentLedger
  dsimp only
  split
  · exact (l.takes_pmmAllocPages _).leavesPages
  · exact .refl l

theorem leavesPages_tlsLedger : l.LeavesPages (tlsLedger st l) := by
  unfold tlsLedger
  split
  · exact (l.takes_kmalloc _).leavesPages
  · exact .refl l

/-! ## The first request -/

/-- The pages that the first segment asks for, among the first `n` program headers of an image at its own addresses. -/
def firstRequest (m : Mem) (phdrs : Nat) : Nat → Option Nat
  | 0 => none
  | i + 1 =>
    let seg := segmentAt m phdrs i
    (firstRequest m phdrs i).or
      (if seg.pType = ptLoad then some (mappedSize (wrap seg.vaddr) seg.memsz / 4096) else none)

/-- The pages that are asked for first. -/
def requested (img : Image) (m : Mem) (phdrs : Nat) : Nat :=
  if eType img m = etDyn then
    let extent := extentOf m { emptyContext with phdrs := phdrs } (ePhnum img m)
    mappedSize 0x400000 (wrap (extent.2 + (2 ^ 64 - extent.1))) / 4096
  else (firstRequest m phdrs (ePhnum img m)).getD 0

/-- Pages are asked for, perhaps none. -/
def Requests (img : Image) (m : Mem) (phdrs : Nat) : Prop :=
  eType img m = etDyn ∨ (firstRequest m phdrs (ePhnum img m)).isSome = true

instance (img : Image) (m : Mem) (phdrs : Nat) : Decidable (Requests img m phdrs) := inferInstanceAs (Decidable (_ ∨ _))

theorem firstRequest_mono {phdrs i n r : Nat} (h : firstRequest m phdrs i = some r) (hi : i ≤ n) :
    firstRequest m phdrs n = some r := by
  induction n, hi using Nat.le_induction with
  | base => exact h
  | succ n _ ih =>
    rw [firstRequest, ih]
    rfl

theorem extentOf_congr {ctx ctx' : ElfContext} (h : ctx.phdrs = ctx'.phdrs) (n : Nat) :
    extentOf m ctx n = extentOf m ctx' n := by
  induction n with
  | zero => rfl
  | succ n ih => rw [extentOf, extentOf, ih, h]

theorem requested_of_dyn (hdyn : eType img st.mem = etDyn) :
    requested img st.mem st.ctx.phdrs = baseLen img st / 4096 := by
  unfold requested baseLen extent
  rw [if_pos hdyn, @extentOf_congr st.mem { emptyContext with phdrs := st.ctx.phdrs } st.ctx rfl]

theorem requested_eq {i n : Nat} (hexec : eType img st.mem ≠ etDyn) (hi : i ≤ ePhnum img st.mem)
    (h : firstRequest st.mem st.ctx.phdrs i = some n) : requested img st.mem st.ctx.phdrs = n := by
  unfold requested
  rw [if_neg hexec, firstRequest_mono h hi]
  rfl

theorem requested_of_none (h : ¬ Requests img st.mem st.ctx.phdrs) : requested img st.mem st.ctx.phdrs = 0 := by
  unfold requested
  rw [if_neg fun hdyn => h (.inl hdyn), Option.not_isSome_iff_eq_none.mp fun hsome => h (.inr hsome)]
  rfl

/-! ## The pages of the segments -/

/-- Pages have been taken for the segments since `l`, when some were free. -/
structure Granted (img : Image) (st : Loader) (l k : Ledger) : Prop where
  asked : requested img st.mem st.ctx.phdrs ≠ 0
  free : l.freePages ≠ []
  taken : l.pages.length < k.pages.length

theorem Granted.leavesPages {j : Ledger} (h : Granted img st l k) (hkj : k.LeavesPages j) : Granted img st l j :=
  ⟨h.asked, h.free, h.taken.trans_le hkj⟩

/-- What the first request leaves, whether or not it is granted. -/
theorem Ledger.Tracks.elfMapMemory {vaddr size n : Nat} (h : l.Tracks True blocks n k) :
    l.Tracks (mappedSize vaddr size / 4096 = 0) blocks n (k.elfMapMemory vaddr size) := by
  obtain ⟨hcounts, hheap⟩ := h
  refine ⟨⟨hcounts.calls, hcounts.addrs, hcounts.growth, hcounts.intact, ?_⟩, hheap⟩
  refine (hcounts.takes.trans (k.takes_pmmAllocPages (mappedSize vaddr size / 4096))).congr ?_
  rw [true_and, and_comm]

/-- A request that is granted. -/
theorem granted_elfMapMemory {vaddr size n page : Nat} (h : l.Tracks True blocks n k) (hfree : l.freePages = [] → page = 0)
    (hmap : Mapped page (mappedSize vaddr size)) (hasked : requested img st.mem st.ctx.phdrs = mappedSize vaddr size / 4096) :
    Granted img st l (k.elfMapMemory vaddr size) := by
  have hne : mappedSize vaddr size / 4096 ≠ 0 := fun hzero => mappedSize_div.mp hzero hmap.2
  have hsome : l.freePages ≠ [] := fun hnone => hmap.1 (hfree hnone)
  exact ⟨hasked ▸ hne, hsome, h.elfMapMemory.takes.lt hsome fun hzero => hne hzero.1⟩

/-- Only a segment that is loaded can end the loop. -/
theorem segmentStep_ne_throw {i : Nat} {e : Int} (htype : (segmentAt st.mem st.ctx.phdrs i).pType ≠ ptLoad) :
    segmentStep img i st ≠ throw e := by
  have hgoes : Goes (segmentStep img i st) fun _ => True := by
    refine goes_field_bind ?_
    rw [if_neg (show fieldVal st.mem (phdrAt st.ctx i) 0 4 ≠ ptLoad from htype)]
    exact decides_otherHeader.goes.mono fun _ _ => trivial
  exact hgoes.ne_throw

theorem segmentStep_mapped {i : Nat} (h : Returns (segmentStep img i st) t)
    (hload : (segmentAt st.mem st.ctx.phdrs i).pType = ptLoad) : Mapped (st.pages.headD 0)
      (mappedSize ((segmentAt st.mem st.ctx.phdrs i).addr st.ctx) (segmentAt st.mem st.ctx.phdrs i).memsz) := by
  obtain ⟨_, h⟩ := returns_field_bind.mp h
  rw [if_pos (show fieldVal st.mem (phdrAt st.ctx i) 0 4 = ptLoad from hload)] at h
  unfold loadSegment at h
  simp only [returns_field_bind] at h
  obtain ⟨_, _, _, _, h⟩ := h
  by_contra hnot
  have hrefused : (elfMapMemory st (wrap (fieldVal st.mem (phdrAt st.ctx i) 16 8 + st.ctx.loadBias))
      (fieldVal st.mem (phdrAt st.ctx i) 40 8)).1 = 0 := elfMapMemory_of_not hnot
  rw [if_pos hrefused] at h
  exact not_returns_throw h

/-- The context, the pages, the blocks and memory are as in `st`. -/
def AsBefore (st t : Loader) : Prop := ∃ info, t = { st with info := info }

theorem AsBefore.sameRest {v : Loader} (h : AsBefore st t) (htv : SameRest t v) : AsBefore st v := by
  obtain ⟨info, rfl⟩ := h
  obtain ⟨mem, pages, blocks, ctx, info⟩ := v
  obtain ⟨hctx, hpages, hblocks, hmem⟩ := htv
  obtain rfl : ctx = st.ctx := hctx
  obtain rfl : pages = st.pages := hpages
  obtain rfl : blocks = st.blocks := hblocks
  obtain rfl : mem = st.mem := hmem
  exact ⟨info, rfl⟩

/-- Before program header `i` of an image at its own addresses, either nothing has been asked for, or the first request has been
granted. -/
def Reached (img : Image) (st : Loader) (l : Ledger) (blocks : List Bool) (i : Nat) (t : Loader × Ledger) : Prop :=
  match firstRequest st.mem st.ctx.phdrs i with
  | none => AsBefore st t.1 ∧ l.Tracks True blocks 1 t.2
  | some _ => Granted img st l t.2

/-- When loading the segments fails: at the first request, or after it. -/
def SegmentsFail (img : Image) (st : Loader) (l : Ledger) (blocks : List Bool) (t : Loader × Ledger) : Prop :=
  (Requests img st.mem st.ctx.phdrs ∧ l.Tracks (requested img st.mem st.ctx.phdrs = 0) blocks 1 t.2) ∨ Granted img st l t.2

/-- When it does not: without a request, or after it. -/
def SegmentsPass (img : Image) (st : Loader) (l : Ledger) (blocks : List Bool) (t : Loader × Ledger) : Prop :=
  (¬ Requests img st.mem st.ctx.phdrs ∧ AsBefore st t.1 ∧ l.Tracks True blocks 1 t.2) ∨ Granted img st l t.2

variable {u : Loader × Ledger} {i : Nat}

theorem leaves_segmentStep (hbias : st.ctx.loadBias = 0) (hexec : eType img st.mem ≠ etDyn)
    (hfree : l.freePages = [] → st.pages.headD 0 = 0) (h : Reached img st l blocks i u) (hi : u.1.mem = st.mem → i < ePhnum img st.mem) :
    Leaves (follow (segmentStep img i) (segmentLedger i) u) (fun _ => SegmentsFail img st l blocks)
      (Reached img st l blocks (i + 1)) := by
  unfold Reached at h
  cases hreq : firstRequest st.mem st.ctx.phdrs i with
  | some n =>
    rw [hreq] at h
    have hgranted : Granted img st l (segmentLedger i u.1 u.2) := h.leavesPages leavesPages_segmentLedger
    refine leaves_follow (fun _ _ => .inr hgranted) fun _ _ => ?_
    unfold Reached
    rw [firstRequest_mono hreq (Nat.le_succ i)]
    exact hgranted
  | none =>
    rw [hreq] at h
    obtain ⟨hbefore, htracks⟩ := h
    obtain ⟨info, hu⟩ := hbefore
    have hlt : i < ePhnum img st.mem := hi (by rw [hu])
    have hseg : segmentAt u.1.mem u.1.ctx.phdrs i = segmentAt st.mem st.ctx.phdrs i := by
      rw [hu]
    by_cases hload : (segmentAt st.mem st.ctx.phdrs i).pType = ptLoad
    · have haddr : (segmentAt st.mem st.ctx.phdrs i).addr u.1.ctx = wrap (segmentAt st.mem st.ctx.phdrs i).vaddr := by
        rw [hu]
        show wrap (_ + st.ctx.loadBias) = _
        rw [hbias, add_zero]
      have hsucc : firstRequest st.mem st.ctx.phdrs (i + 1) = some (mappedSize
          (wrap (segmentAt st.mem st.ctx.phdrs i).vaddr) (segmentAt st.mem st.ctx.phdrs i).memsz / 4096) := by
        rw [firstRequest, hreq, if_pos hload]
        rfl
      have hasked := requested_eq hexec hlt hsucc
      have hledger : segmentLedger i u.1 u.2 = u.2.elfMapMemory (wrap (segmentAt st.mem st.ctx.phdrs i).vaddr)
          (segmentAt st.mem st.ctx.phdrs i).memsz := by
        unfold segmentLedger
        rw [hseg, if_pos hload, haddr]
      refine leaves_follow (fun _ _ => .inl ⟨.inr ?_, ?_⟩) fun v hv => ?_
      · rw [firstRequest_mono hsucc hlt]
        rfl
      · rw [hledger, hasked]
        exact htracks.elfMapMemory
      · have hmap := segmentStep_mapped hv (by rwa [hseg])
        rw [hseg, haddr, show u.1.pages = st.pages by rw [hu]] at hmap
        unfold Reached
        rw [hsucc, hledger]
        exact granted_elfMapMemory htracks hfree hmap hasked
    · refine leaves_follow (fun e he => absurd he (segmentStep_ne_throw (by rwa [hseg]))) fun v hv => ?_
      have hsame := segmentStep_other hv (by rwa [← hseg] at hload)
      unfold Reached
      rw [firstRequest, hreq, if_neg hload]
      refine ⟨AsBefore.sameRest ⟨info, hu⟩ hsame, ?_⟩
      unfold segmentLedger
      rw [hseg, if_neg hload]
      exact htracks

/-- The loop over the program headers of an image at its own addresses. -/
theorem leaves_loadPhdrs (hbias : st.ctx.loadBias = 0) (hexec : eType img st.mem ≠ etDyn)
    (hfree : l.freePages = [] → st.pages.headD 0 = 0) (h : Reached img st l blocks 0 u) :
    Leaves (loadPhdrsAccount img u) (fun _ => SegmentsFail img st l blocks) (SegmentsPass img st l blocks) := by
  refine (leaves_forEndingBelow (Reached img st l blocks) h (fun _ _ => field_ne_throw) fun i n v hv hn hi =>
    leaves_segmentStep hbias hexec hfree hv fun hmem => ?_).mono (fun _ _ h => h) ?_
  · rw [hmem] at hn
    have hnum : ePhnum img st.mem = n := (returns_field.mp hn).2
    rwa [hnum]
  · rintro v ⟨j, hv, hend⟩
    unfold Reached at hv
    cases hreq : firstRequest st.mem st.ctx.phdrs j with
    | some n =>
      rw [hreq] at hv
      exact .inr hv
    | none =>
      rw [hreq] at hv
      refine .inl ⟨?_, hv⟩
      have hall : ePhnum img st.mem ≤ j := by
        rcases hend with rfl | ⟨n, hn, hj⟩
        · exact ePhnum_lt.le
        · obtain ⟨info, hv⟩ := hv.1
          rw [hv] at hn
          have hnum : ePhnum img st.mem = n := (returns_field.mp hn).2
          rwa [hnum]
      rintro (hdyn | hsome)
      · exact hexec hdyn
      · obtain ⟨n, hn⟩ := Option.isSome_iff_exists.mp hsome
        rw [firstRequest_mono hn hall] at hreq
        cases hreq

/-- The same after a request that has been granted. -/
theorem leaves_loadPhdrs_of_granted (h : Granted img st l u.2) :
    Leaves (loadPhdrsAccount img u) (fun _ => SegmentsFail img st l blocks) (SegmentsPass img st l blocks) := by
  refine (leaves_forEndingBelow (fun _ v => Granted img st l v.2) h (fun _ _ => field_ne_throw) fun i n v hv _ _ => ?_).mono
    (fun _ _ hfail => .inr hfail) ?_
  · exact leaves_follow_account (hv.leavesPages leavesPages_segmentLedger)
  · rintro v ⟨_, hv, _⟩
    exact .inr hv

/-- The end of the function changes the information for the caller only. -/
theorem leaves_segmentsEnd {E : Int → Loader × Ledger → Prop} (h : SegmentsPass img st l blocks u) :
    Leaves (passing (segmentsEnd img) u) E (SegmentsPass img st l blocks) := by
  have hgoes : Goes (segmentsEnd img u.1) (SameRest u.1) :=
    goes_bind goes_field fun _ _ => goes_bind goes_field fun _ _ => goes_bind goes_field fun _ _ =>
      goes_pure ⟨rfl, rfl, rfl, rfl⟩
  refine leaves_follow (fun _ he => absurd he hgoes.ne_throw) fun v hv => ?_
  rcases h with ⟨hnone, hbefore, htracks⟩ | hgranted
  · exact .inl ⟨hnone, hbefore.sameRest (hgoes.of_returns hv), htracks⟩
  · exact .inr hgranted

/-- The base of an image of type `ET_DYN` is the first request. -/
theorem leaves_setLoadBias_of_dyn (hu : u.1 = st) (hdyn : eType img st.mem = etDyn)
    (hfree : l.freePages = [] → st.pages.headD 0 = 0) (h : l.Tracks True blocks 1 u.2) :
    Leaves (follow (setLoadBias img) (biasLedger img) u) (fun _ => SegmentsFail img st l blocks)
      fun v => Granted img st l v.2 := by
  subst hu
  have hledger : biasLedger img u.1 u.2 =
      u.2.elfMapMemory 0x400000 (wrap ((extent img u.1).2 + (2 ^ 64 - (extent img u.1).1))) := if_pos hdyn
  refine leaves_follow (fun e he => .inl ⟨.inl hdyn, ?_⟩) fun v hv => ?_
  · rw [hledger, requested_of_dyn hdyn]
    exact h.elfMapMemory
  · rw [hledger]
    exact granted_elfMapMemory h hfree ((decides_setLoadBias.of_returns hv).2.1 hdyn) (requested_of_dyn hdyn)

/-- Nothing is asked for an image at its own addresses. -/
theorem leaves_setLoadBias_of_exec {E : Int → Loader × Ledger → Prop} (hu : u.1 = st) (hbias : st.ctx.loadBias = 0)
    (hexec : eType img st.mem ≠ etDyn) (h : l.Tracks True blocks 1 u.2) :
    Leaves (follow (setLoadBias img) (biasLedger img) u) E (Reached img st l blocks 0) := by
  subst hu
  refine leaves_follow (fun e he => absurd (fun hdyn => absurd hdyn hexec) (decides_setLoadBias.of_throw he)) fun v hv => ?_
  have hbiased := (decides_setLoadBias.of_returns hv).2.2
  rw [show biasLedger img u.1 u.2 = u.2 from if_neg hexec]
  refine ⟨AsBefore.sameRest (t := u.1) ⟨u.1.info, rfl⟩ ⟨?_, ?_, hbiased.blocks, ?_⟩, h⟩
  · rw [hbiased.ctx, biasedCtx, if_neg hexec, ← hbias]
  · rw [hbiased.pages, segmentPages, if_neg hexec]
  · rw [hbiased.mem, biasedMem, if_neg hexec]

/-- What loading the segments takes. -/
theorem leaves_elfLoadSegments (hu : u.1 = st) (hbias : st.ctx.loadBias = 0)
    (hfree : l.freePages = [] → st.pages.headD 0 = 0) (h : l.Tracks True blocks 1 u.2) :
    Leaves (elfLoadSegmentsAccount img u) (fun _ => SegmentsFail img st l blocks) (SegmentsPass img st l blocks) := by
  by_cases hdyn : eType img st.mem = etDyn
  · exact leaves_andThen (leaves_setLoadBias_of_dyn hu hdyn hfree h) fun v hv =>
      leaves_andThen (leaves_loadPhdrs_of_granted hv) fun w hw => leaves_segmentsEnd hw
  · exact leaves_andThen (leaves_setLoadBias_of_exec hu hbias hdyn h) fun v hv =>
      leaves_andThen (leaves_loadPhdrs hbias hdyn hfree hv) fun w hw => leaves_segmentsEnd hw

/-! ## A failed load -/

theorem value?_eq_some {x : M Int} {code : Int} : value? x = some code ↔ Returns x code := by
  constructor
  · exact returns_of_value?
  · intro h
    rw [h]
    rfl

/-- Nothing is mapped before the load fails with `code`: there is no context, or the first request is for no pages. -/
def NothingMapped (img : Image) (st : Loader) : Prop :=
  ¬ CanCreate img st ∨ requested img st.mem (phdrTable img st.mem) = 0

/-- The calls of `kmalloc` by a load that fails with `code` before it has taken pages for a segment: none for an image that is
not valid; that for the context, when it fails or the first request does; else also those for the symbols and, when it is the
last call of the loader that fails, that for the block of `elf_setup_tls`. -/
def failCalls (img : Image) (st : Loader) (code : Int) : Nat :=
  if value? (elfValidate img st.mem) ≠ some 0 then 0
  else if st.blocks.headD false = false ∨ Requests img st.mem (phdrTable img st.mem) then 1
  else 1 + symbolCalls img (created img st) + if code = elfErrorNomem then 1 else 0

/-- No page is taken, as none is free or none is asked for, and the blocks that are taken are intact when they are freed. -/
def GivesBack (img : Image) (st : Loader) (l : Ledger) (code : Int) : Prop :=
  (l.freePages = [] ∨ NothingMapped img st ∧ l.Quiet (failCalls img st code)) ∧ l.Intact st.blocks (failCalls img st code)

/-- The pages and the blocks are those before the load. -/
def Restored (l k : Ledger) : Prop := k.pages = l.pages ∧ k.heap = l.heap

theorem headD_eq_getD : blocks.headD false = blocks.getD 0 false := by
  cases blocks with
  | nil => rfl
  | cons got blocks => rfl

/-- The block of the context, if there is one. -/
theorem leaves_elfCreateContext :
    Leaves (follow (fun st => elfCreateContext img { st with info := emptyInfo }) (createLedger img) (st, l))
      (fun code t => Restored l t.2 ↔ GivesBack img st l code)
      fun t => CanCreate img st ∧ t.1 = created img st ∧ l.Tracks True st.blocks 1 t.2 := by
  have hdecides : Decides (elfCreateContext img { st with info := emptyInfo }) (CanCreate img st → ContextOk img st.mem)
      (CanCreate img st) fun s => s = created img st := decides_elfCreateContext
  refine leaves_follow (fun e he => ?_) fun t ht => ?_
  · have hcreate : ¬ CanCreate img st := hdecides.of_throw he
    unfold createLedger GivesBack Restored
    by_cases hvalid : value? (elfValidate img st.mem) = some 0
    · have hgot : st.blocks.headD false = false :=
        Bool.eq_false_iff.mpr fun hgot => hcreate ⟨value?_eq_some.mp hvalid, hgot⟩
      have hcalls : failCalls img st e = 1 := by
        unfold failCalls
        rw [if_neg (not_not.mpr hvalid), if_pos (.inl hgot)]
      rw [if_pos hvalid, hcalls, show (kmalloc st).1 = false from hgot]
      show (l.kmalloc false).pages = l.pages ∧ l.heap = l.heap ↔ _
      rw [(l.takes_kmalloc false).pages_iff]
      rw [headD_eq_getD, List.getD_eq_getElem?_getD] at hgot
      simp [NothingMapped, hcreate, Ledger.Quiet, Ledger.Intact, hgot]
    · have hcalls : failCalls img st e = 0 := if_pos hvalid
      rw [if_neg hvalid, hcalls]
      simp [NothingMapped, hcreate, Ledger.Quiet, Ledger.Intact]
  · obtain ⟨_, hcreate, rfl⟩ := hdecides.of_returns ht
    refine ⟨hcreate, rfl, ?_⟩
    unfold createLedger
    rw [if_pos (value?_eq_some.mpr hcreate.1), show (kmalloc st).1 = true from hcreate.2]
    exact Ledger.tracks_create hcreate.2

theorem leaves_destroyOnFailure {x : Account} {E : Int → Ledger → Prop} {R : Loader × Ledger → Prop}
    (hx : Leaves x (fun e t => E e t.2.elfDestroyContext) R) : Leaves (destroyOnFailure x) (fun e t => E e t.2) R := by
  rcases x with _ | ⟨_ | e, t⟩
  · exact leaves_none
  · exact leaves_return (hx.returned t rfl)
  · have hend : E e t.2.elfDestroyContext := hx.early e t rfl
    show Leaves (some (some e, (t.1, t.2.elfDestroyContext))) _ _
    generalize t.2.elfDestroyContext = k at hend ⊢
    exact leaves_early hend

/-- The relocations take nothing. -/
theorem leaves_elfApplyRelocations {P : Loader × Ledger → Prop} (hP : ∀ k v, OnlyMem u.1 v → P (u.1, k) → P (v, k)) (h : P u) :
    Leaves (passing (elfApplyRelocations img) u) (fun e t => RelocCode e ∧ P t) P :=
  leaves_follow (fun e he => ⟨fails_elfApplyRelocations e he, h⟩) fun v hv => hP u.2 v (onlyMem_elfApplyRelocations hv) h

/-- Without memory for the block, nothing is taken. -/
theorem leaves_elfSetupTls {n : Nat} (h : l.Tracks True blocks n u.2) (hleft : u.1.blocks = blocks.drop n) :
    Leaves (follow elfSetupTls tlsLedger u) (fun e t => e = elfErrorNomem ∧ l.Tracks True blocks (n + 1) t.2) fun _ => True := by
  refine leaves_follow (fun e he => ?_) fun _ _ => trivial
  unfold elfSetupTls at he
  unfold tlsLedger
  by_cases htls : u.1.info.hasTls = true
  · rw [if_pos htls] at he ⊢
    have hgot : (kmalloc u.1).1 = blocks.getD n false := by
      show u.1.blocks.headD false = _
      rw [hleft, List.headD_eq_head?_getD, List.head?_drop, List.getD_eq_getElem?_getD]
    have hblock : (if (kmalloc u.1).1 = true then (pure (kmalloc u.1).2 : M Loader) else throw elfErrorNomem) = throw e := he
    cases hnone : (kmalloc u.1).1 with
    | true =>
      rw [if_pos hnone] at hblock
      exact absurd hblock pure_ne_throw
    | false =>
      rw [if_neg (by simp [hnone])] at hblock
      exact ⟨(throw_inj.mp hblock).symm, h.refused (hgot ▸ hnone)⟩
  · rw [if_neg htls] at he
    exact absurd he pure_ne_throw

/-- The rest of a load that has taken no pages for a segment. -/
theorem leaves_rest_of_tracks (hempty : ∀ i, u.1.ctx.symbolHash i = []) (h : l.Tracks True blocks 1 u.2)
    (hleft : u.1.blocks = blocks.drop 1) :
    Leaves (andThen (elfResolveSymbolsAccount img u) fun v =>
        andThen (passing (elfApplyRelocations img) v) (follow elfSetupTls tlsLedger))
      (fun e t => l.Tracks True blocks (1 + symbolCalls img u.1 + if e = elfErrorNomem then 1 else 0) t.2) fun _ => True := by
  refine leaves_andThen ((leaves_elfResolveSymbols hempty h hleft).mono (fun _ _ h => h.elim) fun _ h => h) fun v hv => ?_
  refine leaves_andThen ((leaves_elfApplyRelocations (P := fun w => l.Tracks True blocks (1 + symbolCalls img u.1) w.2 ∧
    w.1.blocks = blocks.drop (1 + symbolCalls img u.1)) ?_ hv).mono ?_ fun _ h => h) fun w hw => ?_
  · rintro k w ⟨m, rfl⟩ hk
    exact hk
  · rintro e w ⟨he, hw, _⟩
    rw [if_neg]
    · exact hw
    · rintro rfl
      rcases he with he | he
      · exact absurd he (by decide)
      · exact absurd he (by decide)
  · refine (leaves_elfSetupTls hw.1 hw.2).mono ?_ fun _ h => h
    rintro e t ⟨rfl, ht⟩
    rwa [if_pos rfl]

/-- The rest of a load that has. -/
theorem leaves_rest_of_granted {s : Loader} (h : Granted img s l u.2) :
    Leaves (andThen (elfResolveSymbolsAccount img u) fun v =>
        andThen (passing (elfApplyRelocations img) v) (follow elfSetupTls tlsLedger))
      (fun _ t => Granted img s l t.2) fun _ => True := by
  have hsymbols : ∀ (T : SymTable) (step : Nat → Loader → M Loader) (ledger : Nat → Loader → Ledger → Ledger)
      (v : Loader × Ledger), (∀ i st (k : Ledger), k.LeavesPages (ledger i st k)) → Granted img s l v.2 →
      Leaves (symbolsAccount T step ledger v) (fun _ t => Granted img s l t.2) fun t => Granted img s l t.2 := by
    intro T step ledger v hledger hv
    unfold symbolsAccount
    split
    · exact leaves_forEnding (fun _ (t : Loader × Ledger) => Granted img s l t.2) hv fun i _ t ht =>
        leaves_follow_account (ht.leavesPages (hledger i t.1 t.2))
    · exact leaves_return hv
  refine leaves_andThen (leaves_andThen (hsymbols _ _ _ u (fun _ _ _ => leavesPages_symtabLedger) h) fun v hv =>
    hsymbols _ _ _ v (fun _ _ _ => leavesPages_dynsymLedger) hv) fun v hv => ?_
  exact leaves_andThen (leaves_follow_account hv) fun w hw =>
    (leaves_follow_account (hw.leavesPages leavesPages_tlsLedger)).mono (fun _ _ h => h) fun _ _ => trivial

/-- The ledger after a failed load. -/
theorem leaves_elfLoadSteps (hfree : l.freePages = [] → st.pages.headD 0 = 0) :
    Leaves (elfLoadStepsAccount img (st, l)) (fun code t => Restored l t.2 ↔ GivesBack img st l code) fun _ => True := by
  refine leaves_andThen leaves_elfCreateContext fun s hs =>
    leaves_destroyOnFailure (E := fun code k => Restored l k ↔ GivesBack img st l code) ?_
  obtain ⟨hcreate, hs, htracks⟩ := hs
  have hvalid := value?_eq_some.mpr hcreate.1
  have hphdrs : (created img st).ctx.phdrs = phdrTable img st.mem := rfl
  have hmem : (created img st).mem = st.mem := rfl
  have hgranted : ∀ code t, Granted img (created img st) l t →
      (Restored l t.elfDestroyContext ↔ GivesBack img st l code) := by
    intro code t ht
    have htaken := (ht.leavesPages Ledger.leavesPages_elfDestroyContext).taken
    refine iff_of_false (fun h => ?_) ?_
    · rw [h.1] at htaken
      omega
    · rintro ⟨hnone | ⟨hnot | hzero, _⟩, _⟩
      · exact ht.free hnone
      · exact hnot hcreate
      · exact ht.asked (by rw [hmem, hphdrs, hzero])
  refine leaves_andThen ((leaves_elfLoadSegments hs rfl hfree htracks).mono ?_ fun _ h => h) fun u hu => ?_
  · rintro code t (⟨hreq, ht⟩ | ht)
    · rw [hmem, hphdrs] at hreq ht
      have hcalls : failCalls img st code = 1 := by
        unfold failCalls
        rw [if_neg (not_not.mpr hvalid), if_pos (.inr hreq)]
      have hiff := ht.gives_back
      unfold GivesBack NothingMapped Restored
      rw [hcalls]
      simpa [hcreate] using hiff
    · exact hgranted code t.2 ht
  · rcases hu with ⟨hnone, ⟨info, hu⟩, ht⟩ | ht
    · refine (leaves_rest_of_tracks (fun i => by rw [hu]; rfl) ht (by rw [hu, List.drop_one]; rfl)).mono ?_ fun _ h => h
      intro code t ht
      have hcalls : failCalls img st code = 1 + symbolCalls img u.1 + if code = elfErrorNomem then 1 else 0 := by
        unfold failCalls
        rw [if_neg (not_not.mpr hvalid), if_neg]
        · rw [hu]
          rfl
        · rintro (hgot | hreq)
          · rw [hcreate.2] at hgot
            cases hgot
          · exact hnone (by rwa [hmem, hphdrs])
      have hzero := requested_of_none hnone
      rw [hmem, hphdrs] at hzero
      have hiff := ht.gives_back
      unfold GivesBack NothingMapped Restored
      rw [hcalls]
      simpa [hzero] using hiff
    · exact (leaves_rest_of_granted ht).mono (fun code t ht => hgranted code t.2 ht) fun _ h => h

/-- A file without segments, with a relocation of a type that the loader does not know, and its symbol `a`. -/
def unknownFile : List UInt8 :=
  -- the file header
  [0x7F, 0x45, 0x4C, 0x46, 2, 1, 1, 0, 0, 0, 0, 0, 0, 0, 0, 0] ++ fieldBytes 2 etExec ++ fieldBytes 2 emX8664 ++
    fieldBytes 4 1 ++ fieldBytes 8 0x400000 ++ fieldBytes 8 0 ++ fieldBytes 8 64 ++ fieldBytes 4 0 ++ fieldBytes 2 64 ++
    fieldBytes 2 56 ++ fieldBytes 2 0 ++ fieldBytes 2 64 ++ fieldBytes 2 4 ++ fieldBytes 2 2 ++
    -- the section headers
    sectionBytes 0 0 0 0 0 ++ sectionBytes 0 shtRela 320 24 3 ++ sectionBytes 1 shtStrtab 392 11 0 ++
    sectionBytes 0 shtSymtab 344 48 2 ++
    -- the relocation, the symbols and the strings
    fieldBytes 8 0x400000 ++ fieldBytes 8 (2 ^ 32 + 99) ++ fieldBytes 8 0 ++ fieldBytes 24 0 ++ fieldBytes 4 9 ++ [0x10] ++
    fieldBytes 19 0 ++ [0] ++ strtabName ++ [0x61, 0]

def unknownImage : Image := ⟨4096, 403, by norm_num⟩

def unknownLoader : Loader :=
  ⟨fun a => if 4096 ≤ a then unknownFile.getD (a - 4096) 0 else 0, [], [true, true, true], emptyContext, emptyInfo⟩

/-- There are two free pages and a live block; the blocks of the loader start at `0x10018`. -/
def unknownLedger : Ledger :=
  ⟨[0x800000, 0x801000], [], {0x20018}, fun i => 0x10018 + 0x1000 * i, fun _ => 0, fun _ => true, 0, 0, fun _ => []⟩

/-- The load up to the section with the relocation. -/
def unknownRun : M Bool := do
  let s ← elfCreateContext unknownImage { unknownLoader with info := emptyInfo }
  let s ← elfLoadSegments unknownImage s
  let s ← elfResolveSymbols unknownImage s
  let s ← forLoop (relaSectionStep unknownImage) 1 s
  match (relaSectionStep unknownImage 1 s : Option (Except Int Loader)) with
  | some (.error e) => pure (decide (e = elfErrorReloc))
  | _ => pure false

theorem elfLoad_unknown : elfLoad unknownImage unknownLoader = some elfErrorReloc := by
  have hrun : Returns unknownRun true := returns_of_value? (by decide +kernel)
  obtain ⟨s₀, hcreate, hrun⟩ := returns_bind.mp hrun
  obtain ⟨s₁, hload, hrun⟩ := returns_bind.mp hrun
  obtain ⟨s₂, hresolve, hrun⟩ := returns_bind.mp hrun
  obtain ⟨u, hu, hrun⟩ := returns_bind.mp hrun
  have hstep : relaSectionStep unknownImage 1 u = throw elfErrorReloc := by
    rcases cases_eq (relaSectionStep unknownImage 1 u) with h | ⟨e, h⟩ | ⟨v, h⟩
    · rw [h] at hrun
      cases hrun
    · rw [h] at hrun
      rw [h, of_decide_eq_true (returns_pure.mp hrun)]
    · rw [h] at hrun
      cases hrun
  have hsections : relaSections unknownImage s₂ = throw elfErrorReloc :=
    forLoop_eq_throw.mpr ⟨1, by norm_num, u, hu, hstep⟩
  refine elfLoad_of_throw ?_
  unfold elfLoadSteps elfApplyRelocations
  rw [hcreate.bind, hload.bind, hresolve.bind, hsections]
  rfl

/-- A program header for `memsz` zeros. -/
def zerosBytes (vaddr memsz : Nat) : List UInt8 :=
  fieldBytes 4 ptLoad ++ fieldBytes 4 6 ++ fieldBytes 8 0 ++ fieldBytes 8 vaddr ++ fieldBytes 8 vaddr ++ fieldBytes 8 0 ++
    fieldBytes 8 memsz ++ fieldBytes 8 0x1000

/-- A file with a segment of one page, and an empty one. -/
def partialFile : List UInt8 :=
  [0x7F, 0x45, 0x4C, 0x46, 2, 1, 1, 0, 0, 0, 0, 0, 0, 0, 0, 0] ++ fieldBytes 2 etExec ++ fieldBytes 2 emX8664 ++
    fieldBytes 4 1 ++ fieldBytes 8 0x400000 ++ fieldBytes 8 64 ++ fieldBytes 8 0 ++ fieldBytes 4 0 ++ fieldBytes 2 64 ++
    fieldBytes 2 56 ++ fieldBytes 2 2 ++ fieldBytes 2 64 ++ fieldBytes 2 0 ++ fieldBytes 2 0 ++
    zerosBytes 0x400000 4096 ++ zerosBytes 0x401000 0

def partialImage : Image := ⟨4096, 176, by norm_num⟩

def partialLoader : Loader :=
  ⟨fun a => if 4096 ≤ a then partialFile.getD (a - 4096) 0 else 0, [0x800000], [true], emptyContext, emptyInfo⟩

/-- The heap has room, and its blocks stay intact. -/
def partialLedger : Ledger :=
  ⟨[0x800000, 0x801000], [], 0, fun _ => 0x10018, fun _ => 0, fun _ => true, 0, 0, fun _ => []⟩

end AmqOs.Elf
