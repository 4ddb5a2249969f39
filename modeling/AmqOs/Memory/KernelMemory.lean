import AmqOs.Memory.HeapLimits
import AmqOs.Memory.PmmPages

/-!
# Both allocators together

The heap takes its pages from the page allocator, and both keep their lists in the memory that they hand out. `Kmem` has the
variables of both over one memory, and `Kmem.kmalloc` and `Kmem.krealloc` are the calls as they are, with
`pmm_alloc_pages` where the heap grows.

A call that fails may have taken pages before: `pmm_alloc_pages` keeps those that it got before it ran out, and `kmalloc`
keeps what it has grown by. `failed_unchanged_iff` says when a failed call leaves everything as it was.
-/

set_option autoImplicit false

namespace AmqOs.Memory

open AmqOs.Lib

/-- The variables of `memory.c`. -/
structure Kmem where
  pmm : Pmm
  kernelHeapBase : Nat
  kernelHeapSize : Nat
  kernelHeapUsed : Nat
  heapFreeList : Nat

namespace Kmem

/-- The heap of it; which regions it has is not recorded. -/
def heap (k : Kmem) : Heap := ⟨k.pmm.mem, k.kernelHeapBase, k.kernelHeapSize, k.kernelHeapUsed, k.heapFreeList, []⟩

/-- The variables of the heap have changed. -/
def withHeap (k : Kmem) (h : Heap) : Kmem :=
  ⟨{ k.pmm with mem := h.mem }, h.kernelHeapBase, h.kernelHeapSize, h.kernelHeapUsed, h.heapFreeList⟩

/-- The pages at `newMem` become a free block. -/
def grow (k : Kmem) (newMem pages : Nat) : Kmem :=
  { k with
    pmm := { k.pmm with mem := setHeader k.pmm.mem newMem (wrap (pages * 4096 - headerSize)) k.heapFreeList }
    heapFreeList := newMem
    kernelHeapSize := wrap (k.kernelHeapSize + pages * 4096) }

/-- `kmalloc`, for up to `fuel` rounds of growing. -/
def kmalloc : Nat → Kmem → Nat → Except HeapFault (Nat × Kmem)
  | 0, _, _ => .error .diverges
  | fuel + 1, k, size =>
    if size = 0 then .ok (0, k)
    else
      let size := alignSize size
      match search k.pmm.mem size rounds 0 k.heapFreeList with
      | .error e => .error e
      | .ok .corrupt => .ok (0, k)
      | .ok (.found prev current) => .ok (wrap (current + headerSize), k.withHeap (takeBlock k.heap prev current size))
      | .ok .exhausted =>
        let (newMem, pmm) := pmmAllocPages k.pmm (newPages size)
        if newMem = 0 then .ok (0, { k with pmm })
        else kmalloc fuel (grow { k with pmm } newMem (newPages size)) size

/-- `kfree`. -/
def kfree (k : Kmem) (ptr : Nat) : Except HeapFault Kmem := do
  let h ← Memory.kfree k.heap ptr
  .ok (k.withHeap h)

/-- `krealloc`. -/
def krealloc (k : Kmem) (ptr newSize : Nat) : Except HeapFault (Nat × Kmem) :=
  if ptr = 0 then kmalloc rounds k newSize
  else if newSize = 0 then do
    let k ← kfree k ptr
    .ok (0, k)
  else
    let block := minus ptr headerSize
    if magicAt k.pmm.mem block ≠ heapMagic then .ok (0, k)
    else if newSize ≤ sizeAt k.pmm.mem block then .ok (ptr, k)
    else do
      let (newPtr, k) ← kmalloc rounds k newSize
      if newPtr = 0 then .ok (0, k)
      else do
        let mem ← copyLoop block ptr newPtr rounds k.pmm.mem 0
        let k ← kfree { k with pmm := { k.pmm with mem } } ptr
        .ok (newPtr, k)

end Kmem

/-- The lists, the counters and all of memory, with the links and the headers in it, are as they were. -/
structure Unchanged (k k' : Kmem) : Prop where
  freeList : k'.pmm.freeList = k.pmm.freeList
  usedPages : k'.pmm.usedPages = k.pmm.usedPages
  heapFreeList : k'.heapFreeList = k.heapFreeList
  kernelHeapSize : k'.kernelHeapSize = k.kernelHeapSize
  mem : ∀ x, k'.pmm.mem x = k.pmm.mem x

theorem Unchanged.refl (k : Kmem) : Unchanged k k := ⟨rfl, rfl, rfl, rfl, fun _ => rfl⟩

/-- No pages are taken for a request of `n` bytes: nothing is asked for, the search meets a header that is not one, or it
finds nothing and there are no pages or none are asked for. -/
def NoPages (k : Kmem) (n : Nat) : Prop :=
  n = 0 ∨ search k.pmm.mem (alignSize n) rounds 0 k.heapFreeList = .ok .corrupt ∨
    search k.pmm.mem (alignSize n) rounds 0 k.heapFreeList = .ok .exhausted ∧
      (newPages (alignSize n) = 0 ∨ k.pmm.freeList = 0)

/-! ## Pages taken -/

section Pages

variable {pages fl allocated : List Nat} {t count : Nat} {s : Pmm} {k k' : Kmem}

/-- Nothing is taken from an empty list. -/
theorem pmmAllocPages_nothing (h : count = 0 ∨ s.freeList = 0) : pmmAllocPages s count = (0, s) := by
  unfold pmmAllocPages
  rcases h with rfl | h0
  · rfl
  · by_cases hc : count = 0
    · rw [if_pos hc]
    · simp [hc, pmmAllocPage, h0]

/-- **Pages are taken** one by one, also when there are not enough. -/
theorem PmmInv.pages_taken (hp : PagesOk pages) (h : PmmInv pages t ⟨s, allocated⟩ fl) (hc : count ≠ 0)
    (hne : s.freeList ≠ 0) :
    ∃ fl', PmmInv pages t ⟨(pmmAllocPages s count).2, fl.take count ++ allocated⟩ fl' ∧
      s.usedPages < (pmmAllocPages s count).2.usedPages := by
  obtain ⟨fl', hinv⟩ := h.loop hp count
  have htaken := h.taken_eq hp count
  simp only at hinv htaken
  rw [← PmmInv.pages_state, htaken] at hinv
  refine ⟨fl', hinv, ?_⟩
  have hused := hinv.used
  have hold := h.used
  simp only [List.length_append, List.length_take] at hused hold
  cases fl with
  | nil => exact absurd (ChainTo.nil_iff.mp h.list) hne
  | cons a fl =>
    simp only [List.length_cons] at hused
    omega

/-- A change of memory that spares the free pages. -/
theorem PmmInv.congr_mem (h : PmmInv pages t ⟨s, allocated⟩ fl) {m : Mem}
    (hm : ∀ page ∈ fl, ∀ x, page ≤ x → x < page + pageSize → m x = s.mem x) :
    PmmInv pages t ⟨{ s with mem := m }, allocated⟩ fl :=
  ⟨chain_write h.list hm, h.perm, h.total, h.used⟩

/-- The header of a new block is in an allocated page. -/
theorem PmmInv.grow (hp : PagesOk pages) (h : PmmInv pages t ⟨k.pmm, allocated⟩ fl) {newMem n : Nat}
    (hmem : newMem ∈ allocated) : PmmInv pages t ⟨(k.grow newMem n).pmm, allocated⟩ fl := by
  refine h.congr_mem fun page hpage x h1 h2 => ?_
  have hne : page ≠ newMem := fun e => h.disjoint hp hpage (e ▸ hmem)
  have hap := hp.apart (h.mem_iff.mpr (.inl hpage)) (h.mem_iff.mpr (.inr hmem)) hne
  unfold pageSize at *
  exact setHeader_out (by omega)

/-- The first page taken is the one returned. -/
theorem PmmInv.mem_taken (hp : PagesOk pages) (h : PmmInv pages t ⟨s, allocated⟩ fl)
    (hne : (pmmAllocPages s count).1 ≠ 0) : (pmmAllocPages s count).1 ∈ fl.take count ++ allocated := by
  have hc : count ≠ 0 := by
    rintro rfl
    exact hne rfl
  obtain ⟨hle, hfirst⟩ := h.of_ne_null hp (Nat.pos_iff_ne_zero.mpr hc) hne
  rw [hfirst]
  cases fl with
  | nil =>
    simp only [List.length_nil] at hle
    omega
  | cons a fl =>
    obtain ⟨count, rfl⟩ := Nat.exists_eq_succ_of_ne_zero hc
    have ha := (ChainTo.cons_iff.mp h.list).1
    simp only at ha
    rw [ha]
    simp

/-- What `kmalloc` does after a search that has found nothing. -/
theorem Kmem.kmalloc_exhausted {fuel n : Nat} (hn : n ≠ 0)
    (hs : search k.pmm.mem (alignSize n) rounds 0 k.heapFreeList = .ok .exhausted) :
    Kmem.kmalloc (fuel + 1) k n =
      if (pmmAllocPages k.pmm (newPages (alignSize n))).1 = 0 then
        .ok (0, { k with pmm := (pmmAllocPages k.pmm (newPages (alignSize n))).2 })
      else Kmem.kmalloc fuel (Kmem.grow { k with pmm := (pmmAllocPages k.pmm (newPages (alignSize n))).2 }
        (pmmAllocPages k.pmm (newPages (alignSize n))).1 (newPages (alignSize n))) (alignSize n) := by
  conv_lhs => unfold Kmem.kmalloc
  simp only [hn, if_false, hs]

/-- **Pages are only taken**, over all rounds of growing, and some are when the first round has any. -/
theorem PmmInv.kmalloc_used (hp : PagesOk pages) (h : PmmInv pages t ⟨k.pmm, allocated⟩ fl) {fuel n ptr : Nat}
    (he : Kmem.kmalloc fuel k n = .ok (ptr, k')) :
    k.pmm.usedPages ≤ k'.pmm.usedPages ∧
      (n ≠ 0 → search k.pmm.mem (alignSize n) rounds 0 k.heapFreeList = .ok .exhausted → newPages (alignSize n) ≠ 0 →
        k.pmm.freeList ≠ 0 → k.pmm.usedPages < k'.pmm.usedPages) := by
  induction fuel generalizing k n allocated fl with
  | zero => cases he
  | succ fuel ih =>
    by_cases hn : n = 0
    · simp only [Kmem.kmalloc, hn, if_true, Except.ok.injEq, Prod.mk.injEq] at he
      exact ⟨by rw [he.2], fun h0 => absurd hn h0⟩
    · cases hs : search k.pmm.mem (alignSize n) rounds 0 k.heapFreeList with
      | error e => simp [Kmem.kmalloc, hn, hs] at he
      | ok found =>
        cases found with
        | corrupt =>
          simp only [Kmem.kmalloc, hn, if_false, hs, Except.ok.injEq, Prod.mk.injEq] at he
          exact ⟨by rw [he.2], fun _ hex => by cases hex⟩
        | found prev b =>
          simp only [Kmem.kmalloc, hn, if_false, hs, Except.ok.injEq, Prod.mk.injEq] at he
          refine ⟨?_, fun _ hex => by cases hex⟩
          rw [← he.2]
          exact le_rfl
        | exhausted =>
          rw [Kmem.kmalloc_exhausted hn hs] at he
          by_cases hnone : newPages (alignSize n) = 0 ∨ k.pmm.freeList = 0
          · simp only [pmmAllocPages_nothing hnone, if_true, Except.ok.injEq, Prod.mk.injEq] at he
            refine ⟨by rw [← he.2], fun _ _ hc hf => ?_⟩
            rcases hnone with h0 | h0
            · exact absurd h0 hc
            · exact absurd h0 hf
          · obtain ⟨hc, hf⟩ := not_or.mp hnone
            obtain ⟨fl', hinv, hlt⟩ := h.pages_taken hp hc hf
            split_ifs at he with hnull
            · simp only [Except.ok.injEq, Prod.mk.injEq] at he
              rw [← he.2]
              exact ⟨hlt.le, fun _ _ _ _ => hlt⟩
            · have hgrown := hinv.grow (k := { k with pmm := (pmmAllocPages k.pmm (newPages (alignSize n))).2 })
                (n := newPages (alignSize n)) hp (h.mem_taken hp hnull)
              obtain ⟨hle, -⟩ := ih hgrown he
              have hlt' : k.pmm.usedPages < k'.pmm.usedPages := lt_of_lt_of_le hlt hle
              exact ⟨hlt'.le, fun _ _ _ _ => hlt'⟩

end Pages

/-! ## Failed calls -/

section Failed

variable {pages fl allocated : List Nat} {t : Nat} {k k' : Kmem}

theorem pmmAllocPages_unchanged_iff (hp : PagesOk pages) (h : PmmInv pages t ⟨k.pmm, allocated⟩ fl) (count : Nat) :
    Unchanged k { k with pmm := (pmmAllocPages k.pmm count).2 } ↔ count = 0 ∨ k.pmm.freeList = 0 := by
  constructor
  · intro hsame
    by_contra hnot
    obtain ⟨hc, hf⟩ := not_or.mp hnot
    obtain ⟨-, -, hlt⟩ := h.pages_taken hp hc hf
    have hused := hsame.usedPages
    simp only at hused
    omega
  · intro hnone
    rw [pmmAllocPages_nothing hnone]
    exact .refl k

theorem kmalloc_unchanged_iff (hp : PagesOk pages) (h : PmmInv pages t ⟨k.pmm, allocated⟩ fl) {fuel n : Nat}
    (hfound : ∀ prev b, search k.pmm.mem (alignSize n) rounds 0 k.heapFreeList = .ok (.found prev b) →
      wrap (b + headerSize) ≠ 0) (he : Kmem.kmalloc fuel k n = .ok (0, k')) : Unchanged k k' ↔ NoPages k n := by
  cases fuel with
  | zero => cases he
  | succ fuel =>
    by_cases hn : n = 0
    · simp only [Kmem.kmalloc, hn, if_true, Except.ok.injEq, Prod.mk.injEq, true_and] at he
      subst he
      exact ⟨fun _ => .inl hn, fun _ => .refl k⟩
    · cases hs : search k.pmm.mem (alignSize n) rounds 0 k.heapFreeList with
      | error e => simp [Kmem.kmalloc, hn, hs] at he
      | ok out =>
        cases out with
        | corrupt =>
          simp only [Kmem.kmalloc, hn, if_false, hs, Except.ok.injEq, Prod.mk.injEq, true_and] at he
          subst he
          exact ⟨fun _ => .inr (.inl hs), fun _ => .refl k⟩
        | found prev b =>
          simp only [Kmem.kmalloc, hn, if_false, hs, Except.ok.injEq, Prod.mk.injEq] at he
          exact absurd he.1 (hfound prev b hs)
        | exhausted =>
          have hiff : NoPages k n ↔ newPages (alignSize n) = 0 ∨ k.pmm.freeList = 0 := by simp [NoPages, hn, hs]
          rw [hiff]
          constructor
          · intro hsame
            by_contra hnot
            obtain ⟨hc, hf⟩ := not_or.mp hnot
            have hlt := (h.kmalloc_used hp he).2 hn hs hc hf
            have hused := hsame.usedPages
            omega
          · intro hnone
            rw [Kmem.kmalloc_exhausted hn hs, pmmAllocPages_nothing hnone] at he
            simp only [if_true, Except.ok.injEq, Prod.mk.injEq, true_and] at he
            rw [← he]
            exact .refl k

/-- `krealloc` fails when the header is not one, or when `kmalloc` does. -/
theorem Kmem.krealloc_failed {ptr n : Nat} (hn : n ≠ 0) (he : k.krealloc ptr n = .ok (0, k')) :
    (ptr ≠ 0 ∧ magicAt k.pmm.mem (minus ptr headerSize) ≠ heapMagic ∧ k' = k) ∨
      (ptr = 0 ∨ magicAt k.pmm.mem (minus ptr headerSize) = heapMagic) ∧ Kmem.kmalloc rounds k n = .ok (0, k') := by
  unfold Kmem.krealloc at he
  by_cases hp : ptr = 0
  · rw [if_pos hp] at he
    exact .inr ⟨.inl hp, he⟩
  · rw [if_neg hp, if_neg hn] at he
    by_cases hm : magicAt k.pmm.mem (minus ptr headerSize) = heapMagic
    · refine .inr ⟨.inr hm, ?_⟩
      simp only [hm, ne_eq, not_true_eq_false, if_false] at he
      split_ifs at he with hle
      · simp only [Except.ok.injEq, Prod.mk.injEq] at he
        exact absurd he.1 hp
      · cases hk : Kmem.kmalloc rounds k n with
        | error e => simp [hk] at he
        | ok out =>
          obtain ⟨newPtr, k₁⟩ := out
          simp only [hk, ok_bind] at he
          split_ifs at he with hnull
          · rw [hnull]
            exact he
          · -- the copy and `kfree` do not change the answer
            cases hc : copyLoop (minus ptr headerSize) ptr newPtr rounds k₁.pmm.mem 0 with
            | error e => simp [hc] at he
            | ok mem =>
              cases hf : Kmem.kfree { k₁ with pmm := { k₁.pmm with mem } } ptr with
              | error e => simp [hc, hf] at he
              | ok k₂ =>
                simp only [hc, hf, ok_bind, Except.ok.injEq, Prod.mk.injEq] at he
                exact absurd he.1 hnull
    · simp only [hm, ne_eq, not_false_eq_true, if_true, Except.ok.injEq, Prod.mk.injEq, true_and] at he
      exact .inl ⟨hp, hm, he.symm⟩

/-- **Failed calls**, when the page allocator is in order: they change nothing exactly when they take no pages. The heap may
be in any state in which a block that is found is not in the last 24 bytes of the address space. -/
theorem failed_unchanged_iff (hp : PagesOk pages) (h : PmmInv pages t ⟨k.pmm, allocated⟩ fl)
    (hfound : ∀ size prev b, search k.pmm.mem size rounds 0 k.heapFreeList = .ok (.found prev b) →
      wrap (b + headerSize) ≠ 0) :
    (∀ count : UInt64, (pmmAllocPages k.pmm count.toNat).1 = 0 →
      (Unchanged k { k with pmm := (pmmAllocPages k.pmm count.toNat).2 } ↔ count.toNat = 0 ∨ k.pmm.freeList = 0)) ∧
    (∀ (n : UInt64) (k' : Kmem), Kmem.kmalloc rounds k n.toNat = .ok (0, k') →
      (Unchanged k k' ↔ NoPages k n.toNat)) ∧
    ∀ (ptr : Nat) (n : UInt64) (k' : Kmem), n.toNat ≠ 0 → k.krealloc ptr n.toNat = .ok (0, k') →
      (Unchanged k k' ↔ ptr ≠ 0 ∧ magicAt k.pmm.mem (minus ptr headerSize) ≠ heapMagic ∨ NoPages k n.toNat) := by
  refine ⟨?_, ?_, ?_⟩
  · intro count _
    exact pmmAllocPages_unchanged_iff hp h count.toNat
  · intro n k' he
    exact kmalloc_unchanged_iff hp h (hfound _) he
  · intro ptr n k' hn he
    rcases Kmem.krealloc_failed hn he with ⟨hptr, hm, rfl⟩ | ⟨hptr, he'⟩
    · exact ⟨fun _ => .inl ⟨hptr, hm⟩, fun _ => .refl k'⟩
    · rw [kmalloc_unchanged_iff hp h (hfound _) he', or_iff_right]
      rintro ⟨hne, hm⟩
      rcases hptr with h0 | h0
      · exact hne h0
      · exact hm h0

end Failed

/-- The heap in cleared memory, and no pages. -/
def fullKmem : Kmem := ⟨⟨blankHeap.heap.mem, 0, 0, 0⟩, 4096, 16 * 4096, 0, 4096⟩

/-- A request that the heap has no block for, with no pages: nothing changes. -/
theorem failed_unchanged_fullKmem : ∃ k', Kmem.kmalloc rounds fullKmem 70000 = .ok (0, k') ∧ NoPages fullKmem 70000 ∧
    Unchanged fullKmem k' := by
  have hpages : PagesOk [] := ⟨List.nodup_nil, by simp⟩
  have hpmm : PmmInv [] 0 ⟨fullKmem.pmm, []⟩ [] := ⟨.nil, .refl _, rfl, rfl⟩
  have hheap : HeapInv { fullKmem.heap with regions := [⟨4096, 4096 + 16 * 4096⟩] } (fun a => a = 4096) [4096] :=
    @initKernelHeap_inv (fun _ => 0) _ (by decide) (by decide)
  have h : (Kmem.kmalloc rounds fullKmem 70000).toOption.map Prod.fst = some 0 := by decide
  obtain ⟨⟨ptr, k'⟩, he, rfl⟩ := exists_ok_of_map h
  have hiff := (failed_unchanged_iff hpages hpmm fun _ _ _ => hheap.found_ne_zero).2.1 70000 k' he
  have hnone : NoPages fullKmem 70000 := by
    refine .inr (.inr ⟨?_, .inr rfl⟩)
    rcases search_spec hheap (alignSize 70000) with ⟨hs, -⟩ | ⟨p, b, q, hl, hs, -, -, -, -, hfit⟩
    · exact hs
    · -- the only block has 65512 bytes
      obtain rfl : b = 4096 := List.mem_singleton.mp (hl ▸ by simp)
      exact absurd hfit (by decide)
  exact ⟨k', he, hnone, hiff.mpr hnone⟩

/-- Six pages are asked for where there are five: the five are gone. -/
theorem pmmAllocPages_lost : MapOk (lowMap 0x1000) ∧
    (pmmAllocPages (pmmStart (fun _ => 0) (lowMap 0x1000)).pmm 6).1 = 0 ∧
    (pmmStart (fun _ => 0) (lowMap 0x1000)).pmm.usedPages = 0 ∧
    (pmmAllocPages (pmmStart (fun _ => 0) (lowMap 0x1000)).pmm 6).2.usedPages = 5 := by
  have hmap := lowMap_ok 0x1000 (by decide) (by decide)
  have hinv := pmmStart_inv hmap (by decide) fun _ => 0
  refine ⟨hmap, ?_, hinv.used, ?_⟩
  · rw [hinv.allocPages hmap.pagesOk (by omega)]
    decide
  · obtain ⟨fl', hinv'⟩ := hinv.loop hmap.pagesOk 6
    have hused := hinv'.used
    rw [← PmmInv.pages_state, hinv.taken_eq hmap.pagesOk] at hused
    exact hused

end AmqOs.Memory
