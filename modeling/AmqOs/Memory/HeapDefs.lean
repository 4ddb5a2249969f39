import AmqOs.Lib.Tiling
import AmqOs.Lib.Run
import AmqOs.Lib.ByteMem

/-!
# The kernel heap

The allocator of `memory.c` over a byte memory. A block is a header of 24 bytes, with the fields `size`, `next`,
`is_free` and `magic`, and `size` bytes of payload after it. The free blocks are linked through `next` from
`heap_free_list`; the neighbours of a block in memory are found through `size`. Addresses and sizes are 64-bit numbers
and wrap.

`pmm_alloc_pages` belongs to the page allocator: a call of the heap is given the addresses `grants` that it answers
with, one after the other, and answers `NULL` when there are no more. The pages it hands out are cleared.

The three loops read the memory they walk over. The search only reads, so one that has tested more blocks than there
are addresses goes round forever; `diverges` stands for this, and for more rounds than addresses in the other two.
-/

set_option autoImplicit false

namespace AmqOs.Memory

open AmqOs.Lib

inductive HeapFault
  | diverges
  deriving DecidableEq

/-- `sizeof(HeapBlock)`. -/
def headerSize : Nat := 24

def heapMagic : Nat := 0xDEADBEEF

def minBlockSize : Nat := 32

/-- A 64-bit result. -/
def wrap (n : Nat) : Nat := n % 2 ^ 64

/-- A 64-bit difference. -/
def minus (a b : Nat) : Nat := wrap (a + (2 ^ 64 - wrap b))

/-- More rounds than there are addresses. -/
def rounds : Nat := 2 ^ 64 + 2

/-! ## The fields of a block -/

section Fields

variable (m : Mem) (block : Nat)

def sizeAt : Nat := m.loadLE block 8

def nextAt : Nat := m.loadLE (block + 8) 8

def isFreeAt : Nat := m.loadLE (block + 16) 4

def magicAt : Nat := m.loadLE (block + 20) 4

def setSize (v : Nat) : Mem := m.storeLE block 8 v

def setNext (v : Nat) : Mem := m.storeLE (block + 8) 8 v

def setIsFree (v : Nat) : Mem := m.storeLE (block + 16) 4 v

def setMagic (v : Nat) : Mem := m.storeLE (block + 20) 4 v

/-- The four assignments to the fields of a new block. -/
def setHeader (size next : Nat) : Mem :=
  setMagic (setIsFree (setNext (setSize m block size) block next) block 1) block heapMagic

/-- The address after the payload of a block. -/
def endOf : Nat := wrap (block + headerSize + sizeAt m block)

end Fields

/-- The variables of the allocator. No code reads `regions`; it records the memory that `pmm_alloc_pages` has handed
out. -/
structure Heap where
  mem : Mem
  kernelHeapBase : Nat
  kernelHeapSize : Nat
  kernelHeapUsed : Nat
  heapFreeList : Nat
  regions : List Region

/-- `init_kernel_heap`, when `pmm_alloc_pages(16)` returned `base`. -/
def initKernelHeap (mem : Mem) (base : Nat) : Heap where
  mem := setHeader (mem.store base (16 * 4096) fun _ => 0) base (16 * 4096 - headerSize) 0
  kernelHeapBase := base
  kernelHeapSize := 16 * 4096
  kernelHeapUsed := 0
  heapFreeList := base
  regions := [⟨base, base + 16 * 4096⟩]

/-- `align_size`. -/
def alignSize (size : Nat) : Nat := wrap (size + 15) / 16 * 16

/-! ## Allocating -/

/-- `split_block`. -/
def splitBlock (m : Mem) (block size : Nat) : Mem :=
  let remaining := minus (minus (sizeAt m block) size) headerSize
  if remaining ≥ minBlockSize then
    let newBlock := wrap (block + headerSize + size)
    let m := setSize m newBlock remaining
    let m := setNext m newBlock (nextAt m block)
    let m := setIsFree m newBlock 1
    let m := setMagic m newBlock heapMagic
    let m := setSize m block size
    setNext m block newBlock
  else m

/-- The ways the search of `kmalloc` ends. -/
inductive Search
  | exhausted
  | corrupt
  | found (prev current : Nat)
  deriving DecidableEq

/-- The test of the search. -/
def fits (m : Mem) (size block : Nat) : Prop := isFreeAt m block ≠ 0 ∧ size ≤ sizeAt m block

instance (m : Mem) (size block : Nat) : Decidable (fits m size block) :=
  inferInstanceAs (Decidable (isFreeAt m block ≠ 0 ∧ size ≤ sizeAt m block))

/-- The loop of `kmalloc`. -/
def search (m : Mem) (size : Nat) : Nat → Nat → Nat → Except HeapFault Search
  | 0, _, _ => .error .diverges
  | fuel + 1, prev, current =>
    if current = 0 then .ok .exhausted
    else if magicAt m current ≠ heapMagic then .ok .corrupt
    else if fits m size current then .ok (.found prev current)
    else search m size fuel current (nextAt m current)

/-- What `kmalloc` does with the block it found. -/
def takeBlock (h : Heap) (prev current size : Nat) : Heap :=
  let m := setIsFree (splitBlock h.mem current size) current 0
  let used := wrap (h.kernelHeapUsed + headerSize + size)
  if prev ≠ 0 then { h with mem := setNext m prev (nextAt m current), kernelHeapUsed := used }
  else { h with mem := m, heapFreeList := nextAt m current, kernelHeapUsed := used }

/-- The pages `kmalloc` asks for. -/
def newPages (size : Nat) : Nat := wrap (size + headerSize + 4095) / 4096

/-- The pages at `newMem` become a free block. -/
def grow (h : Heap) (newMem pages : Nat) : Heap :=
  let m := h.mem.store newMem (pages * 4096) fun _ => 0
  { h with
    mem := setHeader m newMem (wrap (pages * 4096 - headerSize)) h.heapFreeList
    heapFreeList := newMem
    kernelHeapSize := wrap (h.kernelHeapSize + pages * 4096)
    regions := ⟨newMem, newMem + pages * 4096⟩ :: h.regions }

/-- `kmalloc`. -/
def kmalloc : List Nat → Heap → Nat → Except HeapFault (Nat × Heap)
  | grants, h, size =>
    if size = 0 then .ok (0, h)
    else
      let size := alignSize size
      match search h.mem size rounds 0 h.heapFreeList with
      | .error e => .error e
      | .ok .corrupt => .ok (0, h)
      | .ok (.found prev current) => .ok (wrap (current + headerSize), takeBlock h prev current size)
      | .ok .exhausted =>
        match grants with
        | [] => .ok (0, h)
        | newMem :: grants =>
          if newPages size = 0 then .ok (0, h) else kmalloc grants (grow h newMem (newPages size)) size

/-! ## Freeing -/

/-- The loop of `coalesce_blocks`; `bound` is `kernel_heap_base + kernel_heap_used`. -/
def coalesceLoop (bound : Nat) : Nat → Mem → Nat → Except HeapFault Mem
  | 0, _, _ => .error .diverges
  | fuel + 1, m, current =>
    if current < bound then
      if magicAt m current ≠ heapMagic then .ok m
      else
        let next := endOf m current
        if isFreeAt m current ≠ 0 ∧ next < bound ∧ magicAt m next = heapMagic ∧ isFreeAt m next ≠ 0 then
          let m := setSize m current (wrap (sizeAt m current + (headerSize + sizeAt m next)))
          let m := setNext m current (nextAt m next)
          coalesceLoop bound fuel m current
        else coalesceLoop bound fuel m (endOf m current)
    else .ok m

/-- `kernel_heap_base + kernel_heap_used`. -/
def Heap.bound (h : Heap) : Nat := wrap (h.kernelHeapBase + h.kernelHeapUsed)

/-- `coalesce_blocks`. -/
def coalesceBlocks (h : Heap) : Except HeapFault Heap := do
  let mem ← coalesceLoop h.bound rounds h.mem h.kernelHeapBase
  .ok { h with mem }

/-- The assignments of `kfree`. -/
def pushFree (h : Heap) (block : Nat) : Heap :=
  { h with
    mem := setNext (setIsFree h.mem block 1) block h.heapFreeList
    heapFreeList := block
    kernelHeapUsed := minus h.kernelHeapUsed (headerSize + sizeAt h.mem block) }

/-- `kfree`. -/
def kfree (h : Heap) (ptr : Nat) : Except HeapFault Heap :=
  if ptr = 0 then .ok h
  else
    let block := minus ptr headerSize
    if magicAt h.mem block ≠ heapMagic then .ok h
    else if isFreeAt h.mem block ≠ 0 then .ok h
    else coalesceBlocks (pushFree h block)

/-! ## Clearing and copying -/

/-- `kcalloc`. -/
def kcalloc (grants : List Nat) (h : Heap) (num size : Nat) : Except HeapFault (Nat × Heap) := do
  let total := wrap (num * size)
  let (ptr, h) ← kmalloc grants h total
  .ok (ptr, if ptr ≠ 0 then { h with mem := h.mem.store ptr total fun _ => 0 } else h)

/-- The copying loop of `krealloc`; the size of the old block is read again in every round. -/
def copyLoop (block src dst : Nat) : Nat → Mem → Nat → Except HeapFault Mem
  | 0, _, _ => .error .diverges
  | fuel + 1, m, i =>
    if i < sizeAt m block then copyLoop block src dst fuel (m.store (dst + i) 1 fun _ => m (src + i)) (i + 1)
    else .ok m

/-- `krealloc`. -/
def krealloc (grants : List Nat) (h : Heap) (ptr newSize : Nat) : Except HeapFault (Nat × Heap) :=
  if ptr = 0 then kmalloc grants h newSize
  else if newSize = 0 then do
    let h ← kfree h ptr
    .ok (0, h)
  else
    let block := minus ptr headerSize
    if magicAt h.mem block ≠ heapMagic then .ok (0, h)
    else if newSize ≤ sizeAt h.mem block then .ok (ptr, h)
    else do
      let (newPtr, h) ← kmalloc grants h newSize
      if newPtr = 0 then .ok (0, h)
      else do
        let mem ← copyLoop block ptr newPtr rounds h.mem 0
        let h ← kfree { h with mem } ptr
        .ok (newPtr, h)

end AmqOs.Memory
