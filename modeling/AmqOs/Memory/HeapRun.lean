import AmqOs.Memory.HeapOps

/-!
# Runs of the heap

Calls of `kmalloc`, `kcalloc`, `krealloc` and `kfree` after `init_kernel_heap`, with the allocations that are live and
the sizes they were requested with. `Allowed` is what the callers and the page allocator have to keep to: only live
pointers are given back, and new pages are new to the heap.

`HeapSafe` is the condition under which a call keeps the heap in order: the block that serves a request has room for
one more header, and the walk of `coalesce_blocks` joins only neighbours that follow each other on the list.
`SizesFit` says that no size wraps. Then `heap_run`: the free list is a list of the free blocks and the regions are
tiled; and `live_run`: the live allocations are disjoint, apart from all headers, and in the memory of the heap.
-/

set_option autoImplicit false

namespace AmqOs.Memory

open AmqOs.Lib

/-- A call, with the answers of `pmm_alloc_pages` to it. -/
inductive HeapOp
  | kmalloc (grants : List Nat) (size : UInt64)
  | kcalloc (grants : List Nat) (num size : UInt64)
  | krealloc (grants : List Nat) (ptr : Nat) (newSize : UInt64)
  | kfree (ptr : Nat)

/-- The heap and its live allocations, each with the size that was requested. -/
structure HeapState where
  heap : Heap
  live : List (Nat × Nat)

def initHeapState (mem : Mem) (base : Nat) : HeapState := ⟨initKernelHeap mem base, []⟩

/-- The live allocations after a call has returned `ptr`. -/
def acquire (live : List (Nat × Nat)) (ptr size : Nat) : List (Nat × Nat) :=
  if ptr = 0 then live else (ptr, size) :: live

/-- The live allocations after `ptr` has been given back. -/
def release (live : List (Nat × Nat)) (ptr : Nat) : List (Nat × Nat) := live.filter fun x => x.1 ≠ ptr

def heapStep (s : HeapState) : HeapOp → Except HeapFault (Nat × HeapState)
  | .kmalloc grants size => do
    let (ptr, heap) ← kmalloc grants s.heap size.toNat
    .ok (ptr, ⟨heap, acquire s.live ptr size.toNat⟩)
  | .kcalloc grants num size => do
    let (ptr, heap) ← kcalloc grants s.heap num.toNat size.toNat
    .ok (ptr, ⟨heap, acquire s.live ptr (num.toNat * size.toNat)⟩)
  | .krealloc grants ptr newSize => do
    let (newPtr, heap) ← krealloc grants s.heap ptr newSize.toNat
    -- a request that failed leaves the old allocation as it is
    let kept := if newPtr = 0 ∧ newSize.toNat ≠ 0 then s.live else release s.live ptr
    .ok (newPtr, ⟨heap, acquire kept newPtr newSize.toNat⟩)
  | .kfree ptr => do
    let heap ← kfree s.heap ptr
    .ok (0, ⟨heap, release s.live ptr⟩)

def Live (s : HeapState) (ptr : Nat) : Prop := ∃ size, (ptr, size) ∈ s.live

/-- Only live pointers or `NULL` are given back, and the new pages are new to the heap. -/
def Allowed (s : HeapState) : HeapOp → Prop
  | .kmalloc grants size => GrantsFresh grants s.heap (alignSize size.toNat)
  | .kcalloc grants num size => GrantsFresh grants s.heap (alignSize (wrap (num.toNat * size.toNat)))
  | .krealloc grants ptr newSize => (ptr = 0 ∨ Live s ptr) ∧ GrantsFresh grants s.heap (alignSize newSize.toNat)
  | .kfree ptr => ptr = 0 ∨ Live s ptr

/-- A request of `n` bytes gets at least `n` bytes, or nothing. -/
def FitsSize (h : Heap) (grants : List Nat) (n : Nat) : Prop := n + 15 < 2 ^ 64 ∨ Refused h grants n

/-- A request that moves an allocation: the copy fits, and the old block can be freed afterwards. -/
def MoveSafe (h : Heap) (grants : List Nat) (ptr n : Nat) : Prop :=
  KmallocSafe h grants n ∧ FitsSize h grants n ∧
    ∀ newPtr h' mem, kmalloc grants h n = .ok (newPtr, h') → newPtr ≠ 0 →
      copyLoop (minus ptr headerSize) ptr newPtr rounds h'.mem 0 = .ok mem → FreeSafe { h' with mem } ptr

def HeapSafe (s : HeapState) : HeapOp → Prop
  | .kmalloc grants size => KmallocSafe s.heap grants size.toNat
  | .kcalloc grants num size =>
    KmallocSafe s.heap grants (wrap (num.toNat * size.toNat)) ∧
      FitsSize s.heap grants (wrap (num.toNat * size.toNat))
  | .krealloc grants ptr newSize =>
    if ptr = 0 then KmallocSafe s.heap grants newSize.toNat
    else if newSize.toNat = 0 then FreeSafe s.heap ptr
    else sizeAt s.heap.mem (minus ptr headerSize) < newSize.toNat → MoveSafe s.heap grants ptr newSize.toNat
  | .kfree ptr => ptr ≠ 0 → FreeSafe s.heap ptr

/-- The size of a new allocation does not wrap. -/
def SizesFit (s : HeapState) : HeapOp → Prop
  | .kmalloc grants size => FitsSize s.heap grants size.toNat
  | .kcalloc grants num size =>
    num.toNat * size.toNat < 2 ^ 64 ∨ Refused s.heap grants (wrap (num.toNat * size.toNat))
  | .krealloc grants ptr newSize => ptr = 0 → FitsSize s.heap grants newSize.toNat
  | .kfree _ => True

/-! ## The invariant of a run -/

/-- Each live pointer is an allocated block of its own; `e` says whether the requested sizes are kept too. -/
structure LiveInv (e : Prop) (s : HeapState) (B : Nat → Prop) (fl : List Nat) : Prop where
  heap : HeapInv s.heap B fl
  block : ∀ x ∈ s.live, ∃ b, x.1 = b + 24 ∧ B b ∧ isFreeAt s.heap.mem b = 0 ∧ (e → x.2 ≤ sizeAt s.heap.mem b)
  distinct : (s.live.map Prod.fst).Nodup

namespace LiveInv

variable {e : Prop} {s : HeapState} {h' : Heap} {B B' : Nat → Prop} {fl fl' : List Nat} {b n ptr size : Nat}

/-- Nothing is given out or given back. -/
theorem keep (hi : LiveInv e s B fl) (hinv : HeapInv h' B' fl') (hk : Kept s.heap.mem B h'.mem B') :
    LiveInv e ⟨h', s.live⟩ B' fl' := by
  refine ⟨hinv, fun x hx => ?_, hi.distinct⟩
  obtain ⟨b, he, hb, h0, hs⟩ := hi.block x hx
  obtain ⟨hb', h0', hs'⟩ := hk b hb h0
  exact ⟨b, he, hb', h0', fun h => hs'.symm ▸ hs h⟩

/-- A block is given out. -/
theorem give (hi : LiveInv e s B fl) (hinv : HeapInv h' B' fl') (hk : Kept s.heap.mem B h'.mem B')
    (hserved : Served s.heap.mem B h'.mem B' size ptr) (hn : e → ptr ≠ 0 → n ≤ size) :
    LiveInv e ⟨h', acquire s.live ptr n⟩ B' fl' := by
  obtain ⟨-, hblock, hdistinct⟩ := hi.keep hinv hk
  unfold acquire
  rcases hserved with rfl | ⟨b, rfl, hb, h0, hs, hnew⟩
  · rw [if_pos rfl]
    exact ⟨hinv, hblock, hdistinct⟩
  · rw [if_neg (by omega)]
    refine ⟨hinv, fun x hx => ?_, ?_⟩
    · rcases List.mem_cons.mp hx with rfl | hx
      · exact ⟨b, rfl, hb, h0, fun h => le_trans (hn h (by omega)) hs⟩
      · exact hblock x hx
    · refine List.nodup_cons.mpr ⟨fun hmem => hnew ?_, hdistinct⟩
      obtain ⟨x, hx, he⟩ := List.mem_map.mp hmem
      obtain ⟨c, hc, hcB, hc0, -⟩ := hi.block x hx
      obtain rfl : c = b := by omega
      exact ⟨hcB, hc0⟩

/-- A block is given back. -/
theorem drop (hi : LiveInv e s B fl) (hinv : HeapInv h' B' fl')
    (hk : Kept s.heap.mem (fun a => B a ∧ a ≠ b) h'.mem B') : LiveInv e ⟨h', release s.live (b + 24)⟩ B' fl' := by
  refine ⟨hinv, fun x hx => ?_, ?_⟩
  · obtain ⟨hx, hne⟩ := List.mem_filter.mp hx
    obtain ⟨c, hc, hcB, hc0, hs⟩ := hi.block x hx
    have hcb : c ≠ b := by
      rintro rfl
      simp [hc] at hne
    obtain ⟨hb', h0', hs'⟩ := hk c ⟨hcB, hcb⟩ hc0
    exact ⟨c, hc, hb', h0', fun h => hs'.symm ▸ hs h⟩
  · exact hi.distinct.sublist (List.filter_sublist.map _)

/-! ## The four calls -/

variable {grants : List Nat}

/-- `kmalloc(size)` for an allocation of `n` bytes. -/
theorem kmalloc (hi : LiveInv e s B fl) (hsafe : KmallocSafe s.heap grants size)
    (hgrants : GrantsFresh grants s.heap (alignSize size))
    (hfit : e → n ≤ alignSize size ∨ Refused s.heap grants size) :
    ∃ ptr h' B' fl', Memory.kmalloc grants s.heap size = .ok (ptr, h') ∧
      LiveInv e ⟨h', acquire s.live ptr n⟩ B' fl' ∧ Served s.heap.mem B h'.mem B' (alignSize size) ptr ∧
      Kept s.heap.mem B h'.mem B' ∧ (Refused s.heap grants size → ptr = 0) := by
  obtain ⟨ptr, h', B', fl', he, hinv, hkept, hserved, hrefused, -⟩ := kmalloc_spec hi.heap hsafe hgrants
  refine ⟨ptr, h', B', fl', he, hi.give hinv hkept hserved fun h hne => ?_, hserved, hkept, hrefused⟩
  rcases hfit h with hle | href
  · exact hle
  · exact absurd (hrefused href) hne

/-- The clearing of `kcalloc` stays in the payload. -/
theorem cleared {m : Mem} (hinv : HeapInv h' B' fl') (hserved : Served m B h'.mem B' (alignSize n) ptr)
    (hclear : FitsSize s.heap grants n) (hrefused : Refused s.heap grants n → ptr = 0) (hne : ptr ≠ 0) :
    HeapInv { h' with mem := h'.mem.store ptr n fun _ => 0 } B' fl' ∧
      Kept h'.mem B' (h'.mem.store ptr n fun _ => 0) B' := by
  have hle := (hclear.imp_left le_alignSize).resolve_right fun href => hne (hrefused href)
  obtain ⟨b, rfl, hb, -, hs, -⟩ := hserved.resolve_left hne
  exact hinv.payload hb _ fun x hx => Mem.store_out (by omega)

/-- `kcalloc`. -/
theorem kcalloc {num : Nat} (hi : LiveInv e s B fl) (hsafe : KmallocSafe s.heap grants (wrap (num * size)))
    (hgrants : GrantsFresh grants s.heap (alignSize (wrap (num * size))))
    (hclear : FitsSize s.heap grants (wrap (num * size)))
    (hfit : e → num * size < 2 ^ 64 ∨ Refused s.heap grants (wrap (num * size))) :
    ∃ ptr h' B' fl', Memory.kcalloc grants s.heap num size = .ok (ptr, h') ∧
      LiveInv e ⟨h', acquire s.live ptr (num * size)⟩ B' fl' := by
  have hsize : e → num * size ≤ alignSize (wrap (num * size)) ∨ Refused s.heap grants (wrap (num * size)) := by
    intro h
    rcases hfit h with hlt | href
    · have hw := hclear.imp_left le_alignSize
      rwa [wrap_of_lt hlt] at hw ⊢
    · exact .inr href
  obtain ⟨ptr, h', B', fl', he, hi', hserved, -, hrefused⟩ := hi.kmalloc hsafe hgrants hsize
  unfold Memory.kcalloc
  simp only [he, ok_bind]
  by_cases hne : ptr = 0
  · subst hne
    exact ⟨0, h', B', fl', rfl, hi'⟩
  · obtain ⟨hinv, hkept⟩ := cleared hi'.heap hserved hclear hrefused hne
    exact ⟨ptr, _, B', fl', by rw [if_pos hne], hi'.keep hinv hkept⟩

/-- A live pointer belongs to an allocated block. -/
theorem of_live (hi : LiveInv e s B fl) (hl : Live s ptr) :
    ∃ b, ptr = b + 24 ∧ B b ∧ isFreeAt s.heap.mem b = 0 := by
  obtain ⟨size, hmem⟩ := hl
  obtain ⟨b, hb, hB, h0, -⟩ := hi.block _ hmem
  exact ⟨b, hb, hB, h0⟩

/-- `kfree` of a live pointer. -/
theorem kfree (hi : LiveInv e s B fl) (hl : Live s ptr) (hsafe : FreeSafe s.heap ptr) :
    ∃ h' B' fl', Memory.kfree s.heap ptr = .ok h' ∧ LiveInv e ⟨h', release s.live ptr⟩ B' fl' := by
  obtain ⟨b, rfl, hb, h0⟩ := hi.of_live hl
  obtain ⟨h', B', fl', he, hinv, hkept, -⟩ := kfree_spec hi.heap hb h0 hsafe
  exact ⟨h', B', fl', he, hi.drop hinv hkept⟩

/-- The copying of `krealloc`: the old payload fits the new block, so no header changes. -/
theorem copied (hi : LiveInv e s B fl) (hl : Live s ptr) (hfit : FitsSize s.heap grants n)
    (hn : sizeAt s.heap.mem (minus ptr headerSize) < n) {newPtr : Nat}
    (hi' : LiveInv e ⟨h', acquire s.live newPtr n⟩ B' fl') (hserved : Served s.heap.mem B h'.mem B' (alignSize n) newPtr)
    (hkept : Kept s.heap.mem B h'.mem B') (hrefused : Refused s.heap grants n → newPtr = 0) (hne : newPtr ≠ 0) :
    ∃ mem, copyLoop (minus ptr headerSize) ptr newPtr rounds h'.mem 0 = .ok mem ∧
      LiveInv e ⟨{ h' with mem }, acquire s.live newPtr n⟩ B' fl' ∧ Kept h'.mem B' mem B' ∧
      Live ⟨{ h' with mem }, acquire s.live newPtr n⟩ ptr := by
  obtain ⟨b, rfl, hb, h0⟩ := hi.of_live hl
  have hblock := hi.heap.block_eq hb
  rw [hblock] at hn ⊢
  have hheap : HeapInv h' B' fl' := hi'.heap
  obtain ⟨c, rfl, hc, hc0, hcs, hnew⟩ := hserved.resolve_left hne
  have hroom := (hfit.imp_left le_alignSize).resolve_right fun href => hne (hrefused href)
  obtain ⟨hb', hb0, hbs⟩ := hkept b hb h0
  have hcb : c ≠ b := by
    rintro rfl
    exact hnew ⟨hb, h0⟩
  obtain ⟨m', hcopy, hinv, hkept', -⟩ := hheap.copy hb' hc hcb (by omega)
  refine ⟨m', hcopy, hi'.keep hinv hkept', hkept', ?_⟩
  obtain ⟨size, hmem⟩ := hl
  refine ⟨size, ?_⟩
  rw [acquire, if_neg hne]
  exact List.mem_cons_of_mem _ hmem

/-- The new allocation is not the one that is given back. -/
theorem release_acquire {newPtr : Nat} (hi : LiveInv e s B fl) (hl : Live s ptr) (hne : newPtr ≠ 0)
    (hserved : Served s.heap.mem B h'.mem B' size newPtr) :
    release (acquire s.live newPtr n) ptr = acquire (release s.live ptr) newPtr n := by
  obtain ⟨b, rfl, hb, h0⟩ := hi.of_live hl
  obtain ⟨c, rfl, -, -, -, hnew⟩ := hserved.resolve_left hne
  have hcb : c ≠ b := by
    rintro rfl
    exact hnew ⟨hb, h0⟩
  simp [acquire, release, hcb]

/-- `krealloc` of a live pointer whose block is too small. -/
theorem krealloc_eq (hi : LiveInv e s B fl) (hl : Live s ptr) (hn : sizeAt s.heap.mem (minus ptr headerSize) < n) :
    krealloc grants s.heap ptr n = (do
      let (newPtr, h) ← Memory.kmalloc grants s.heap n
      if newPtr = 0 then .ok (0, h)
      else do
        let mem ← copyLoop (minus ptr headerSize) ptr newPtr rounds h.mem 0
        let h ← Memory.kfree { h with mem } ptr
        .ok (newPtr, h)) := by
  obtain ⟨b, rfl, hb, -⟩ := hi.of_live hl
  have hmagic := hi.heap.magic b hb
  rw [← hi.heap.block_eq hb] at hmagic
  rw [krealloc, if_neg (by omega), if_neg (by omega), if_neg (not_not_intro hmagic), if_neg (by omega)]

/-- `krealloc` that moves the allocation. -/
theorem move (hi : LiveInv e s B fl) (hl : Live s ptr) (hgrants : GrantsFresh grants s.heap (alignSize n))
    (hsafe : MoveSafe s.heap grants ptr n) (hn : sizeAt s.heap.mem (minus ptr headerSize) < n) :
    ∃ newPtr h' live' B' fl', krealloc grants s.heap ptr n = .ok (newPtr, h') ∧
      live' = (if newPtr = 0 then s.live else release s.live ptr) ∧
      LiveInv e ⟨h', acquire live' newPtr n⟩ B' fl' := by
  obtain ⟨hk, hfit, hfree⟩ := hsafe
  obtain ⟨newPtr, h', B', fl', he, hi', hserved, hkept, hrefused⟩ :=
    hi.kmalloc (n := n) hk hgrants fun _ => hfit.imp_left le_alignSize
  rw [hi.krealloc_eq hl hn, he]
  simp only [ok_bind]
  by_cases hne : newPtr = 0
  · subst hne
    exact ⟨0, h', s.live, B', fl', rfl, rfl, hi'⟩
  · obtain ⟨mem, hcopy, hi₁, -, hlive⟩ := hi.copied hl hfit hn hi' hserved hkept hrefused hne
    obtain ⟨h'', B'', fl'', hfreed, hi''⟩ := hi₁.kfree hlive (hfree _ _ _ he hne hcopy)
    refine ⟨newPtr, h'', release s.live ptr, B'', fl'', ?_, by rw [if_neg hne], ?_⟩
    · rw [if_neg hne, hcopy, ok_bind, hfreed, ok_bind]
    · rwa [hi.release_acquire hl hne hserved] at hi''

/-- `krealloc` that leaves the allocation in its block. -/
theorem resize (hi : LiveInv e s B fl) (hb : B b) (h0 : isFreeAt s.heap.mem b = 0) (hn : n ≤ sizeAt s.heap.mem b) :
    LiveInv e ⟨s.heap, acquire (release s.live (b + 24)) (b + 24) n⟩ B fl := by
  obtain ⟨hinv, hblock, hdistinct⟩ := hi.drop (b := b) hi.heap fun a ha ha0 => ⟨ha.1, ha0, rfl⟩
  unfold acquire
  rw [if_neg (by omega)]
  refine ⟨hinv, fun x hx => ?_, List.nodup_cons.mpr ⟨fun hmem => ?_, hdistinct⟩⟩
  · rcases List.mem_cons.mp hx with rfl | hx
    · exact ⟨b, rfl, hb, h0, fun _ => hn⟩
    · exact hblock x hx
  · obtain ⟨x, hx, he⟩ := List.mem_map.mp hmem
    obtain ⟨-, hne⟩ := List.mem_filter.mp hx
    exact of_decide_eq_true hne he

theorem release_null (hi : LiveInv e s B fl) : release s.live 0 = s.live := by
  refine List.filter_eq_self.mpr fun x hx => ?_
  obtain ⟨b, hb, -⟩ := hi.block x hx
  exact decide_eq_true (by omega)

end LiveInv

/-! ## Steps -/

section Steps

variable {e : Prop} {s : HeapState} {B : Nat → Prop} {fl grants : List Nat} {ptr : Nat} {n : UInt64}

/-- `krealloc(NULL, n)` is `kmalloc` under another name. -/
theorem LiveInv.krealloc_null (hi : LiveInv e s B fl) :
    heapStep s (.krealloc grants 0 n) = heapStep s (.kmalloc grants n) := by
  simp only [heapStep, krealloc, if_true, hi.release_null, ite_self]

/-- `krealloc(ptr, 0)` is `kfree`. -/
theorem krealloc_zero (hp : ptr ≠ 0) (hn : n.toNat = 0) :
    heapStep s (.krealloc grants ptr n) = heapStep s (.kfree ptr) := by
  simp only [heapStep, krealloc, if_neg hp, hn]
  cases kfree s.heap ptr <;> simp [acquire]

theorem LiveInv.kfree_null (hi : LiveInv e s B fl) : heapStep s (.kfree 0) = .ok (0, s) := by
  simp [heapStep, Memory.kfree, hi.release_null]

theorem LiveInv.step_kmalloc (hi : LiveInv e s B fl) (hsafe : KmallocSafe s.heap grants n.toNat)
    (hgrants : GrantsFresh grants s.heap (alignSize n.toNat)) (hfit : e → FitsSize s.heap grants n.toNat) :
    ∃ r s' B' fl', heapStep s (.kmalloc grants n) = .ok (r, s') ∧ LiveInv e s' B' fl' := by
  obtain ⟨ptr, h', B', fl', he, hi', -⟩ := hi.kmalloc (n := n.toNat) hsafe hgrants
    fun h => (hfit h).imp_left le_alignSize
  exact ⟨ptr, _, B', fl', by simp only [heapStep, he, ok_bind], hi'⟩

theorem LiveInv.step_kfree (hi : LiveInv e s B fl) (hl : Live s ptr) (hsafe : FreeSafe s.heap ptr) :
    ∃ r s' B' fl', heapStep s (.kfree ptr) = .ok (r, s') ∧ LiveInv e s' B' fl' := by
  obtain ⟨h', B', fl', he, hi'⟩ := hi.kfree hl hsafe
  exact ⟨0, _, B', fl', by simp only [heapStep, he, ok_bind], hi'⟩

end Steps

/-- **One call** that is allowed and safe. -/
theorem heapStep_inv {e : Prop} {s : HeapState} {B : Nat → Prop} {fl : List Nat} {op : HeapOp} (hi : LiveInv e s B fl)
    (hallowed : Allowed s op) (hsafe : HeapSafe s op) (hfit : e → SizesFit s op) :
    ∃ r s' B' fl', heapStep s op = .ok (r, s') ∧ LiveInv e s' B' fl' := by
  cases op with
  | kmalloc grants size => exact hi.step_kmalloc hsafe hallowed hfit
  | kcalloc grants num size =>
    obtain ⟨ptr, h', B', fl', he, hi'⟩ := hi.kcalloc hsafe.1 hallowed hsafe.2 hfit
    exact ⟨ptr, _, B', fl', by simp only [heapStep, he, ok_bind], hi'⟩
  | krealloc grants ptr newSize =>
    obtain ⟨hptr, hgrants⟩ := hallowed
    by_cases hp : ptr = 0
    · subst hp
      rw [hi.krealloc_null]
      exact hi.step_kmalloc hsafe hgrants fun h => hfit h rfl
    · have hl := hptr.resolve_left hp
      obtain ⟨b, hb, hB, h0⟩ := hi.of_live hl
      simp only [HeapSafe, if_neg hp] at hsafe
      by_cases hn : newSize.toNat = 0
      · rw [if_pos hn] at hsafe
        rw [krealloc_zero hp hn]
        exact hi.step_kfree hl hsafe
      · rw [if_neg hn] at hsafe
        simp only [heapStep]
        by_cases hlt : sizeAt s.heap.mem (minus ptr headerSize) < newSize.toNat
        · obtain ⟨q, h', live', B', fl', he, hlive, hi'⟩ := hi.move hl hgrants (hsafe hlt) hlt
          refine ⟨q, _, B', fl', ?_, hi'⟩
          simp [he, hn, hlive]
        · rw [hb, hi.heap.block_eq hB] at hlt
          have hbd := hi.heap.magic b hB
          refine ⟨b + 24, _, B, fl, ?_, hi.resize hB h0 (Nat.le_of_not_lt hlt)⟩
          rw [hb] at hp ⊢
          simp [krealloc, hn, hi.heap.block_eq hB, hbd, Nat.le_of_not_lt hlt]
  | kfree ptr =>
    by_cases hp : ptr = 0
    · subst hp
      exact ⟨0, s, B, fl, hi.kfree_null, hi⟩
    · exact hi.step_kfree (hallowed.resolve_left hp) (hsafe hp)

/-! ## What holds after every run -/

/-- The headers that stepping by header and size from the start of a region arrives at before its end. -/
def Header (h : Heap) (b : Nat) : Prop :=
  ∃ r ∈ h.regions, Relation.ReflTransGen (fun x y => y = x + extent h.mem x ∧ y < r.stop) r.start b

/-- The free list visits each free block once and no other, the headers tile the regions, and every search ends. -/
structure HeapOk (h : Heap) : Prop where
  list : ∃ fl, ChainTo (listNext h.mem) 0 h.heapFreeList fl ∧ fl.Nodup ∧
    ∀ b, b ∈ fl ↔ Header h b ∧ isFreeAt h.mem b = 1
  tiled : ∀ r ∈ h.regions, ∃ l, ChainTo (fun b => some (b + extent h.mem b)) r.stop r.start l
  search : ∀ size, ∃ found, search h.mem size rounds 0 h.heapFreeList = .ok found

/-- The live allocations are apart from each other and from the headers, and in the memory of the heap. -/
structure LiveApart (s : HeapState) : Prop where
  disjoint : s.live.Pairwise fun x y => x.1 + x.2 ≤ y.1 ∨ y.1 + y.2 ≤ x.1
  headers : ∀ x ∈ s.live, ∀ b, Header s.heap b → b + headerSize ≤ x.1 ∨ x.1 + x.2 ≤ b
  inside : ∀ x ∈ s.live, ∃ r ∈ s.heap.regions, r.start ≤ x.1 ∧ x.1 + x.2 ≤ r.stop

section Results

variable {e : Prop} {s : HeapState} {h : Heap} {B : Nat → Prop} {fl : List Nat}

theorem HeapInv.header_iff (hi : HeapInv h B fl) (b : Nat) : Header h b ↔ B b := hi.tiles.iff_reached.symm

theorem HeapInv.heapOk (hi : HeapInv h B fl) : HeapOk h := by
  constructor
  · refine ⟨fl, hi.list, hi.list.nodup, fun b => ?_⟩
    rw [hi.header_iff b]
    exact hi.free b
  · intro r hr
    exact hi.tiles.chain hr
  · intro size
    rcases search_spec hi size with ⟨hs, -⟩ | ⟨p, b, q, -, hs, -⟩
    · exact ⟨_, hs⟩
    · exact ⟨_, hs⟩

theorem LiveInv.liveApart (hi : LiveInv True s B fl) : LiveApart s := by
  constructor
  · refine (List.pairwise_map.mp hi.distinct).imp_of_mem fun {x y} hx hy hne => ?_
    obtain ⟨b, hb, hbB, -, hbs⟩ := hi.block x hx
    obtain ⟨c, hc, hcB, -, hcs⟩ := hi.block y hy
    have hap := hi.heap.apart hbB hcB (by rintro rfl; exact hne (hb.trans hc.symm))
    have h1 := hbs trivial
    have h2 := hcs trivial
    omega
  · intro x hx c hc
    obtain ⟨b, hb, hbB, -, hbs⟩ := hi.block x hx
    have hle := hbs trivial
    have hcB := (hi.heap.header_iff c).mp hc
    unfold headerSize
    by_cases hbc : b = c
    · omega
    · have hap := hi.heap.apart hbB hcB hbc
      omega
  · intro x hx
    obtain ⟨b, hb, hbB, -, hbs⟩ := hi.block x hx
    have hle := hbs trivial
    obtain ⟨r, hr, h1, h2⟩ := hi.heap.tiles.inside b hbB
    unfold extent headerSize at h2
    exact ⟨r, hr, by omega, by omega⟩

theorem initHeapState_inv {mem : Mem} {base : Nat} (h0 : 0 < base) (hlt : base + 16 * 4096 < 2 ^ 64) :
    LiveInv e (initHeapState mem base) (fun a => a = base) [base] :=
  ⟨initKernelHeap_inv h0 hlt, by simp [initHeapState], by simp [initHeapState]⟩

end Results

/-- **The heap after every run** of allowed calls that are safe: the free list and the blocks are in order. -/
theorem heap_run (mem : Mem) {base : Nat} (h0 : 0 < base) (hlt : base + 16 * 4096 < 2 ^ 64) {ops : List HeapOp}
    (hops : Along heapStep (fun s op => Allowed s op ∧ HeapSafe s op) (initHeapState mem base) ops) :
    ∃ rs s, runFrom heapStep (initHeapState mem base) ops = .ok (rs, s) ∧ HeapOk s.heap := by
  obtain ⟨rs, s, hrun, B, fl, hi⟩ := runFrom_inv (fun s => ∃ B fl, LiveInv False s B fl)
    (fun s op ⟨B, fl, hi⟩ ⟨ha, hs⟩ => by
      obtain ⟨r, s', B', fl', he, hi'⟩ := heapStep_inv hi ha hs False.elim
      exact ⟨r, s', he, B', fl', hi'⟩) ⟨_, _, initHeapState_inv h0 hlt⟩ hops
  exact ⟨rs, s, hrun, hi.heap.heapOk⟩

/-- **The live allocations after every run** of allowed calls that are safe and whose sizes do not wrap. -/
theorem live_run (mem : Mem) {base : Nat} (h0 : 0 < base) (hlt : base + 16 * 4096 < 2 ^ 64) {ops : List HeapOp}
    (hops : Along heapStep (fun s op => Allowed s op ∧ HeapSafe s op ∧ SizesFit s op) (initHeapState mem base) ops) :
    ∃ rs s, runFrom heapStep (initHeapState mem base) ops = .ok (rs, s) ∧ LiveApart s := by
  obtain ⟨rs, s, hrun, B, fl, hi⟩ := runFrom_inv (fun s => ∃ B fl, LiveInv True s B fl)
    (fun s op ⟨B, fl, hi⟩ ⟨ha, hs, hf⟩ => by
      obtain ⟨r, s', B', fl', he, hi'⟩ := heapStep_inv hi ha hs fun _ => hf
      exact ⟨r, s', he, B', fl', hi'⟩) ⟨_, _, initHeapState_inv h0 hlt⟩ hops
  exact ⟨rs, s, hrun, hi.liveApart⟩

/-! ## A block that is used again -/

/-- The heap in cleared memory. -/
def blankHeap : HeapState := initHeapState (fun _ => 0) 4096

/-- An allocation is freed, then others are made. -/
def reuseOps (sizes : List UInt64) : List HeapOp :=
  .kmalloc [] 100 :: .kfree 4120 :: sizes.map fun size => .kmalloc [] size

theorem blankHeap_kmalloc : ∃ s, heapStep blankHeap (.kmalloc [] 100) = .ok (4120, s) ∧ s.live = [(4120, 100)] ∧
    s.heap.kernelHeapBase = 4096 ∧ s.heap.kernelHeapUsed = 136 ∧ sizeAt s.heap.mem 4096 = 112 := by
  have h : (heapStep blankHeap (.kmalloc [] 100)).toOption.map (fun out => (out.1, out.2.live,
      out.2.heap.kernelHeapBase, out.2.heap.kernelHeapUsed, sizeAt out.2.heap.mem 4096)) =
      some (4120, [(4120, 100)], 4096, 136, 112) := by decide +kernel
  obtain ⟨⟨r, s⟩, he, hs⟩ := exists_ok_of_map h
  simp only [Prod.mk.injEq] at hs
  obtain ⟨rfl, hs⟩ := hs
  exact ⟨s, he, hs⟩

theorem along_kmalloc (s : HeapState) (sizes : List UInt64) :
    Along heapStep Allowed s (sizes.map fun size => .kmalloc [] size) := by
  induction sizes generalizing s with
  | nil => trivial
  | cons size sizes ih => exact ⟨trivial, fun _ s' _ => ih s'⟩

theorem along_reuseOps (sizes : List UInt64) : Along heapStep Allowed blankHeap (reuseOps sizes) := by
  obtain ⟨s, he, hlive, -⟩ := blankHeap_kmalloc
  refine ⟨trivial, fun r s' hr => ?_⟩
  cases he.symm.trans hr
  exact ⟨.inr ⟨100, by simp [hlive]⟩, fun _ s' _ => along_kmalloc s' sizes⟩

/-- The second allocation fits the freed block exactly: `block->size - size - HEAP_BLOCK_HEADER_SIZE` wraps, and the
block that is made of it follows itself on the list. -/
theorem reuseOps_cycle : ∃ rs s, Along heapStep Allowed blankHeap (reuseOps [100]) ∧
    runFrom heapStep blankHeap (reuseOps [100]) = .ok (rs, s) ∧ ¬ HeapOk s.heap := by
  have h : (runFrom heapStep blankHeap (reuseOps [100])).toOption.map (fun out => (out.2.heap.heapFreeList,
      nextAt out.2.heap.mem 4232)) = some (4232, 4232) := by decide +kernel
  obtain ⟨⟨rs, s⟩, he, hs⟩ := exists_ok_of_map h
  simp only [Prod.mk.injEq] at hs
  refine ⟨rs, s, along_reuseOps _, he, fun hok => ?_⟩
  obtain ⟨fl, hc, -⟩ := hok.list
  rw [hs.1] at hc
  exact hc.not_self (congrArg some hs.2) (by decide)

/-- That block serves a request for more memory than there is. -/
theorem reuseOps_outside : ∃ rs s, Along heapStep Allowed blankHeap (reuseOps [100, 70000]) ∧
    runFrom heapStep blankHeap (reuseOps [100, 70000]) = .ok (rs, s) ∧ ¬ LiveApart s := by
  have h : (runFrom heapStep blankHeap (reuseOps [100, 70000])).toOption.map (fun out => (out.2.live,
      out.2.heap.regions)) = some ([(4256, 70000), (4120, 100)], [⟨4096, 69632⟩]) := by decide +kernel
  obtain ⟨⟨rs, s⟩, he, hs⟩ := exists_ok_of_map h
  simp only [Prod.mk.injEq] at hs
  refine ⟨rs, s, along_reuseOps _, he, fun hok => ?_⟩
  obtain ⟨r, hr, -, hstop⟩ := hok.inside (4256, 70000) (by simp [hs.1])
  rw [hs.2, List.mem_singleton] at hr
  rw [hr] at hstop
  exact absurd hstop (by decide)

/-! ## A run that joins blocks -/

/-- A test of what a run asks of a call: a block of the list serves the request and is cut, and the walk is safe. -/
def checkCall (s : HeapState) : HeapOp → Bool
  | .kmalloc [] size =>
    match search s.heap.mem (alignSize size.toNat) rounds 0 s.heap.heapFreeList with
    | .ok (.found _ b) =>
      size.toNat + 15 < 2 ^ 64 ∧ alignSize size.toNat + (headerSize + minBlockSize) ≤ sizeAt s.heap.mem b
    | _ => false
  | .kfree ptr =>
    let freed := pushFree s.heap (minus ptr headerSize)
    (s.live.map Prod.fst).contains ptr && safeWalk freed.regions freed.mem freed.bound rounds freed.kernelHeapBase
  | _ => false

def checkCalls : HeapState → List HeapOp → Bool
  | _, [] => true
  | s, op :: ops =>
    checkCall s op && match heapStep s op with
      | .ok (_, s') => checkCalls s' ops
      | .error _ => true

section Checked

variable {s : HeapState} {B : Nat → Prop} {fl : List Nat}

theorem checkCall_room {size : UInt64} (hi : HeapInv s.heap B fl) (h : checkCall s (.kmalloc [] size) = true) :
    size.toNat + 15 < 2 ^ 64 ∧ RoomFor (headerSize + minBlockSize) s.heap [] size.toNat := by
  simp only [checkCall] at h
  split at h
  · rename_i hs
    obtain ⟨hlt, hle⟩ := of_decide_eq_true h
    refine ⟨hlt, fun _ => ⟨fun b hb => ?_, fun _ hne => absurd rfl hne⟩⟩
    rwa [hb.eq_found hi hs]
  · cases h

theorem checkCall_safe {op : HeapOp} (hi : HeapInv s.heap B fl) (h : checkCall s op = true) :
    Allowed s op ∧ HeapSafe s op ∧ SizesFit s op := by
  cases op with
  | kmalloc grants size =>
    cases grants with
    | cons d grants => cases h
    | nil =>
      obtain ⟨hlt, hroom⟩ := checkCall_room hi h
      exact ⟨trivial, kmallocSafe_iff.mpr (hroom.mono (Nat.le_add_right _ _)), .inl hlt⟩
  | kcalloc grants num size => cases h
  | krealloc grants ptr newSize => cases h
  | kfree ptr =>
    simp only [checkCall, Bool.and_eq_true, List.contains_iff_mem] at h
    obtain ⟨x, hx, rfl⟩ := List.mem_map.mp h.1
    exact ⟨.inr ⟨x.2, hx⟩, fun _ => safeFrom_of_safeWalk h.2, trivial⟩

/-- The test of a whole run. -/
theorem along_of_checkCalls {ops : List HeapOp} (hi : LiveInv True s B fl) (h : checkCalls s ops = true) :
    Along heapStep (fun s op => (∃ B fl, HeapInv s.heap B fl) ∧ checkCall s op = true) s ops := by
  induction ops generalizing s B fl with
  | nil => trivial
  | cons op ops ih =>
    simp only [checkCalls, Bool.and_eq_true] at h
    obtain ⟨hop, hrest⟩ := h
    obtain ⟨ha, hs, hf⟩ := checkCall_safe hi.heap hop
    obtain ⟨r, s', B', fl', he, hi'⟩ := heapStep_inv hi ha hs fun _ => hf
    refine ⟨⟨⟨B, fl, hi.heap⟩, hop⟩, fun r₁ s₁ he₁ => ?_⟩
    rw [he] at he₁ hrest
    cases he₁
    exact ih hi' hrest

end Checked

/-- Four allocations, of which the second and the first are freed. -/
def joinOps : List HeapOp :=
  [.kmalloc [] 100, .kmalloc [] 100, .kmalloc [] 100, .kmalloc [] 100, .kfree 4256, .kfree 4120]

theorem joinOps_checked :
    Along heapStep (fun s op => (∃ B fl, HeapInv s.heap B fl) ∧ checkCall s op = true) blankHeap joinOps :=
  along_of_checkCalls (initHeapState_inv (by decide) (by decide)) (by decide +kernel)

theorem joinOps_safe : Along heapStep (fun s op => Allowed s op ∧ HeapSafe s op ∧ SizesFit s op) blankHeap joinOps :=
  joinOps_checked.imp fun _ _ ⟨⟨_, _, hi⟩, h⟩ => checkCall_safe hi h

/-- The two freed blocks have become one. -/
theorem joinOps_run {rs : List Nat} {s : HeapState} (h : runFrom heapStep blankHeap joinOps = .ok (rs, s)) :
    s.live = [(4528, 100), (4392, 100)] ∧ sizeAt s.heap.mem 4096 = 248 := by
  have hmap : (runFrom heapStep blankHeap joinOps).toOption.map (fun out => (out.2.live, sizeAt out.2.heap.mem 4096)) =
      some ([(4528, 100), (4392, 100)], 248) := by decide +kernel
  obtain ⟨out, he, hs⟩ := exists_ok_of_map hmap
  cases h.symm.trans he
  simpa using hs

theorem heap_run_blankHeap : ∃ rs s, runFrom heapStep blankHeap joinOps = .ok (rs, s) ∧
    (s.live = [(4528, 100), (4392, 100)] ∧ sizeAt s.heap.mem 4096 = 248) ∧ HeapOk s.heap := by
  obtain ⟨rs, s, hrun, hok⟩ := heap_run (fun _ => 0) (show 0 < 4096 by decide) (by decide)
    (joinOps_safe.imp fun _ _ h => ⟨h.1, h.2.1⟩)
  exact ⟨rs, s, hrun, joinOps_run hrun, hok⟩

theorem live_run_blankHeap : ∃ rs s, runFrom heapStep blankHeap joinOps = .ok (rs, s) ∧
    (s.live = [(4528, 100), (4392, 100)] ∧ sizeAt s.heap.mem 4096 = 248) ∧ LiveApart s := by
  obtain ⟨rs, s, hrun, hok⟩ := live_run (fun _ => 0) (show 0 < 4096 by decide) (by decide) joinOps_safe
  exact ⟨rs, s, hrun, joinOps_run hrun, hok⟩

end AmqOs.Memory
