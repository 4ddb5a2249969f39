import AmqOs.Memory.HeapDefs

/-!
# The page allocator

`pmm_init`, `pmm_alloc_page`, `pmm_alloc_pages` and `pmm_free_page` over a byte memory. The free pages are linked
through their own first eight bytes, from `free_list` to `NULL`; `NULL` is also the address of page 0.

A run is any sequence of allocations, frees of allocated pages and writes to allocated pages. After every run the free
list is duplicate-free and apart from the allocated pages, and `pmm_get_free_pages` tells how many allocations are
left, if and only if the memory map given to `pmm_init` does not contain page 0 (`pmm_run_iff`).
-/

set_option autoImplicit false

namespace AmqOs.Memory

open AmqOs.Lib

/-- `EFI_MEMORY_DESCRIPTOR`, as far as `pmm_init` reads it; `conventional` tells whether the type is
`EfiConventionalMemory`. -/
structure Descriptor where
  conventional : Bool
  physicalStart : UInt64
  numberOfPages : UInt64

/-- The variables of the page allocator. -/
structure Pmm where
  mem : Mem
  freeList : Nat
  totalPages : Nat
  usedPages : Nat

def pageSize : Nat := 4096

/-- `page->next`. -/
def pageNext (m : Mem) (page : Nat) : Nat := m.loadLE page 8

/-- `page->next = free_list; free_list = page`. -/
def pushPage (s : Pmm) (page : Nat) : Pmm := { s with mem := s.mem.storeLE page 8 s.freeList, freeList := page }

/-- The inner loop of `pmm_init`, with `n` pages left from page `p` on. -/
def initLoop (base : Nat) : Nat → Nat → Pmm → Pmm
  | 0, _, s => s
  | n + 1, p, s =>
    let s := pushPage s (wrap (base + p * pageSize))
    initLoop base n (p + 1) { s with totalPages := wrap (s.totalPages + 1) }

/-- `pmm_init`. -/
def pmmInit (mem : Mem) (map : List Descriptor) : Pmm :=
  map.foldl (fun s d => if d.conventional then initLoop d.physicalStart.toNat d.numberOfPages.toNat 0 s else s)
    ⟨mem, 0, 0, 0⟩

/-- `pmm_alloc_page`. -/
def pmmAllocPage (s : Pmm) : Nat × Pmm :=
  if s.freeList = 0 then (0, s)
  else (s.freeList, { s with
    mem := s.mem.store s.freeList pageSize fun _ => 0
    freeList := pageNext s.mem s.freeList
    usedPages := wrap (s.usedPages + 1) })

/-- `pmm_free_page`. -/
def pmmFreePage (s : Pmm) (addr : Nat) : Pmm :=
  if addr = 0 then s
  else
    let s := pushPage s addr
    { s with usedPages := minus s.usedPages 1 }

/-- The loop of `pmm_alloc_pages`, with `n` pages still to be taken; `false` when a page could not be had. -/
def allocLoop : Nat → Pmm → Bool × Pmm
  | 0, s => (true, s)
  | n + 1, s =>
    let (page, s) := pmmAllocPage s
    if page = 0 then (false, s) else allocLoop n s

/-- `pmm_alloc_pages`. -/
def pmmAllocPages (s : Pmm) (count : Nat) : Nat × Pmm :=
  if count = 0 then (0, s)
  else
    let (firstPage, s) := pmmAllocPage s
    if firstPage = 0 then (0, s)
    else
      let (done, s) := allocLoop (count - 1) s
      (if done then firstPage else 0, s)

/-- `pmm_get_free_pages`. -/
def pmmGetFreePages (s : Pmm) : Nat := minus s.totalPages s.usedPages

/-! ## Runs -/

/-- The pages that up to `n` calls of `pmm_alloc_page` return. -/
def taken : Nat → Pmm → List Nat
  | 0, _ => []
  | n + 1, s => if (pmmAllocPage s).1 = 0 then [] else (pmmAllocPage s).1 :: taken n (pmmAllocPage s).2

/-- The allocator and the pages that are allocated. -/
structure PmmState where
  pmm : Pmm
  allocated : List Nat

inductive PmmOp
  | allocPage
  | allocPages (count : UInt64)
  | freePage (addr : Nat)
  | write (addr : Nat) (byte : UInt8)

def pmmStep (s : PmmState) : PmmOp → Except Empty (Nat × PmmState)
  | .allocPage => .ok ((pmmAllocPage s.pmm).1, ⟨(pmmAllocPage s.pmm).2, taken 1 s.pmm ++ s.allocated⟩)
  | .allocPages count =>
    .ok ((pmmAllocPages s.pmm count.toNat).1,
      ⟨(pmmAllocPages s.pmm count.toNat).2, taken count.toNat s.pmm ++ s.allocated⟩)
  | .freePage addr => .ok (0, ⟨pmmFreePage s.pmm addr, s.allocated.erase addr⟩)
  | .write addr byte => .ok (0, ⟨{ s.pmm with mem := s.pmm.mem.store addr 1 fun _ => byte }, s.allocated⟩)

/-- Only allocated pages are freed or written to. -/
def PmmAllowed (s : PmmState) : PmmOp → Prop
  | .allocPage | .allocPages _ => True
  | .freePage addr => addr ∈ s.allocated
  | .write addr _ => ∃ page ∈ s.allocated, page ≤ addr ∧ addr < page + pageSize

def pmmStart (mem : Mem) (map : List Descriptor) : PmmState := ⟨pmmInit mem map, []⟩

/-- The pages of the conventional memory. -/
def pagesOf (map : List Descriptor) : List Nat :=
  map.flatMap fun d =>
    if d.conventional then (List.range d.numberOfPages.toNat).map fun p => d.physicalStart.toNat + p * pageSize
    else []

/-- The address after a descriptor's memory. -/
def Descriptor.stop (d : Descriptor) : Nat := d.physicalStart.toNat + d.numberOfPages.toNat * pageSize

/-- The conventional descriptors are page-aligned and pairwise disjoint ranges of addresses. -/
structure MapOk (map : List Descriptor) : Prop where
  aligned : ∀ d ∈ map, d.conventional → d.physicalStart.toNat % pageSize = 0 ∧ d.stop ≤ 2 ^ 64
  disjoint : map.Pairwise fun d e => d.conventional → e.conventional →
    d.stop ≤ e.physicalStart.toNat ∨ e.stop ≤ d.physicalStart.toNat

/-- Exactly `n` further calls of `pmm_alloc_page` succeed. -/
def Succeeds : Nat → Pmm → Prop
  | 0, s => (pmmAllocPage s).1 = 0
  | n + 1, s => (pmmAllocPage s).1 ≠ 0 ∧ Succeeds n (pmmAllocPage s).2

/-- The free list has no page twice and no allocated page, and the number of free pages is right. -/
structure PmmOk (s : PmmState) : Prop where
  list : ∃ fl, ChainTo (fun page => some (pageNext s.pmm.mem page)) 0 s.pmm.freeList fl ∧ fl.Nodup ∧
    ∀ page ∈ fl, page ∉ s.allocated
  count : Succeeds (pmmGetFreePages s.pmm) s.pmm

/-! ## The pages of a memory map -/

/-- Distinct aligned pages. -/
structure PagesOk (pages : List Nat) : Prop where
  nodup : pages.Nodup
  aligned : ∀ a ∈ pages, a % pageSize = 0 ∧ a + pageSize ≤ 2 ^ 64

section Pages

variable {pages fl : List Nat} {a b : Nat}

theorem PagesOk.apart (h : PagesOk pages) (ha : a ∈ pages) (hb : b ∈ pages) (hne : a ≠ b) :
    a + pageSize ≤ b ∨ b + pageSize ≤ a := by
  have h1 := (h.aligned a ha).1
  have h2 := (h.aligned b hb).1
  unfold pageSize at *
  omega

theorem PagesOk.length_le (h : PagesOk pages) : pages.length ≤ 2 ^ 52 := by
  have hinj : (pages.map fun a => a / pageSize).Nodup := by
    refine h.nodup.map_on fun a ha b hb he => ?_
    have h1 := (h.aligned a ha).1
    have h2 := (h.aligned b hb).1
    unfold pageSize at *
    omega
  have hsub : (pages.map fun a => a / pageSize).toFinset ⊆ Finset.range (2 ^ 52) := by
    intro k hk
    obtain ⟨a, ha, rfl⟩ := List.mem_map.mp (List.mem_toFinset.mp hk)
    have hlt := (h.aligned a ha).2
    unfold pageSize at *
    exact Finset.mem_range.mpr (by omega)
  have hcard := Finset.card_le_card hsub
  rwa [List.toFinset_card_of_nodup hinj, List.length_map, Finset.card_range] at hcard

theorem PagesOk.of_perm (h : PagesOk pages) {r : List Nat} (hperm : (fl ++ r).Perm pages) : PagesOk fl :=
  ⟨(List.nodup_append.mp (hperm.nodup_iff.mpr h.nodup)).1,
    fun a ha => h.aligned a (hperm.mem_iff.mp (List.mem_append_left _ ha))⟩

theorem mem_pagesOf {map : List Descriptor} : a ∈ pagesOf map ↔ ∃ d ∈ map, d.conventional = true ∧
    ∃ p < d.numberOfPages.toNat, a = d.physicalStart.toNat + p * pageSize := by
  unfold pagesOf
  rw [List.mem_flatMap]
  constructor
  · rintro ⟨d, hd, ha⟩
    split at ha
    · rename_i hc
      obtain ⟨p, hp, rfl⟩ := List.mem_map.mp ha
      exact ⟨d, hd, hc, p, List.mem_range.mp hp, rfl⟩
    · cases ha
  · rintro ⟨d, hd, hc, p, hp, rfl⟩
    refine ⟨d, hd, ?_⟩
    rw [if_pos hc]
    exact List.mem_map.mpr ⟨p, List.mem_range.mpr hp, rfl⟩

theorem MapOk.pagesOk {map : List Descriptor} (h : MapOk map) : PagesOk (pagesOf map) := by
  constructor
  · unfold pagesOf
    rw [List.nodup_flatMap]
    constructor
    · intro d hd
      split
      · refine List.Nodup.map (fun p q he => ?_) List.nodup_range
        simp only [pageSize] at he
        omega
      · exact List.nodup_nil
    · refine h.disjoint.imp fun {d e} hde => ?_
      intro x hx hy
      dsimp only at hx hy
      split at hx
      · split at hy
        · rename_i hd he
          obtain ⟨p, hp, rfl⟩ := List.mem_map.mp hx
          obtain ⟨q, hq, he'⟩ := List.mem_map.mp hy
          rw [List.mem_range] at hp hq
          have hap := hde hd he
          simp only [Descriptor.stop, pageSize] at hap he'
          omega
        · cases hy
      · cases hx
  · intro a ha
    obtain ⟨d, hd, hc, p, hp, rfl⟩ := mem_pagesOf.mp ha
    obtain ⟨h1, h2⟩ := h.aligned d hd hc
    simp only [Descriptor.stop, pageSize] at *
    omega

end Pages

/-! ## The invariant of a run -/

/-- The pages are the free ones and the allocated ones; `t` is the count of all pages. -/
structure PmmInv (pages : List Nat) (t : Nat) (s : PmmState) (fl : List Nat) : Prop where
  list : ChainTo (fun page => some (pageNext s.pmm.mem page)) 0 s.pmm.freeList fl
  perm : (fl ++ s.allocated).Perm pages
  total : s.pmm.totalPages = t
  used : s.pmm.usedPages = s.allocated.length

section Inv

variable {pages fl : List Nat} {t : Nat} {s : PmmState} {a : Nat}

/-- A change of memory that spares the free pages. -/
theorem chain_write {m m' : Mem} {head : Nat} (h : ChainTo (fun page => some (pageNext m page)) 0 head fl)
    (hm : ∀ page ∈ fl, ∀ x, page ≤ x → x < page + pageSize → m' x = m x) :
    ChainTo (fun page => some (pageNext m' page)) 0 head fl := by
  refine h.congr fun page hp => ?_
  have hsame : pageNext m' page = pageNext m page := by
    apply Mem.loadLE_congr
    intro x h1 h2
    exact hm page hp x h1 (by unfold pageSize; omega)
  rw [hsame]

/-- A page is pushed. -/
theorem chain_push {m : Mem} {head : Nat} (h : ChainTo (fun page => some (pageNext m page)) 0 head fl)
    (hp : PagesOk (a :: fl)) (hne : a ≠ 0) :
    ChainTo (fun page => some (pageNext (m.storeLE a 8 head) page)) 0 a (a :: fl) := by
  have hhead : head < 256 ^ 8 := by
    cases fl with
    | nil =>
      rw [ChainTo.nil_iff.mp h]
      decide
    | cons b fl =>
      obtain ⟨he, -⟩ := ChainTo.cons_iff.mp h
      have hb := hp.aligned b (by simp)
      rw [he]
      unfold pageSize at hb
      omega
  refine .cons hne (congrArg some (Mem.loadLE_storeLE hhead)) (chain_write h fun page hpage x h1 h2 => ?_)
  have hpa : page ≠ a := fun e => (List.nodup_cons.mp hp.nodup).1 (e ▸ hpage)
  have hap := hp.apart (List.mem_cons_of_mem _ hpage) List.mem_cons_self hpa
  unfold pageSize at h2 hap
  exact Mem.storeLE_out (by omega)

namespace PmmInv

theorem mem_iff (h : PmmInv pages t s fl) : a ∈ pages ↔ a ∈ fl ∨ a ∈ s.allocated := by
  rw [← h.perm.mem_iff, List.mem_append]

theorem disjoint (hp : PagesOk pages) (h : PmmInv pages t s fl) (ha : a ∈ fl) : a ∉ s.allocated := by
  have hnd := h.perm.nodup_iff.mpr hp.nodup
  intro hb
  exact List.disjoint_of_nodup_append hnd ha hb

theorem congr_allocated (h : PmmInv pages t s fl) {allocated : List Nat} (hperm : allocated.Perm s.allocated) :
    PmmInv pages t ⟨s.pmm, allocated⟩ fl :=
  ⟨h.list, (hperm.append_left fl).trans h.perm, h.total, h.used.trans hperm.length_eq.symm⟩

/-- `pmm_alloc_page` takes the first free page. -/
theorem alloc (hp : PagesOk pages) (h : PmmInv pages t s (a :: fl)) :
    (pmmAllocPage s.pmm).1 = a ∧ a ≠ 0 ∧ PmmInv pages t ⟨(pmmAllocPage s.pmm).2, a :: s.allocated⟩ fl := by
  obtain ⟨he, hne, b, hb, hl⟩ := ChainTo.cons_iff.mp h.list
  obtain rfl : pageNext s.pmm.mem a = b := Option.some.inj hb
  have halloc : pmmAllocPage s.pmm = (a, ⟨s.pmm.mem.store a pageSize fun _ => 0, pageNext s.pmm.mem a,
      s.pmm.totalPages, wrap (s.pmm.usedPages + 1)⟩) := by
    unfold pmmAllocPage
    rw [he, if_neg hne]
  have hlen := h.perm.length_eq
  simp only [List.length_append, List.length_cons] at hlen
  have hmax := hp.length_le
  rw [halloc]
  refine ⟨rfl, hne, ?_, ?_, h.total, ?_⟩
  · refine chain_write hl fun page hpage x h1 h2 => ?_
    have hnd := h.perm.nodup_iff.mpr hp.nodup
    have hpa : page ≠ a := by
      rintro rfl
      simp [hpage] at hnd
    have hap := hp.apart (h.mem_iff.mpr (.inl (List.mem_cons_of_mem _ hpage))) (h.mem_iff.mpr (.inl (by simp))) hpa
    show s.pmm.mem.store a pageSize (fun _ => 0) x = s.pmm.mem x
    exact Mem.store_out (by omega)
  · exact List.perm_middle.trans h.perm
  · show wrap (s.pmm.usedPages + 1) = (a :: s.allocated).length
    rw [h.used, List.length_cons]
    exact Nat.mod_eq_of_lt (by omega)

theorem alloc_null (h : PmmInv pages t s []) : pmmAllocPage s.pmm = (0, s.pmm) := by
  unfold pmmAllocPage
  rw [if_pos (ChainTo.nil_iff.mp h.list)]

/-- The loop of `pmm_alloc_pages`. -/
theorem loop (hp : PagesOk pages) (n : Nat) (h : PmmInv pages t s fl) :
    ∃ fl', PmmInv pages t ⟨(allocLoop n s.pmm).2, taken n s.pmm ++ s.allocated⟩ fl' := by
  induction n generalizing s fl with
  | zero => exact ⟨fl, h⟩
  | succ n ih =>
    cases fl with
    | nil =>
      refine ⟨[], ?_⟩
      simpa [allocLoop, taken, h.alloc_null] using h
    | cons a fl =>
      obtain ⟨he, hne, hinv⟩ := h.alloc hp
      obtain ⟨fl', hinv'⟩ := ih hinv
      refine ⟨fl', ?_⟩
      have hloop : allocLoop (n + 1) s.pmm = allocLoop n (pmmAllocPage s.pmm).2 := by
        simp only [allocLoop]
        rw [he, if_neg hne]
      have htaken : taken (n + 1) s.pmm = a :: taken n (pmmAllocPage s.pmm).2 := by
        simp only [taken]
        rw [he, if_neg hne]
      rw [hloop, htaken]
      exact hinv'.congr_allocated List.perm_middle.symm

theorem pages_state (s : Pmm) (count : Nat) : (pmmAllocPages s count).2 = (allocLoop count s).2 := by
  cases count with
  | zero => rfl
  | succ n =>
    simp only [pmmAllocPages, allocLoop, Nat.succ_ne_zero, if_false, Nat.add_sub_cancel]
    split <;> rfl

/-- `pmm_free_page` of an allocated page. -/
theorem free (hp : PagesOk pages) (h0 : 0 ∉ pages) (h : PmmInv pages t s fl) (ha : a ∈ s.allocated) :
    PmmInv pages t ⟨pmmFreePage s.pmm a, s.allocated.erase a⟩ (a :: fl) := by
  have hpa : a ∈ pages := h.mem_iff.mpr (.inr ha)
  have hne : a ≠ 0 := fun e => h0 (e ▸ hpa)
  have hfree : pmmFreePage s.pmm a = ⟨s.pmm.mem.storeLE a 8 s.pmm.freeList, a, s.pmm.totalPages,
      minus s.pmm.usedPages 1⟩ := by
    unfold pmmFreePage
    rw [if_neg hne]
    rfl
  have hlen := h.perm.length_eq
  simp only [List.length_append] at hlen
  have hmax := hp.length_le
  have hpos : 0 < s.allocated.length := List.length_pos_of_mem ha
  rw [hfree]
  have hperm : (a :: fl ++ s.allocated.erase a).Perm pages :=
    (List.perm_middle.symm.trans ((List.perm_cons_erase ha).symm.append_left fl)).trans h.perm
  refine ⟨chain_push h.list (hp.of_perm hperm) hne, hperm, h.total, ?_⟩
  · show minus s.pmm.usedPages 1 = (s.allocated.erase a).length
    rw [h.used, List.length_erase_of_mem ha]
    unfold minus wrap
    omega

/-- A write to an allocated page. -/
theorem write (hp : PagesOk pages) (h : PmmInv pages t s fl) {page x : Nat} {byte : UInt8} (ha : page ∈ s.allocated)
    (h1 : page ≤ x) (h2 : x < page + pageSize) :
    PmmInv pages t ⟨{ s.pmm with mem := s.pmm.mem.store x 1 fun _ => byte }, s.allocated⟩ fl := by
  refine ⟨chain_write h.list fun q hq y h3 h4 => ?_, h.perm, h.total, h.used⟩
  have hne : q ≠ page := fun e => h.disjoint hp hq (e ▸ ha)
  have hap := hp.apart (h.mem_iff.mpr (.inl hq)) (h.mem_iff.mpr (.inr ha)) hne
  show s.pmm.mem.store x 1 (fun _ => byte) y = s.pmm.mem y
  exact Mem.store_out (by omega)

/-- **One call.** -/
theorem step (hp : PagesOk pages) (h0 : 0 ∉ pages) (h : PmmInv pages t s fl) {op : PmmOp} (hop : PmmAllowed s op) :
    ∃ r s' fl', pmmStep s op = .ok (r, s') ∧ PmmInv pages t s' fl' := by
  cases op with
  | allocPage =>
    obtain ⟨fl', hinv⟩ := h.loop hp 1
    have hone : (allocLoop 1 s.pmm).2 = (pmmAllocPage s.pmm).2 := by
      simp only [allocLoop]
      split <;> rfl
    rw [hone] at hinv
    exact ⟨_, _, fl', rfl, hinv⟩
  | allocPages count =>
    obtain ⟨fl', hinv⟩ := h.loop hp count.toNat
    rw [← pages_state] at hinv
    exact ⟨_, _, fl', rfl, hinv⟩
  | freePage addr => exact ⟨_, _, _, rfl, h.free hp h0 hop⟩
  | write addr byte =>
    obtain ⟨page, hpage, h1, h2⟩ := hop
    exact ⟨_, _, fl, rfl, h.write hp hpage h1 h2⟩

theorem succeeds (hp : PagesOk pages) (h : PmmInv pages t s fl) : Succeeds fl.length s.pmm := by
  induction fl generalizing s with
  | nil =>
    show (pmmAllocPage s.pmm).1 = 0
    rw [h.alloc_null]
  | cons a fl ih =>
    obtain ⟨he, hne, hinv⟩ := h.alloc hp
    exact ⟨he ▸ hne, ih hinv⟩

theorem pmmOk (hp : PagesOk pages) (h : PmmInv pages pages.length s fl) : PmmOk s := by
  refine ⟨⟨fl, h.list, h.list.nodup, fun page hpage => h.disjoint hp hpage⟩, ?_⟩
  have hlen := h.perm.length_eq
  have hmax := hp.length_le
  simp only [List.length_append] at hlen
  have hfree : pmmGetFreePages s.pmm = fl.length := by
    unfold pmmGetFreePages minus wrap
    rw [h.total, h.used]
    omega
  rw [hfree]
  exact h.succeeds hp

end PmmInv

end Inv

/-! ## After `pmm_init` -/

/-- The body of the inner loop of `pmm_init`, for all pages of a list. -/
def pushAll (pages : List Nat) (s : Pmm) : Pmm :=
  pages.foldl (fun s page => { pushPage s page with totalPages := wrap (s.totalPages + 1) }) s

section Init

variable {pages fl : List Nat} {s : Pmm}

theorem initLoop_eq {base : Nat} (n p : Nat) (h : base + (p + n) * pageSize ≤ 2 ^ 64) (s : Pmm) :
    initLoop base n p s = pushAll ((List.range' p n).map fun q => base + q * pageSize) s := by
  induction n generalizing p s with
  | zero => rfl
  | succ n ih =>
    have hlt : base + p * pageSize < 2 ^ 64 := by
      unfold pageSize at *
      omega
    have hw : wrap (base + p * pageSize) = base + p * pageSize := Nat.mod_eq_of_lt hlt
    have hnext : base + (p + 1 + n) * pageSize ≤ 2 ^ 64 := by
      rw [show p + 1 + n = p + (n + 1) by omega]
      exact h
    simp only [initLoop, List.range'_succ, List.map_cons, hw]
    rw [ih (p + 1) hnext]
    rfl

theorem pmmInit_eq {map : List Descriptor} (h : MapOk map) (mem : Mem) :
    pmmInit mem map = pushAll (pagesOf map) ⟨mem, 0, 0, 0⟩ := by
  have hgo : ∀ s, map.foldl (fun s d => if d.conventional then
      initLoop d.physicalStart.toNat d.numberOfPages.toNat 0 s else s) s = pushAll (pagesOf map) s := by
    have hal := h.aligned
    clear h
    induction map with
    | nil => exact fun s => rfl
    | cons d map ih =>
      intro s
      have hrest := ih fun e he => hal e (List.mem_cons_of_mem _ he)
      rw [List.foldl_cons, hrest]
      unfold pagesOf
      rw [List.flatMap_cons]
      conv_rhs => unfold pushAll
      rw [List.foldl_append]
      by_cases hc : d.conventional = true
      · have hd := (hal d List.mem_cons_self hc).2
        unfold Descriptor.stop at hd
        rw [if_pos hc, if_pos hc, initLoop_eq _ 0 (by rwa [Nat.zero_add]), List.range_eq_range']
        rfl
      · rw [if_neg hc, if_neg hc]
        rfl
  exact hgo _

theorem pushAll_counts (pages : List Nat) (s : Pmm) (hlen : s.totalPages + pages.length < 2 ^ 64) :
    (pushAll pages s).totalPages = s.totalPages + pages.length ∧ (pushAll pages s).usedPages = s.usedPages := by
  induction pages generalizing s with
  | nil => exact ⟨rfl, rfl⟩
  | cons a pages ih =>
    rw [List.length_cons] at hlen
    have hw : wrap (s.totalPages + 1) = s.totalPages + 1 := Nat.mod_eq_of_lt (by omega)
    obtain ⟨h1, h2⟩ := ih { pushPage s a with totalPages := wrap (s.totalPages + 1) }
      (by simp only [hw]; omega)
    refine ⟨h1.trans ?_, h2⟩
    simp only [hw, List.length_cons]
    omega

/-- The pages are on the list, the last one first. -/
theorem pushAll_chain (pages fl : List Nat) (s : Pmm) (hp : PagesOk (pages.reverse ++ fl)) (h0 : 0 ∉ pages)
    (h : ChainTo (fun page => some (pageNext s.mem page)) 0 s.freeList fl) :
    ChainTo (fun page => some (pageNext (pushAll pages s).mem page)) 0 (pushAll pages s).freeList
      (pages.reverse ++ fl) := by
  induction pages generalizing s fl with
  | nil => exact h
  | cons a pages ih =>
    rw [List.reverse_cons, List.append_assoc] at hp ⊢
    obtain ⟨ha, h0'⟩ := not_or.mp fun hm => h0 (List.mem_cons.mpr hm)
    have hpush := chain_push h (hp.of_perm List.perm_append_comm) (Ne.symm ha)
    exact ih _ _ hp h0' hpush

/-- Without page 0 all pages are free. -/
theorem pmmStart_inv {map : List Descriptor} (h : MapOk map) (h0 : 0 ∉ pagesOf map) (mem : Mem) :
    PmmInv (pagesOf map) (pagesOf map).length (pmmStart mem map) (pagesOf map).reverse := by
  have hp := h.pagesOk
  have hmax := hp.length_le
  have hperm : ((pagesOf map).reverse ++ []).Perm (pagesOf map) := by
    rw [List.append_nil]
    exact List.reverse_perm _
  obtain ⟨h1, h2⟩ := pushAll_counts (pagesOf map) ⟨mem, 0, 0, 0⟩ (by simp only; omega)
  rw [← pmmInit_eq h] at h1 h2
  refine ⟨?_, hperm, by simpa [pmmStart] using h1, h2⟩
  have hchain := pushAll_chain (pagesOf map) [] ⟨mem, 0, 0, 0⟩
    (hp.of_perm (r := []) (by rwa [List.append_nil])) h0 .nil
  rw [← pmmInit_eq h, List.append_nil] at hchain
  exact hchain

theorem Succeeds.unique {n k : Nat} (hn : Succeeds n s) (hk : Succeeds k s) : n = k := by
  induction n generalizing s k with
  | zero =>
    cases k with
    | zero => rfl
    | succ k => exact absurd hn hk.1
  | succ n ih =>
    cases k with
    | zero => exact absurd hk hn.1
    | succ k => rw [ih hn.2 hk.2]

/-- Page 0 cuts off the pages pushed before it. -/
theorem pmmStart_inv_null {map : List Descriptor} (h : MapOk map) (h0 : 0 ∈ pagesOf map) (mem : Mem) :
    ∃ q, q.length < (pagesOf map).length ∧ PagesOk q ∧ 0 ∉ q ∧
      PmmInv q (pmmInit mem map).totalPages (pmmStart mem map) q.reverse := by
  have hp := h.pagesOk
  have hmax := hp.length_le
  obtain ⟨-, h2⟩ := pushAll_counts (pagesOf map) ⟨mem, 0, 0, 0⟩ (by simp only; omega)
  obtain ⟨p, q, hpq⟩ := List.append_of_mem h0
  have hnd := hp.nodup
  rw [hpq] at hnd
  have hq0 : 0 ∉ q := (List.nodup_cons.mp (List.nodup_append.mp hnd).2.1).1
  have hq : PagesOk q := hp.of_perm (r := 0 :: p) (by rw [hpq]; exact List.perm_append_comm.trans List.perm_middle.symm)
  -- after page 0 the list is empty
  have hchain := pushAll_chain q []
    { pushPage (pushAll p ⟨mem, 0, 0, 0⟩) 0 with
      totalPages := wrap ((pushAll p ⟨mem, 0, 0, 0⟩).totalPages + 1) }
    (hq.of_perm (r := []) (by simp [List.reverse_perm])) hq0 .nil
  have hsplit : pmmInit mem map = pushAll q { pushPage (pushAll p ⟨mem, 0, 0, 0⟩) 0 with
      totalPages := wrap ((pushAll p ⟨mem, 0, 0, 0⟩).totalPages + 1) } := by
    rw [pmmInit_eq h, hpq]
    unfold pushAll
    rw [List.foldl_append, List.foldl_cons]
  rw [← hsplit, List.append_nil] at hchain
  rw [← pmmInit_eq h] at h2
  have hlen := congrArg List.length hpq
  simp only [List.length_append, List.length_cons] at hlen
  exact ⟨q, by omega, hq, hq0, hchain, by rw [pmmStart, List.append_nil]; exact List.reverse_perm _, rfl, h2⟩

/-- Page 0 is counted, but not on the list. -/
theorem pmmStart_null {map : List Descriptor} (h : MapOk map) (h0 : 0 ∈ pagesOf map) (mem : Mem) :
    ¬ PmmOk (pmmStart mem map) := by
  have hmax := h.pagesOk.length_le
  obtain ⟨h1, h2⟩ := pushAll_counts (pagesOf map) ⟨mem, 0, 0, 0⟩ (by simp only; omega)
  rw [← pmmInit_eq h] at h1 h2
  obtain ⟨q, hlt, hq, -, hinv⟩ := pmmStart_inv_null h h0 mem
  intro hok
  have hcount := hok.count.unique (hinv.succeeds hq)
  have hfree : pmmGetFreePages (pmmInit mem map) = (pagesOf map).length := by
    unfold pmmGetFreePages minus wrap
    rw [h1, h2]
    simp only
    omega
  rw [List.length_reverse] at hcount
  have := hfree.symm.trans hcount
  omega

/-- After `pmm_init` the free pages are in order, with page 0 or without. -/
theorem pmmStart_exists_inv {map : List Descriptor} (h : MapOk map) (mem : Mem) :
    ∃ pages t, PagesOk pages ∧ 0 ∉ pages ∧ PmmInv pages t (pmmStart mem map) pages.reverse := by
  by_cases h0 : 0 ∈ pagesOf map
  · obtain ⟨q, -, hq, hq0, hinv⟩ := pmmStart_inv_null h h0 mem
    exact ⟨q, _, hq, hq0, hinv⟩
  · exact ⟨_, _, h.pagesOk, h0, pmmStart_inv h h0 mem⟩

end Init

theorem zero_mem_pagesOf {map : List Descriptor} :
    0 ∈ pagesOf map ↔ ∃ d ∈ map, d.conventional ∧ d.physicalStart = 0 ∧ d.numberOfPages ≠ 0 := by
  rw [mem_pagesOf]
  constructor
  · rintro ⟨d, hd, hc, p, hp, he⟩
    refine ⟨d, hd, hc, UInt64.toNat_inj.mp ?_, fun hn => ?_⟩
    · simp only [UInt64.toNat_zero]
      omega
    · rw [hn] at hp
      simp at hp
  · rintro ⟨d, hd, hc, h0, hn⟩
    have hpos : d.numberOfPages.toNat ≠ 0 := fun e => hn (UInt64.toNat_inj.mp (by simpa using e))
    exact ⟨d, hd, hc, 0, by omega, by simp [h0]⟩

theorem PmmInv.run {pages fl : List Nat} {t : Nat} {s : PmmState} {ops : List PmmOp} (hp : PagesOk pages)
    (h0 : 0 ∉ pages) (h : PmmInv pages t s fl) (hops : Along pmmStep PmmAllowed s ops) :
    ∃ rs s' fl', runFrom pmmStep s ops = .ok (rs, s') ∧ PmmInv pages t s' fl' := by
  obtain ⟨rs, s', hrun, fl', hinv⟩ := runFrom_inv (fun s => ∃ fl, PmmInv pages t s fl)
    (fun s op ⟨fl, hinv⟩ hop => by
      obtain ⟨r, s', fl', he, hinv'⟩ := hinv.step hp h0 hop
      exact ⟨r, s', he, fl', hinv'⟩) ⟨fl, h⟩ hops
  exact ⟨rs, s', fl', hrun, hinv⟩

/-- **The page allocator over every run**: it is in order if and only if the memory map does not contain page 0. -/
theorem pmm_run_iff (mem : Mem) {map : List Descriptor} (h : MapOk map) :
    (∀ ops, Along pmmStep PmmAllowed (pmmStart mem map) ops →
      ∃ rs s, runFrom pmmStep (pmmStart mem map) ops = .ok (rs, s) ∧ PmmOk s) ↔
    ∀ d ∈ map, d.conventional → d.numberOfPages ≠ 0 → d.physicalStart ≠ 0 := by
  have hp := h.pagesOk
  constructor
  · intro hrun d hd hc hn h0
    obtain ⟨rs, s, hnil, hok⟩ := hrun [] trivial
    cases hnil
    exact pmmStart_null h (zero_mem_pagesOf.mpr ⟨d, hd, hc, h0, hn⟩) mem hok
  · intro hno ops hops
    have h0 : 0 ∉ pagesOf map := by
      intro hm
      obtain ⟨d, hd, hc, hs, hn⟩ := zero_mem_pagesOf.mp hm
      exact hno d hd hc hn hs
    obtain ⟨rs, s, fl, hrun, hinv⟩ := (pmmStart_inv h h0 mem).run hp h0 hops
    exact ⟨rs, s, hrun, hinv.pmmOk hp⟩

/-- Two descriptors, of one kind or the other, with a gap between them. -/
def lowMap (start : UInt64) : List Descriptor := [⟨true, start, 2⟩, ⟨false, 0x8000, 1⟩, ⟨true, 0x10000, 3⟩]

theorem lowMap_ok (start : UInt64) (h : start.toNat % pageSize = 0) (hlt : start.toNat + 2 * pageSize ≤ 0x10000) :
    MapOk (lowMap start) := by
  unfold pageSize at h hlt
  have h2 : (2 : UInt64).toNat = 2 := rfl
  have h16 : (0x10000 : UInt64).toNat = 65536 := rfl
  constructor
  · simp only [lowMap, List.mem_cons, List.not_mem_nil, or_false]
    rintro d (rfl | rfl | rfl) hc
    · simp only [Descriptor.stop, pageSize, h2]
      omega
    · cases hc
    · exact ⟨by decide, by decide⟩
  · simp only [lowMap, List.pairwise_cons, List.mem_cons, List.not_mem_nil, or_false]
    refine ⟨?_, ?_, ?_, .nil⟩
    · rintro d (rfl | rfl) - hc
      · cases hc
      · simp only [Descriptor.stop, pageSize, h2, h16]
        omega
    · rintro d rfl hc
      cases hc
    · rintro d hf
      cases hf

theorem pmm_run_lowMap : MapOk (lowMap 0x1000) ∧
    ∀ ops, Along pmmStep PmmAllowed (pmmStart (fun _ => 0) (lowMap 0x1000)) ops →
      ∃ rs s, runFrom pmmStep (pmmStart (fun _ => 0) (lowMap 0x1000)) ops = .ok (rs, s) ∧ PmmOk s :=
  ⟨lowMap_ok 0x1000 (by decide) (by decide),
    (pmm_run_iff (fun _ => 0) (lowMap_ok 0x1000 (by decide) (by decide))).mpr (by decide)⟩

/-- Page 0 is counted, but never handed out. -/
theorem lowMap_null : MapOk (lowMap 0) ∧ ¬ PmmOk (pmmStart (fun _ => 0) (lowMap 0)) :=
  ⟨lowMap_ok 0 (by decide) (by decide), pmmStart_null (lowMap_ok 0 (by decide) (by decide))
    (zero_mem_pagesOf.mpr (by decide)) _⟩

end AmqOs.Memory
