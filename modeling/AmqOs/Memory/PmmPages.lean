import AmqOs.Memory.Pmm

/-!
# Several pages at once

`pmm_alloc_pages(count)` takes the first `count` pages off the free list and returns the first of them
(`PmmInv.allocPages`), whatever their addresses are. Its callers use `count` pages from the returned address on. These are
the pages that were taken exactly when the pages at the head of the list lie close together
(`pmmAllocPages_contiguous_iff`); `pmm_init` pushes the pages of a descriptor in ascending order, so that at the start each
page on the list lies below the one before it.
-/

set_option autoImplicit false

namespace AmqOs.Memory

open AmqOs.Lib

/-- The page is on the free list. -/
def FreePage (s : Pmm) (page : Nat) : Prop :=
  ∃ fl, ChainTo (fun page => some (pageNext s.mem page)) 0 s.freeList fl ∧ page ∈ fl

/-- The first `count` pages on the list lie in as many pages from the first one on. -/
def HeadClose (s : Pmm) (count : Nat) : Prop :=
  ∃ fl, ChainTo (fun page => some (pageNext s.mem page)) 0 s.freeList fl ∧
    ∀ page ∈ fl.take count, s.freeList ≤ page ∧ page < s.freeList + count * pageSize

section Inv

variable {pages fl : List Nat} {t : Nat} {s : PmmState}

namespace PmmInv

theorem taken_eq (hp : PagesOk pages) (h : PmmInv pages t s fl) (n : Nat) : taken n s.pmm = fl.take n := by
  induction n generalizing s fl with
  | zero => rfl
  | succ n ih =>
    cases fl with
    | nil => simp [taken, h.alloc_null]
    | cons a fl =>
      obtain ⟨he, hne, hinv⟩ := h.alloc hp
      have hrest : taken n (pmmAllocPage s.pmm).2 = fl.take n := ih hinv
      rw [taken, if_neg (by rwa [he]), he, hrest, List.take_succ_cons]

theorem allocLoop_fst (hp : PagesOk pages) (h : PmmInv pages t s fl) (n : Nat) :
    (allocLoop n s.pmm).1 = decide (n ≤ fl.length) := by
  induction n generalizing s fl with
  | zero => simp [allocLoop]
  | succ n ih =>
    cases fl with
    | nil => simp [allocLoop, h.alloc_null]
    | cons a fl =>
      obtain ⟨he, hne, hinv⟩ := h.alloc hp
      have hrest : (allocLoop n (pmmAllocPage s.pmm).2).1 = decide (n ≤ fl.length) := ih hinv
      simp only [allocLoop]
      rw [if_neg (by rwa [he]), hrest, List.length_cons]
      simp

/-- **The answer of `pmm_alloc_pages`.** -/
theorem allocPages (hp : PagesOk pages) (h : PmmInv pages t s fl) {count : Nat} (hc : 0 < count) :
    (pmmAllocPages s.pmm count).1 = if count ≤ fl.length then fl.headD 0 else 0 := by
  unfold pmmAllocPages
  rw [if_neg (by omega)]
  cases fl with
  | nil =>
    rw [if_neg (by simp only [List.length_nil]; omega)]
    simp [h.alloc_null]
  | cons a fl =>
    obtain ⟨he, hne, hinv⟩ := h.alloc hp
    have hrest := hinv.allocLoop_fst hp (count - 1)
    simp only at hrest ⊢
    rw [if_neg (by rwa [he]), hrest, he, List.headD_cons, List.length_cons]
    by_cases hle : count ≤ fl.length + 1
    · rw [if_pos hle, if_pos (decide_eq_true (by omega))]
    · rw [if_neg hle, if_neg (by simp only [decide_eq_true_eq]; omega)]

theorem of_ne_null (hp : PagesOk pages) (h : PmmInv pages t s fl) {count : Nat} (hc : 0 < count)
    (hne : (pmmAllocPages s.pmm count).1 ≠ 0) :
    count ≤ fl.length ∧ (pmmAllocPages s.pmm count).1 = s.pmm.freeList := by
  have hret := h.allocPages hp hc
  by_cases hle : count ≤ fl.length
  · refine ⟨hle, ?_⟩
    rw [hret, if_pos hle]
    cases fl with
    | nil =>
      simp only [List.length_nil] at hle
      omega
    | cons a fl => exact (ChainTo.cons_iff.mp h.list).1.symm
  · rw [hret, if_neg hle] at hne
    exact absurd rfl hne

end PmmInv

/-- The addresses of `count` pages from `p` on. -/
def pageRun (p count : Nat) : Finset Nat := (Finset.range count).image fun k => p + k * pageSize

theorem card_pageRun (p count : Nat) : (pageRun p count).card = count := by
  rw [pageRun, Finset.card_image_of_injective _ fun k j hkj => ?_, Finset.card_range]
  simp only [pageSize] at hkj
  omega

/-- Pages in the memory of a run of pages are pages of the run. -/
theorem mem_pageRun {p count a : Nat} (hp : p % pageSize = 0) (ha : a % pageSize = 0) :
    a ∈ pageRun p count ↔ p ≤ a ∧ a < p + count * pageSize := by
  simp only [pageRun, Finset.mem_image, Finset.mem_range]
  unfold pageSize at *
  constructor
  · rintro ⟨k, hk, rfl⟩
    omega
  · rintro ⟨h1, h2⟩
    exact ⟨(a - p) / 4096, by omega, by omega⟩

/-- As many different pages as a run has are the run, when they are all in it. -/
theorem pageRun_subset_iff {l : List Nat} {p count : Nat} (hl : l.Nodup) (hlen : l.length = count) :
    pageRun p count ⊆ l.toFinset ↔ l.toFinset ⊆ pageRun p count := by
  have hcard : l.toFinset.card = (pageRun p count).card := by
    rw [card_pageRun, List.toFinset_card_of_nodup hl, hlen]
  constructor
  · intro h
    exact (Finset.eq_of_subset_of_card_le h hcard.le).ge
  · intro h
    exact (Finset.eq_of_subset_of_card_le h hcard.ge).ge

end Inv

/-- **The pages from the returned address on** are those that were taken if and only if the pages at the head of the free
list lie close together, in every state after every run. -/
theorem pmmAllocPages_contiguous_iff {mem : Mem} {map : List Descriptor} (hmap : MapOk map) {ops : List PmmOp}
    (hops : Along pmmStep PmmAllowed (pmmStart mem map) ops) {rs : List Nat} {s : PmmState}
    (hrun : runFrom pmmStep (pmmStart mem map) ops = .ok (rs, s)) {count : UInt64} (hc : 1 ≤ count.toNat)
    (hret : (pmmAllocPages s.pmm count.toNat).1 ≠ 0) :
    (∀ k < count.toNat, FreePage s.pmm ((pmmAllocPages s.pmm count.toNat).1 + k * pageSize) ∧
      (pmmAllocPages s.pmm count.toNat).1 + k * pageSize ∈ taken count.toNat s.pmm) ↔
    HeadClose s.pmm count.toNat := by
  obtain ⟨pages, t, hp, h0, hstart⟩ := pmmStart_exists_inv hmap mem
  obtain ⟨rs', s', fl, hrun', hinv⟩ := hstart.run hp h0 hops
  cases hrun'.symm.trans hrun
  obtain ⟨hle, hfirst⟩ := hinv.of_ne_null hp hc hret
  have htaken := hinv.taken_eq hp count.toNat
  rw [hfirst, htaken]
  generalize count.toNat = n at *
  have hmem : ∀ page ∈ fl.take n, page ∈ pages :=
    fun page hpage => hinv.mem_iff.mpr (.inl (List.mem_of_mem_take hpage))
  have hnd : (fl.take n).Nodup := hinv.list.nodup.sublist (List.take_sublist n fl)
  have hlen : (fl.take n).length = n := List.length_take_of_le hle
  have hhead : s.pmm.freeList % pageSize = 0 := by
    cases fl with
    | nil =>
      simp only [List.length_nil] at hle
      omega
    | cons a fl =>
      rw [(ChainTo.cons_iff.mp hinv.list).1]
      exact (hp.aligned a (hinv.mem_iff.mpr (.inl List.mem_cons_self))).1
  have hleft : (∀ k < n, FreePage s.pmm (s.pmm.freeList + k * pageSize) ∧ s.pmm.freeList + k * pageSize ∈ fl.take n) ↔
      pageRun s.pmm.freeList n ⊆ (fl.take n).toFinset := by
    constructor
    · intro h a ha
      obtain ⟨k, hk, rfl⟩ := Finset.mem_image.mp ha
      exact List.mem_toFinset.mpr (h k (Finset.mem_range.mp hk)).2
    · intro h k hk
      have hk' := List.mem_toFinset.mp (h (Finset.mem_image.mpr ⟨k, Finset.mem_range.mpr hk, rfl⟩))
      exact ⟨⟨fl, hinv.list, List.mem_of_mem_take hk'⟩, hk'⟩
  have hright : HeadClose s.pmm n ↔ (fl.take n).toFinset ⊆ pageRun s.pmm.freeList n := by
    constructor
    · rintro ⟨fl', hfl', hclose⟩ a ha
      rw [hfl'.unique hinv.list] at hclose
      have ha' := List.mem_toFinset.mp ha
      exact (mem_pageRun hhead (hp.aligned a (hmem a ha')).1).mpr (hclose a ha')
    · intro h
      refine ⟨fl, hinv.list, fun a ha => ?_⟩
      exact (mem_pageRun hhead (hp.aligned a (hmem a ha)).1).mp (h (List.mem_toFinset.mpr ha))
  rw [hleft, hright]
  exact pageRun_subset_iff hnd hlen

instance (s : PmmState) : ∀ op, Decidable (PmmAllowed s op)
  | .allocPage | .allocPages _ => .isTrue trivial
  | .freePage addr => inferInstanceAs (Decidable (addr ∈ s.allocated))
  | .write addr _ => inferInstanceAs (Decidable (∃ page ∈ s.allocated, page ≤ addr ∧ addr < page + pageSize))

/-- Two pages are taken and given back, the higher one first, and then asked for at once. -/
def swapOps : List PmmOp := [.allocPage, .allocPage, .freePage 0x12000, .freePage 0x11000]

theorem pmmAllocPages_swapOps : ∃ rs s, runFrom pmmStep (pmmStart (fun _ => 0) (lowMap 0x1000)) swapOps = .ok (rs, s) ∧
    (pmmAllocPages s.pmm 2).1 = 0x11000 ∧
    ((∀ k < 2, FreePage s.pmm ((pmmAllocPages s.pmm 2).1 + k * pageSize) ∧
      (pmmAllocPages s.pmm 2).1 + k * pageSize ∈ taken 2 s.pmm) ↔ HeadClose s.pmm 2) := by
  have h : (runFrom pmmStep (pmmStart (fun _ => 0) (lowMap 0x1000)) swapOps).toOption.map
      (fun out => (pmmAllocPages out.2.pmm 2).1) = some 0x11000 := by decide
  obtain ⟨⟨rs, s⟩, hrun, hret⟩ := exists_ok_of_map h
  refine ⟨rs, s, hrun, hret, ?_⟩
  refine @pmmAllocPages_contiguous_iff _ _ (lowMap_ok 0x1000 (by decide) (by decide)) _ ?_ _ _ hrun 2 (by decide) ?_
  · decide
  · show (pmmAllocPages s.pmm 2).1 ≠ 0
    rw [hret]
    decide

/-- Right after `pmm_init` the first page on the list is the last page of memory: there is no page after it. -/
theorem pmmAllocPages_end : MapOk (lowMap 0x1000) ∧
    (pmmAllocPages (pmmStart (fun _ => 0) (lowMap 0x1000)).pmm 2).1 = 0x12000 ∧
    ¬ FreePage (pmmStart (fun _ => 0) (lowMap 0x1000)).pmm (0x12000 + 1 * pageSize) := by
  have hmap := lowMap_ok 0x1000 (by decide) (by decide)
  have hinv := pmmStart_inv hmap (by decide) fun _ => 0
  refine ⟨hmap, ?_, ?_⟩
  · rw [hinv.allocPages hmap.pagesOk (by omega)]
    decide
  · rintro ⟨fl, hfl, hmem⟩
    rw [hfl.unique hinv.list] at hmem
    revert hmem
    decide

end AmqOs.Memory
