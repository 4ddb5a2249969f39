import AmqOs.Memory.HeapRun

/-!
# Sizes of allocations

Which block a request gets (`kmalloc_cases`): the heap grows for as long as no block on the list is free and large enough
(`Grown`), then the first such block is cut to the rounded size. In a heap that is in order this is the first block of the
list that is large enough, or the new pages (`kmalloc_served`).

The block has at least the size asked for exactly when rounding the size up to a multiple of 16 does not wrap around
(`kmalloc_size_iff`), and for `kcalloc` neither the product does (`kcalloc_size_iff`). This holds in every heap in which
the headers on the list do not overlap (`ListApart`): the header of the block is the last that `kmalloc` writes, but for
the link of the block before it on the list.
-/

set_option autoImplicit false

namespace AmqOs.Memory

open AmqOs.Lib

/-! ## The block that serves a request -/

/-- The heap in which the search of a request of `size` bytes ends. -/
inductive Grown (size : Nat) : List Nat → Heap → Heap → Prop
  | refl {grants : List Nat} {h : Heap} : Grown size grants h h
  | step {grants : List Nat} {d : Nat} {h g : Heap} (hsize : size ≠ 0)
      (hs : search h.mem size rounds 0 h.heapFreeList = .ok .exhausted) (hp : newPages size ≠ 0)
      (hrest : Grown size grants (grow h d (newPages size)) g) : Grown size (d :: grants) h g

section Serving

variable {grants : List Nat} {h h' g : Heap} {n ptr size d prev b : Nat}

theorem kmalloc_of_found (hn : n ≠ 0)
    (hs : search h.mem (alignSize n) rounds 0 h.heapFreeList = .ok (.found prev b)) :
    kmalloc grants h n = .ok (wrap (b + headerSize), takeBlock h prev b (alignSize n)) := by
  unfold kmalloc
  simp only [hn, if_false, hs]

/-- What one round of `kmalloc` can do: give up, serve the request, or go on with new pages. -/
theorem kmalloc_inv (he : kmalloc grants h n = .ok (ptr, h')) :
    (ptr = 0 ∧ h' = h) ∨
    (n ≠ 0 ∧ ∃ prev b, search h.mem (alignSize n) rounds 0 h.heapFreeList = .ok (.found prev b) ∧
      ptr = wrap (b + headerSize) ∧ h' = takeBlock h prev b (alignSize n)) ∨
    (n ≠ 0 ∧ search h.mem (alignSize n) rounds 0 h.heapFreeList = .ok .exhausted ∧ newPages (alignSize n) ≠ 0 ∧
      ∃ d rest, grants = d :: rest ∧ kmalloc rest (grow h d (newPages (alignSize n))) (alignSize n) = .ok (ptr, h')) := by
  have hnull : ∀ g : Heap, (.ok (0, g) : Except HeapFault (Nat × Heap)) = .ok (ptr, h') → ptr = 0 ∧ h' = g := by
    rintro g ⟨⟩
    exact ⟨rfl, rfl⟩
  unfold kmalloc at he
  by_cases hn : n = 0
  · rw [if_pos hn] at he
    exact .inl (hnull h he)
  · simp only [if_neg hn] at he
    cases hs : search h.mem (alignSize n) rounds 0 h.heapFreeList with
    | error e => simp [hs] at he
    | ok found =>
      rw [hs] at he
      cases found with
      | corrupt => exact .inl (hnull h he)
      | found prev b =>
        simp only [Except.ok.injEq, Prod.mk.injEq] at he
        exact .inr (.inl ⟨hn, prev, b, rfl, he.1.symm, he.2.symm⟩)
      | exhausted =>
        cases grants with
        | nil => exact .inl (hnull h he)
        | cons d rest =>
          simp only at he
          by_cases hp : newPages (alignSize n) = 0
          · rw [if_pos hp] at he
            exact .inl (hnull h he)
          · rw [if_neg hp] at he
            exact .inr (.inr ⟨hn, rfl, hp, d, rest, rfl, he⟩)

/-- **What `kmalloc` returns**: a block found in the heap as it is then. -/
theorem kmalloc_cases (he : kmalloc grants h n = .ok (ptr, h')) (hne : ptr ≠ 0) :
    ∃ g prev b, Grown (alignSize n) grants h g ∧ n ≠ 0 ∧
      search g.mem (alignSize n) rounds 0 g.heapFreeList = .ok (.found prev b) ∧ ptr = wrap (b + headerSize) ∧
      h' = takeBlock g prev b (alignSize n) := by
  induction grants generalizing h n with
  | nil =>
    rcases kmalloc_inv he with ⟨h0, -⟩ | ⟨hn, prev, b, hs, hptr, hh'⟩ | ⟨-, -, -, d, rest, hnil, -⟩
    · exact absurd h0 hne
    · exact ⟨h, prev, b, .refl, hn, hs, hptr, hh'⟩
    · cases hnil
  | cons d grants ih =>
    rcases kmalloc_inv he with ⟨h0, -⟩ | ⟨hn, prev, b, hs, hptr, hh'⟩ | ⟨hn, hs, hp, d', rest, hcons, hrest⟩
    · exact absurd h0 hne
    · exact ⟨h, prev, b, .refl, hn, hs, hptr, hh'⟩
    · cases hcons
      obtain ⟨g, prev, b, hg, hn', hs', hptr, hh'⟩ := ih hrest
      rw [alignSize_idem] at hg hs' hh'
      exact ⟨g, prev, b, .step hn' hs hp hg, hn, hs', hptr, hh'⟩

/-- The counter of used bytes. -/
theorem Grown.used (hg : Grown size grants h g) : g.kernelHeapUsed = h.kernelHeapUsed := by
  induction hg with
  | refl => rfl
  | step _ _ _ _ ih => exact ih

theorem takeBlock_used : (takeBlock h prev b size).kernelHeapUsed = wrap (h.kernelHeapUsed + headerSize + size) := by
  unfold takeBlock
  simp only
  split_ifs <;> rfl

theorem kmalloc_used (he : kmalloc grants h n = .ok (ptr, h')) (hne : ptr ≠ 0) :
    h'.kernelHeapUsed = wrap (h.kernelHeapUsed + headerSize + alignSize n) := by
  obtain ⟨g, prev, b, hg, -, -, -, rfl⟩ := kmalloc_cases he hne
  rw [takeBlock_used, hg.used]

end Serving

/-! ## Sizes -/

section Sizes

variable {grants p q fl : List Nat} {h h' g : Heap} {B : Nat → Prop} {n ptr size d prev b : Nat}

theorem alignSize_lt (n : Nat) : alignSize n + 15 < 2 ^ 64 := by
  unfold alignSize wrap
  omega

theorem alignSize_eq_zero (hn : n < 2 ^ 64) (hwrap : 2 ^ 64 ≤ n + 15) : alignSize n = 0 := by
  unfold alignSize wrap
  omega

theorem minus_header (hb : b + 24 < 2 ^ 64) : minus (b + 24) headerSize = b := by
  rw [minus_of_le hb (by unfold headerSize; omega)]
  exact Nat.add_sub_cancel b 24

/-- The headers that following the links from `heap_free_list` arrives at. -/
inductive OnList (h : Heap) : Nat → Prop
  | head (h0 : h.heapFreeList ≠ 0) : OnList h h.heapFreeList
  | next {a : Nat} (ha : OnList h a) (h0 : nextAt h.mem a ≠ 0) : OnList h (nextAt h.mem a)

/-- The headers on the list do not overlap, and lie in the address space. -/
structure ListApart (h : Heap) : Prop where
  sep : Sep (OnList h)
  inside : ∀ a, OnList h a → a + 24 < 2 ^ 64

/-- The pages handed out for a request of `size` bytes hold no header that is on the list. -/
def GrantsApart : List Nat → Heap → Nat → Prop
  | [], _, _ => True
  | newMem :: grants, h, size =>
    (newMem + newPages size * 4096 < 2 ^ 64 ∧
      ∀ a, OnList h a → a + 24 ≤ newMem ∨ newMem + newPages size * 4096 ≤ a) ∧
      GrantsApart grants (grow h newMem (newPages size)) size

/-- New pages come to the front of the list. -/
theorem ListApart.grow (hl : ListApart h) {pages : Nat} (hpages : 0 < pages) (hlt : d + pages * 4096 < 2 ^ 64)
    (hap : ∀ a, OnList h a → a + 24 ≤ d ∨ d + pages * 4096 ≤ a) : ListApart (grow h d pages) := by
  have hsame : ∀ a, OnList h a → SameHeader h.mem (Memory.grow h d pages).mem a := by
    intro a ha x h1 h2
    have ho := hap a ha
    show setHeader _ _ _ _ x = _
    rw [setHeader_out (by omega), Mem.store_out (by omega)]
  have hhead : h.heapFreeList < 2 ^ 64 := by
    by_cases h0 : h.heapFreeList = 0
    · omega
    · have hin := hl.inside _ (.head h0)
      omega
  have hon : ∀ a, OnList (Memory.grow h d pages) a → a = d ∨ OnList h a := by
    intro a ha
    induction ha with
    | head _ => exact .inl rfl
    | @next a _ h0 ih =>
      right
      rcases ih with rfl | ha
      · have hnext : nextAt (Memory.grow h a pages).mem a = h.heapFreeList := nextAt_setHeader hhead
        rw [hnext] at h0 ⊢
        exact .head h0
      · rw [(hsame a ha).next] at h0 ⊢
        exact .next ha h0
  constructor
  · intro a c ha hc hne
    rcases hon a ha with hda | hla <;> rcases hon c hc with hdc | hlc
    · exact absurd (hda.trans hdc.symm) hne
    · have ho := hap c hlc
      omega
    · have ho := hap a hla
      omega
    · exact hl.sep a c hla hlc hne
  · intro a ha
    rcases hon a ha with rfl | ha
    · omega
    · exact hl.inside a ha

theorem Grown.listApart (hg : Grown size grants h g) (hl : ListApart h) (hap : GrantsApart grants h size) :
    ListApart g := by
  induction hg with
  | refl => exact hl
  | step _ _ hp _ ih => exact ih (hl.grow (Nat.pos_iff_ne_zero.mpr hp) hap.1.1 hap.1.2) hap.2

/-- What the search finds is on the list, and so is the block before it, which does not fit. -/
theorem search_found {fuel cur prev' : Nat} (hprev : prev = 0 ∨ OnList h prev ∧ ¬ fits h.mem size prev)
    (hcur : cur ≠ 0 → OnList h cur) (hs : search h.mem size fuel prev cur = .ok (.found prev' b)) :
    (prev' = 0 ∨ OnList h prev' ∧ ¬ fits h.mem size prev') ∧ OnList h b ∧ fits h.mem size b := by
  induction fuel generalizing prev cur with
  | zero => cases hs
  | succ fuel ih =>
    unfold search at hs
    split_ifs at hs with h0 hmagic hfit
    · cases hs
    · cases hs
    · cases hs
      exact ⟨hprev, hcur h0, hfit⟩
    · exact ih (.inr ⟨hcur h0, hfit⟩) (fun hn => .next (hcur h0) hn) hs

theorem sizeAt_splitBlock {m : Mem} (hlt : size < 2 ^ 64) : sizeAt (splitBlock m b size) b =
    if minus (minus (sizeAt m b) size) headerSize ≥ minBlockSize then size else sizeAt m b := by
  unfold splitBlock
  simp only
  split_ifs
  · rw [sizeAt_setNext, sizeAt_setSize hlt]
  · rfl

/-- The block behind the pointer, whatever is written into the block after it. -/
theorem sizeAt_takeBlock (hprev : prev = 0 ∨ prev + 24 ≤ b ∨ b + 24 ≤ prev) (hlt : size < 2 ^ 64) :
    sizeAt (takeBlock h prev b size).mem b =
      if minus (minus (sizeAt h.mem b) size) headerSize ≥ minBlockSize then size else sizeAt h.mem b := by
  rw [← sizeAt_splitBlock (m := h.mem) hlt]
  unfold takeBlock
  simp only
  split_ifs with hp
  · have hother : sizeAt (setNext (setIsFree (splitBlock h.mem b size) b 0) prev
        (nextAt (setIsFree (splitBlock h.mem b size) b 0) b)) b = sizeAt (setIsFree (splitBlock h.mem b size) b 0) b :=
      Mem.loadLE_storeLE_out (by omega)
    exact hother.trans sizeAt_setIsFree
  · exact sizeAt_setIsFree

/-- **The size of the block that `kmalloc` returns.** -/
theorem kmalloc_stored (hl : ListApart h) (hap : GrantsApart grants h (alignSize n))
    (he : kmalloc grants h n = .ok (ptr, h')) (hne : ptr ≠ 0) :
    ∃ (g : Heap) (b : Nat), ptr = b + 24 ∧ b + 24 < 2 ^ 64 ∧ alignSize n ≤ sizeAt g.mem b ∧
      sizeAt h'.mem b = if minus (minus (sizeAt g.mem b) (alignSize n)) headerSize ≥ minBlockSize then alignSize n
        else sizeAt g.mem b := by
  obtain ⟨g, prev, b, hg, -, hs, rfl, rfl⟩ := kmalloc_cases he hne
  have hlg := hg.listApart hl hap
  obtain ⟨hprev, hb, hfits⟩ := search_found (.inl rfl) (fun h0 => .head h0) hs
  have hin := hlg.inside b hb
  have hlt := alignSize_lt n
  refine ⟨g, b, wrap_of_lt (by unfold headerSize; omega), hin, hfits.2, sizeAt_takeBlock ?_ (by omega)⟩
  refine hprev.imp_right fun ⟨hp, hno⟩ => hlg.sep prev b hp hb ?_
  rintro rfl
  exact hno hfits

theorem kmalloc_size_iff (hl : ListApart h) (hap : GrantsApart grants h (alignSize n)) (hn : n < 2 ^ 64)
    (he : kmalloc grants h n = .ok (ptr, h')) (hne : ptr ≠ 0) :
    n ≤ sizeAt h'.mem (minus ptr headerSize) ↔ n + 15 < 2 ^ 64 := by
  obtain ⟨g, b, rfl, hb, hfits, hsize⟩ := kmalloc_stored hl hap he hne
  rw [minus_header hb, hsize]
  constructor
  · intro hle
    by_contra hwrap
    have hzero := alignSize_eq_zero hn (by omega)
    have hbig := sizeAt_lt (m := g.mem) (b := b)
    rw [hzero] at hle
    unfold minus wrap headerSize minBlockSize at hle
    split_ifs at hle <;> omega
  · intro hlt
    have hal := le_alignSize hlt
    split_ifs <;> omega

/-- `kcalloc` clears the payload, and no header of its block. -/
theorem kcalloc_size_iff {a c : Nat} (hl : ListApart h) (hap : GrantsApart grants h (alignSize (wrap (a * c))))
    (he : kcalloc grants h a c = .ok (ptr, h')) (hne : ptr ≠ 0) :
    a * c ≤ sizeAt h'.mem (minus ptr headerSize) ↔ a * c + 15 < 2 ^ 64 := by
  unfold kcalloc at he
  cases hk : kmalloc grants h (wrap (a * c)) with
  | error e => simp [hk] at he
  | ok out =>
    obtain ⟨ptr', g⟩ := out
    simp only [hk, ok_bind, Except.ok.injEq, Prod.mk.injEq] at he
    obtain ⟨rfl, rfl⟩ := he
    have hwlt : wrap (a * c) < 2 ^ 64 := Nat.mod_lt _ (by omega)
    have hiff := kmalloc_size_iff hl hap hwlt hk hne
    obtain ⟨-, b, rfl, hb, -, -⟩ := kmalloc_stored hl hap hk hne
    rw [if_pos hne]
    rw [minus_header hb] at hiff ⊢
    have hsame : sizeAt (g.mem.store (b + 24) (wrap (a * c)) fun _ => 0) b = sizeAt g.mem b :=
      Mem.loadLE_congr fun x h1 h2 => Mem.store_out (by omega)
    rw [hsame]
    by_cases hlt : a * c < 2 ^ 64
    · rwa [wrap_of_lt hlt] at hiff
    · have hbig := sizeAt_lt (m := g.mem) (b := b)
      constructor
      · intro hle
        omega
      · intro hle
        omega

end Sizes

/-! ## Serving in a heap in order -/

section InOrder

variable {grants p q fl : List Nat} {h h' g : Heap} {B : Nat → Prop} {n ptr size d prev b x : Nat}

/-- A pointer to a block on the list is not `NULL`. -/
theorem HeapInv.pointer_ne_zero (hi : HeapInv h B (p ++ b :: q)) : wrap (b + headerSize) ≠ 0 := by
  have hb := hi.bounds (hi.isBlock (a := b) (by simp))
  rw [wrap_of_lt (by unfold headerSize; omega)]
  unfold headerSize
  omega

theorem HeapInv.found_ne_zero (hi : HeapInv h B fl)
    (hs : search h.mem size rounds 0 h.heapFreeList = .ok (.found prev b)) : wrap (b + headerSize) ≠ 0 := by
  rcases search_spec hi size with ⟨hs', -⟩ | ⟨p, c, q, rfl, hs', -⟩
  · rw [hs] at hs'
    cases hs'
  · rw [hs] at hs'
    cases hs'
    exact hi.pointer_ne_zero

/-- The last block before one of the list, if there is one, is another block. -/
theorem HeapInv.prev_apart (hi : HeapInv h B (p ++ b :: q)) :
    p.getLastD 0 = 0 ∨ p.getLastD 0 + 24 ≤ b ∨ b + 24 ≤ p.getLastD 0 := by
  rcases List.eq_nil_or_concat' p with rfl | ⟨p, c, rfl⟩
  · exact .inl rfl
  · right
    rw [List.getLastD_concat]
    obtain ⟨hc, hne⟩ := hi.other (a := c) (.inl (by simp))
    exact hi.sep c b hc (hi.isBlock (by simp)) hne

/-- In a heap that is in order the headers on the list are blocks. -/
theorem HeapInv.listApart (hi : HeapInv h B fl) : ListApart h := by
  have hon : ∀ a, OnList h a → a ∈ fl := by
    intro a ha
    induction ha with
    | head h0 =>
      cases hl : fl with
      | nil => exact absurd (ChainTo.nil_iff.mp (hl ▸ hi.list)) h0
      | cons b q =>
        obtain ⟨rfl, -⟩ := ChainTo.cons_iff.mp (hl ▸ hi.list)
        exact List.mem_cons_self
    | next _ h0 ih =>
      obtain ⟨p, q, rfl⟩ := hi.list.exists_next ih rfl h0
      simp
  constructor
  · exact fun a c ha hc hne => hi.sep a c (hi.isBlock (hon a ha)) (hi.isBlock (hon c hc)) hne
  · intro a ha
    have hb := hi.bounds (hi.isBlock (hon a ha))
    omega

/-- Growing keeps the heap in order. -/
theorem Grown.inv (hg : Grown size grants h g) (hi : HeapInv h B fl) (hfresh : GrantsFresh grants h size) :
    ∃ B' fl', HeapInv g B' fl' := by
  induction hg generalizing B fl with
  | refl => exact ⟨B, fl, hi⟩
  | step _ _ hp _ ih =>
    obtain ⟨hnew, hrest⟩ := hfresh
    exact ih (hi.grow (Nat.pos_iff_ne_zero.mpr hp) hnew).1 hrest

/-- The regions are made of whole pages. -/
def Paged (h : Heap) : Prop := ∀ r ∈ h.regions, r.start % 4096 = 0 ∧ r.stop % 4096 = 0

theorem Paged.grow (hp : Paged h) (hd : d % 4096 = 0) (pages : Nat) : Paged (grow h d pages) := by
  intro r hr
  rcases List.mem_cons.mp hr with rfl | hr
  · exact ⟨hd, by show (d + pages * 4096) % 4096 = 0; omega⟩
  · exact hp r hr

theorem Grown.paged (hg : Grown size grants h g) (hp : Paged h) (hgrants : ∀ d ∈ grants, d % 4096 = 0) : Paged g := by
  induction hg with
  | refl => exact hp
  | step _ _ _ _ ih =>
    exact ih (hp.grow (hgrants _ List.mem_cons_self) _) fun d hd => hgrants d (List.mem_cons_of_mem _ hd)

/-- New pages that are large enough serve the request they were asked for. -/
theorem search_grow (hd : d ≠ 0) (hlt : size + 4119 < 2 ^ 64) :
    search (grow h d (newPages size)).mem size rounds 0 (grow h d (newPages size)).heapFreeList = .ok (.found 0 d) := by
  have hpages : newPages size = (size + 4119) / 4096 := by
    unfold newPages headerSize
    rw [wrap_of_lt (by omega)]
  have hsize : sizeAt (grow h d (newPages size)).mem d = newPages size * 4096 - 24 := by
    have hw : wrap (newPages size * 4096 - headerSize) = newPages size * 4096 - 24 := wrap_of_lt (by unfold headerSize; omega)
    show sizeAt (setHeader _ d (wrap (newPages size * 4096 - headerSize)) _) d = _
    rw [hw, sizeAt_setHeader (by omega)]
  have hmagic : magicAt (grow h d (newPages size)).mem d = heapMagic := magicAt_setHeader
  have hfree : isFreeAt (grow h d (newPages size)).mem d = 1 := isFreeAt_setHeader
  have hfits : fits (grow h d (newPages size)).mem size d := by
    refine ⟨by rw [hfree]; exact one_ne_zero, ?_⟩
    rw [hsize]
    omega
  have hhead : (grow h d (newPages size)).heapFreeList = d := rfl
  have hrounds : rounds = 2 ^ 64 + 1 + 1 := rfl
  rw [hhead, hrounds, search, if_neg hd, if_neg (not_not_intro hmagic), if_pos hfits]

/-- A request for nearly all addresses is served by no block. -/
theorem Grown.not_huge (hg : Grown size grants h g) (hi : HeapInv h B fl) (hfresh : GrantsFresh grants h size)
    (hp : Paged h) (hgrants : ∀ d ∈ grants, d % 4096 = 0)
    (hs : search g.mem size rounds 0 g.heapFreeList = .ok (.found prev b)) : size + 4119 < 2 ^ 64 := by
  obtain ⟨B', fl', hig⟩ := hg.inv hi hfresh
  obtain ⟨-, -, hfits⟩ := search_found (.inl rfl) (fun h0 => .head h0) hs
  rcases search_spec hig size with ⟨hex, -⟩ | ⟨p, c, q, rfl, hfound, -⟩
  · rw [hex] at hs
    cases hs
  · rw [hfound] at hs
    cases hs
    -- the first page of all is in no region
    have hb := hig.isBlock (a := b) (by simp)
    obtain ⟨r, hr, h1, h2⟩ := hig.tiles.inside b hb
    have hlow := hig.low r hr
    have hpage := (hg.paged hp hgrants r hr).1
    have hle := hfits.2
    unfold extent headerSize at h2
    omega

/-- **The block that serves a request**: the first on the list that is large enough, or new pages. -/
theorem kmalloc_served (hi : HeapInv h B fl) (hp : Paged h) (hgrants : ∀ d ∈ grants, d % 4096 = 0)
    (hfresh : GrantsFresh grants h (alignSize n)) (he : kmalloc grants h n = .ok (ptr, h')) (hne : ptr ≠ 0) :
    (∃ p b q, fl = p ++ b :: q ∧ search h.mem (alignSize n) rounds 0 h.heapFreeList = .ok (.found (p.getLastD 0) b) ∧
      FirstFit h (alignSize n) b ∧ ptr = b + 24 ∧ h' = takeBlock h (p.getLastD 0) b (alignSize n)) ∨
    (search h.mem (alignSize n) rounds 0 h.heapFreeList = .ok .exhausted ∧ (∀ b, ¬ FirstFit h (alignSize n) b) ∧
      ∃ d rest, grants = d :: rest ∧ 0 < newPages (alignSize n) ∧ FreshPages h d (newPages (alignSize n)) ∧
        alignSize n ≤ newPages (alignSize n) * 4096 - 24 ∧ ptr = d + 24 ∧
        h' = takeBlock (grow h d (newPages (alignSize n))) 0 d (alignSize n)) := by
  rcases kmalloc_inv he with ⟨h0, -⟩ | ⟨-, prev, b, hs, hptr, hh'⟩ | ⟨-, hs, hpos, d, rest, rfl, hrest⟩
  · exact absurd h0 hne
  · left
    rcases search_spec hi (alignSize n) with ⟨hs', -⟩ | ⟨p, c, q, rfl, hs', hfit⟩
    · rw [hs] at hs'
      cases hs'
    · rw [hs] at hs'
      cases hs'
      have hb := hi.bounds (hi.isBlock (a := b) (by simp))
      exact ⟨p, b, q, rfl, hs, hfit, hptr.trans (wrap_of_lt (by unfold headerSize; omega)), hh'⟩
  · right
    have hno : ∀ b, ¬ FirstFit h (alignSize n) b := by
      rcases search_spec hi (alignSize n) with ⟨-, hno⟩ | ⟨p, c, q, -, hs', -⟩
      · exact hno
      · rw [hs] at hs'
        cases hs'
    have hfresh' := hfresh.1
    have hgrown := (hi.grow (Nat.pos_iff_ne_zero.mpr hpos) hfresh').1
    -- the request comes back with its size rounded, and is served by the new pages
    obtain ⟨g, prev, b, hg, hn, hfound, -⟩ := kmalloc_cases hrest hne
    rw [alignSize_idem] at hg hfound
    have hlt := hg.not_huge hgrown hfresh.2 (hp.grow (hgrants d List.mem_cons_self) _)
      (fun d hd => hgrants d (List.mem_cons_of_mem _ hd)) hfound
    have hnew := search_grow (h := h) (Nat.pos_iff_ne_zero.mp hfresh'.1) hlt
    have heq : kmalloc rest (grow h d (newPages (alignSize n))) (alignSize n) =
        .ok (wrap (d + headerSize), takeBlock (grow h d (newPages (alignSize n))) 0 d (alignSize (alignSize n))) := by
      apply kmalloc_of_found hn
      rw [alignSize_idem]
      exact hnew
    rw [hrest, alignSize_idem] at heq
    simp only [Except.ok.injEq, Prod.mk.injEq] at heq
    obtain ⟨rfl, rfl⟩ := heq
    have hd := hfresh'.2.1
    refine ⟨hs, hno, d, rest, rfl, Nat.pos_iff_ne_zero.mpr hpos, hfresh', ?_, wrap_of_lt (by unfold headerSize; omega), rfl⟩
    have hfits := (search_found (.inl rfl) (fun h0 => .head h0) hnew).2.2.2
    rwa [(hi.grow (Nat.pos_iff_ne_zero.mpr hpos) hfresh').2.2] at hfits

end InOrder

theorem kmalloc_blankHeap : ∃ h', kmalloc [] blankHeap.heap 100 = .ok (4120, h') ∧ sizeAt h'.mem 4096 = 112 := by
  have h : (kmalloc [] blankHeap.heap 100).toOption.map (fun out => (out.1, sizeAt out.2.mem 4096)) = some (4120, 112) := by
    decide +kernel
  obtain ⟨⟨ptr, h'⟩, he, hs⟩ := exists_ok_of_map h
  simp only [Prod.mk.injEq] at hs
  obtain ⟨rfl, hs⟩ := hs
  exact ⟨h', he, hs⟩

end AmqOs.Memory
