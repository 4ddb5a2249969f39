import AmqOs.Memory.HeapLimits

/-!
# Moving an allocation

`krealloc` allocates, copies and frees, and the walk of `coalesce_blocks` that `kfree` starts joins free blocks that are
neighbours in memory. It may put the free list in disorder (`FreeSafe` leaves such walks out), but it writes in the headers
of free blocks only: the walk goes from block to block through the regions that follow on the first one
(`Walking`), as long as no word behind them looks like a header (`NoStray`). So the block that `krealloc` returns keeps the
size that `kmalloc` gave it (`krealloc_move_size`).
-/

set_option autoImplicit false

namespace AmqOs.Memory

open AmqOs.Lib

/-! ## The walk -/

/-- The regions that follow one on the other from `start` on. -/
inductive Behind (rs : List Region) (start : Nat) : Region → Prop
  | first {r : Region} (hr : r ∈ rs) (he : r.start = start) : Behind rs start r
  | next {r r' : Region} (h : Behind rs start r) (hr' : r' ∈ rs) (he : r'.start = r.stop) : Behind rs start r'

theorem Behind.mem {rs : List Region} {start : Nat} {r : Region} (h : Behind rs start r) : r ∈ rs := by
  cases h with
  | first hr _ => exact hr
  | next _ hr' _ => exact hr'

/-- No region starts where the regions from `start` on end, unless the word there is no `HEAP_MAGIC`, or the walk is over. -/
def NoStrayAt (rs : List Region) (m : Mem) (start bound : Nat) : Prop :=
  ∀ r, Behind rs start r → r.stop < bound → magicAt m r.stop = heapMagic → ∃ r' ∈ rs, r'.start = r.stop

/-- An address that is not in the heap. -/
def Outside (h : Heap) (x : Nat) : Prop := ∀ r ∈ h.regions, x < r.start ∨ r.stop ≤ x

/-- Where the walk can be: at a block of one of these regions, or at the end of one. -/
def Place (h : Heap) (B : Nat → Prop) (c : Nat) : Prop :=
  ∃ r, Behind h.regions h.kernelHeapBase r ∧ (B c ∧ r.start ≤ c ∧ c < r.stop ∨ c = r.stop)

/-- The memory `m` when the walk over the heap `h` is at `c`: what it has written is in headers of free blocks up to `c`,
and the block at `c` has taken in whole blocks. -/
structure Walking (h : Heap) (B : Nat → Prop) (m : Mem) (c : Nat) : Prop where
  place : Place h B c
  later : ∀ a, B a → c < a → SameHeader h.mem m a
  live : ∀ a, B a → isFreeAt h.mem a = 0 → SameHeader h.mem m a
  outside : ∀ x, Outside h x → m x = h.mem x
  here : B c → magicAt m c = heapMagic ∧ isFreeAt m c = isFreeAt h.mem c ∧ c + 24 + sizeAt m c < 2 ^ 64 ∧
    Place h B (c + 24 + sizeAt m c)

section Walk

variable {h : Heap} {B : Nat → Prop} {fl : List Nat} {m m' : Mem} {bound c x : Nat}

/-- What is outside the heap is outside each block. -/
theorem HeapInv.outside_block (hi : HeapInv h B fl) (hc : B c) (hx : Outside h x) :
    x < c ∨ c + 24 + sizeAt h.mem c ≤ x := by
  obtain ⟨r, hr, h1, h2⟩ := hi.tiles.inside c hc
  have ho := hx r hr
  unfold extent headerSize at h2
  omega

/-- The header behind a region, when no other region starts there. -/
theorem HeapInv.outside_stop (hi : HeapInv h B fl) (hp : Paged h) {r : Region} (hr : r ∈ h.regions)
    (hno : ∀ r' ∈ h.regions, r'.start ≠ r.stop) (h1 : r.stop ≤ x) (h2 : x < r.stop + 24) : Outside h x := by
  intro r' hr'
  by_cases he : r' = r
  · subst he
    exact .inr h1
  · have hap := hi.tiles.regions r' hr' r hr he
    have hproper := hi.tiles.proper r hr
    have hne := hno r' hr'
    have hpage := (hp r' hr').1
    have hpage' := (hp r hr).2
    omega

theorem HeapInv.place_next (hi : HeapInv h B fl) (hc : B c) (hpl : Place h B c) :
    c + 24 + sizeAt h.mem c < 2 ^ 64 ∧ Place h B (c + 24 + sizeAt h.mem c) := by
  have hinside : ∃ r, Behind h.regions h.kernelHeapBase r ∧ r.start ≤ c ∧ c < r.stop := by
    obtain ⟨r, hr, ⟨-, h1, h2⟩ | rfl⟩ := hpl
    · exact ⟨r, hr, h1, h2⟩
    · -- a block at the end of a region is the first of the next
      obtain ⟨r', hr', h1, h2⟩ := hi.tiles.inside r.stop hc
      have hpos := hi.tiles.pos r.stop hc
      have hne : r' ≠ r := by
        rintro rfl
        omega
      have hap := hi.tiles.regions r' hr' r hr.mem hne
      have hproper := hi.tiles.proper r hr.mem
      exact ⟨r', .next hr hr' (by omega), h1, by omega⟩
  obtain ⟨r, hr, h1, h2⟩ := hinside
  have hlow := hi.low r hr.mem
  have hend : c + extent h.mem c = c + 24 + sizeAt h.mem c := by
    unfold extent headerSize
    omega
  have hwithin := hi.tiles.within hc hr.mem h1 h2
  rw [hend] at hwithin
  refine ⟨by omega, r, hr, ?_⟩
  by_cases hstop : c + 24 + sizeAt h.mem c = r.stop
  · exact .inr hstop
  · have hnext := (hi.tiles.next c hc r hr.mem h1 h2).resolve_left (by omega)
    rw [hend] at hnext
    exact .inl ⟨hnext, by omega, by omega⟩

/-- The walk starts at the first block. -/
theorem HeapInv.walking (hi : HeapInv h B fl) : Walking h B h.mem h.kernelHeapBase := by
  obtain ⟨r, hr, he⟩ := hi.base
  have hB : B h.kernelHeapBase := he ▸ hi.tiles.first r hr
  have hpl : Place h B h.kernelHeapBase := ⟨r, .first hr he, .inl ⟨hB, by omega, he ▸ hi.tiles.proper r hr⟩⟩
  exact ⟨hpl, fun _ _ _ _ _ _ => rfl, fun _ _ _ _ _ _ => rfl, fun _ _ => rfl,
    fun hb => ⟨hi.magic _ hb, rfl, hi.place_next hb hpl⟩⟩

namespace Walking

theorem endOf_eq (hw : Walking h B m c) (hc : B c) : endOf m c = c + 24 + sizeAt m c := by
  obtain ⟨-, -, hlt, -⟩ := hw.here hc
  exact wrap_of_lt hlt

/-- Behind the last block there is no header. -/
theorem isBlock (hw : Walking h B m c) (hi : HeapInv h B fl) (hp : Paged h)
    (hstray : NoStrayAt h.regions h.mem h.kernelHeapBase bound) (hlt : c < bound) (hm : magicAt m c = heapMagic) : B c := by
  obtain ⟨r, hr, ⟨hB, -⟩ | rfl⟩ := hw.place
  · exact hB
  · by_contra hnot
    have hno : ∀ r' ∈ h.regions, r'.start ≠ r.stop := by
      intro r' hr' he
      exact hnot (he ▸ hi.tiles.first r' hr')
    have hsame : magicAt m r.stop = magicAt h.mem r.stop :=
      Mem.loadLE_congr fun x h1 h2 => hw.outside x (hi.outside_stop hp hr.mem hno (by omega) (by omega))
    obtain ⟨r', hr', he⟩ := hstray r hr hlt (hsame ▸ hm)
    exact hno r' hr' he

/-- **The walk goes on** to the next block. -/
theorem next (hw : Walking h B m c) (hi : HeapInv h B fl) (hc : B c) : Walking h B m (endOf m c) := by
  obtain ⟨-, -, -, hpl⟩ := hw.here hc
  rw [hw.endOf_eq hc]
  refine ⟨hpl, fun a ha hlt => hw.later a ha (by omega), hw.live, hw.outside, fun he => ?_⟩
  have hsame := hw.later _ he (by omega)
  have hnext := hi.place_next he hpl
  rw [← hsame.size] at hnext
  exact ⟨hsame.magic.trans (hi.magic _ he), hsame.isFree, hnext⟩

/-- **The walk joins** a free block with the block behind it. -/
theorem join (hw : Walking h B m c) (hi : HeapInv h B fl) (hc : B c) (hfree : isFreeAt m c ≠ 0) (he : B (endOf m c))
    (hm : m' = setNext (setSize m c (wrap (sizeAt m c + (headerSize + sizeAt m (endOf m c))))) c
      (nextAt (setSize m c (wrap (sizeAt m c + (headerSize + sizeAt m (endOf m c))))) (endOf m c))) :
    Walking h B m' c := by
  have hend := hw.endOf_eq hc
  have hsame := hw.later _ he (by omega)
  obtain ⟨hmagic, hflag, -, hpl⟩ := hw.here hc
  obtain ⟨hlt, hplace⟩ := hi.place_next he (hend ▸ hpl)
  rw [← hsame.size, hend] at hlt hplace
  have hsum : sizeAt m c + (headerSize + sizeAt m (endOf m c)) < 2 ^ 64 := by
    rw [hend]
    unfold headerSize
    omega
  have hout : ∀ y, y < c ∨ c + 24 ≤ y → m' y = m y := by
    intro y hy
    rw [hm, setNext_out hy, setSize_out hy]
  have hother : ∀ a, B a → a ≠ c → SameHeader m m' a := by
    intro a ha hne y h1 h2
    have hap := hi.sep a c ha hc hne
    exact hout y (by omega)
  have hsize : sizeAt m' c = sizeAt m c + (headerSize + sizeAt m (endOf m c)) := by
    rw [hm, sizeAt_setNext, wrap_of_lt hsum, sizeAt_setSize hsum]
  have hmagic' : magicAt m' c = magicAt m c := by
    rw [hm]
    exact (Mem.loadLE_storeLE_out (by omega)).trans (Mem.loadLE_storeLE_out (by omega))
  have hflag' : isFreeAt m' c = isFreeAt m c := by
    rw [hm]
    exact (Mem.loadLE_storeLE_out (by omega)).trans (Mem.loadLE_storeLE_out (by omega))
  constructor
  · exact hw.place
  · intro a ha hlt' y h1 h2
    rw [hother a ha (by omega) y h1 h2, hw.later a ha hlt' y h1 h2]
  · intro a ha h0 y h1 h2
    have hne : a ≠ c := by
      rintro rfl
      exact hfree (hflag.trans h0)
    rw [hother a ha hne y h1 h2, hw.live a ha h0 y h1 h2]
  · intro y hy
    have ho := hi.outside_block hc hy
    rw [hout y (by omega), hw.outside y hy]
  · intro _
    have hplaceEq : c + 24 + sizeAt m' c = c + 24 + sizeAt m c + 24 + sizeAt m (c + 24 + sizeAt m c) := by
      rw [hsize, hend]
      unfold headerSize
      omega
    rw [hplaceEq]
    exact ⟨hmagic'.trans hmagic, hflag'.trans hflag, hlt, hplace⟩

end Walking

/-- **The walk of `coalesce_blocks`** leaves the headers of allocated blocks as they are, whatever it joins. -/
theorem HeapInv.coalesceLoop_live (hi : HeapInv h B fl) (hp : Paged h)
    (hstray : NoStrayAt h.regions h.mem h.kernelHeapBase bound) {fuel : Nat} (hw : Walking h B m c)
    (he : coalesceLoop bound fuel m c = .ok m') {a : Nat} (ha : B a) (h0 : isFreeAt h.mem a = 0) :
    SameHeader h.mem m' a := by
  induction fuel generalizing m c with
  | zero => cases he
  | succ fuel ih =>
    unfold coalesceLoop at he
    by_cases hlt : c < bound
    · rw [if_pos hlt] at he
      by_cases hm : magicAt m c = heapMagic
      · rw [if_neg (not_not_intro hm)] at he
        have hc := hw.isBlock hi hp hstray hlt hm
        by_cases hjoin : isFreeAt m c ≠ 0 ∧ endOf m c < bound ∧ magicAt m (endOf m c) = heapMagic ∧
            isFreeAt m (endOf m c) ≠ 0
        · simp only [if_pos hjoin] at he
          obtain ⟨hfree, hlt', hm', -⟩ := hjoin
          exact ih (hw.join hi hc hfree ((hw.next hi hc).isBlock hi hp hstray hlt' hm') rfl) he
        · simp only [if_neg hjoin] at he
          exact ih (hw.next hi hc) he
      · rw [if_pos hm] at he
        cases he
        exact hw.live a ha h0
    · rw [if_neg hlt] at he
      cases he
      exact hw.live a ha h0

end Walk

/-! ## What allocating leaves -/

section Leaving

variable {h h' : Heap} {B : Nat → Prop} {fl grants p q : List Nat} {b n ptr size x : Nat}

@[simp] theorem takeBlock_regions {prev : Nat} : (takeBlock h prev b size).regions = h.regions := by
  unfold takeBlock
  simp only
  split_ifs <;> rfl

@[simp] theorem takeBlock_base {prev : Nat} : (takeBlock h prev b size).kernelHeapBase = h.kernelHeapBase := by
  unfold takeBlock
  simp only
  split_ifs <;> rfl

/-- Cutting a block writes in this block. -/
theorem splitBlock_out {m : Mem} (hlt : b + 24 + sizeAt m b < 2 ^ 64) (hroom : size + 24 ≤ sizeAt m b)
    (hx : x < b ∨ b + 24 + sizeAt m b ≤ x) : splitBlock m b size x = m x := by
  have hnew : wrap (b + headerSize + size) = b + 24 + size := wrap_of_lt (by unfold headerSize; omega)
  unfold splitBlock
  rw [hnew]
  simp only
  split_ifs
  · rw [setNext_out (by omega), setSize_out (by omega), setMagic_out (by omega), setIsFree_out (by omega),
      setNext_out (by omega), setSize_out (by omega)]
  · rfl

/-- Taking a block writes in blocks. -/
theorem HeapInv.takeBlock_outside (hi : HeapInv h B (p ++ b :: q)) (hroom : size + 24 ≤ sizeAt h.mem b)
    (hx : Outside h x) : (takeBlock h (p.getLastD 0) b size).mem x = h.mem x := by
  have hb : B b := hi.isBlock (by simp)
  have ho := hi.outside_block hb hx
  have hbd := hi.bounds hb
  have hcut : setIsFree (splitBlock h.mem b size) b 0 x = h.mem x := by
    rw [setIsFree_out (by omega), splitBlock_out hbd.2 hroom ho]
  unfold takeBlock
  simp only
  split_ifs with hprev
  · rcases List.eq_nil_or_concat' p with rfl | ⟨p, c, rfl⟩
    · exact absurd rfl hprev
    · have hc := hi.outside_block (hi.isBlock (a := c) (by simp)) hx
      show setNext _ _ _ x = _
      rw [List.getLastD_concat, setNext_out (by omega), hcut]
  · exact hcut

/-- The regions after a request of `n` bytes that is served. -/
def movedRegions (h : Heap) (grants : List Nat) (n : Nat) : List Region :=
  match search h.mem (alignSize n) rounds 0 h.heapFreeList, grants with
  | .ok .exhausted, newMem :: _ => ⟨newMem, newMem + newPages (alignSize n) * 4096⟩ :: h.regions
  | _, _ => h.regions

/-- **What a request that is served leaves** as it was. -/
theorem kmalloc_leaves (hi : HeapInv h B fl) (hp : Paged h) (hgrants : ∀ d ∈ grants, d % 4096 = 0)
    (hfresh : GrantsFresh grants h (alignSize n)) (hsafe : KmallocSafe h grants n)
    (he : kmalloc grants h n = .ok (ptr, h')) (hne : ptr ≠ 0) :
    h'.regions = movedRegions h grants n ∧ h'.kernelHeapBase = h.kernelHeapBase ∧ Paged h' ∧
      ∀ x, Outside h' x → h'.mem x = h.mem x := by
  have hn : n ≠ 0 := by
    rintro rfl
    have heq : kmalloc grants h 0 = .ok (0, h) := by
      unfold kmalloc
      rfl
    rw [he] at heq
    simp only [Except.ok.injEq, Prod.mk.injEq] at heq
    exact hne heq.1
  unfold movedRegions
  rcases kmalloc_served hi hp hgrants hfresh he hne with
    ⟨p, b, q, rfl, hs, hfit, -, rfl⟩ | ⟨hs, hno, d, rest, rfl, hpos, hnew, hle, -, rfl⟩
  · have hroom := (hsafe hn).1 b hfit
    rw [hs]
    refine ⟨takeBlock_regions, takeBlock_base, ?_, fun x hx => ?_⟩
    · simpa [Paged] using hp
    · refine hi.takeBlock_outside hroom ?_
      simpa [Outside] using hx
  · have hroom := (hsafe hn).2 hno (List.cons_ne_nil _ _) hle
    obtain ⟨hinv, -, hsize⟩ := hi.grow hpos hnew
    rw [hs]
    refine ⟨takeBlock_regions, takeBlock_base, ?_, fun x hx => ?_⟩
    · have hgrown := hp.grow (hgrants d List.mem_cons_self) (newPages (alignSize n))
      simpa [Paged] using hgrown
    · have hx' : Outside (grow h d (newPages (alignSize n))) x := by simpa [Outside] using hx
      have hd : x < d ∨ d + newPages (alignSize n) * 4096 ≤ x :=
        hx' ⟨d, d + newPages (alignSize n) * 4096⟩ List.mem_cons_self
      have htake := hinv.takeBlock_outside (p := []) (b := d) (by rw [hsize]; exact hroom) hx'
      rw [List.getLastD_nil] at htake
      rw [htake]
      show setHeader _ _ _ _ x = _
      rw [setHeader_out (by omega), Mem.store_out hd]

end Leaving

/-! ## `krealloc` -/

/-- `kernel_heap_base + kernel_heap_used` when `krealloc` has moved the allocation of block `b` and counted it off. -/
def movedBound (h : Heap) (b n : Nat) : Nat :=
  wrap (h.kernelHeapBase + minus (wrap (h.kernelHeapUsed + headerSize + alignSize n)) (headerSize + sizeAt h.mem b))

/-- No word behind the regions that follow on the first one, and below the end of the walk, looks like a header. -/
def NoStray (h : Heap) (grants : List Nat) (b n : Nat) : Prop :=
  NoStrayAt (movedRegions h grants n) h.mem h.kernelHeapBase (movedBound h b n)

section Moving

variable {grants fl : List Nat} {h h' : Heap} {B : Nat → Prop} {n ptr newPtr b : Nat}

/-- The walk of `kfree` leaves the other allocated blocks as they are. -/
theorem HeapInv.kfree_live (hi : HeapInv h B fl) (hp : Paged h) (hb : B b) (h0 : isFreeAt h.mem b = 0)
    (hstray : NoStrayAt h.regions h.mem h.kernelHeapBase (pushFree h b).bound) (he : kfree h (b + 24) = .ok h') {c : Nat}
    (hc : B c) (hc0 : isFreeAt h.mem c = 0) (hcb : c ≠ b) : sizeAt h'.mem c = sizeAt h.mem c := by
  obtain ⟨hpush, hkept⟩ := hi.push hb h0
  obtain ⟨-, hfree, hsize⟩ := hkept c ⟨hc, hcb⟩ hc0
  have hout : ∀ x, x < b ∨ b + 24 ≤ x → (pushFree h b).mem x = h.mem x := fun x hx =>
    (setNext_out hx).trans (setIsFree_out hx)
  unfold kfree at he
  rw [if_neg (by omega), hi.block_eq hb, if_neg (not_not_intro (hi.magic b hb)), if_neg (not_not_intro h0)] at he
  unfold coalesceBlocks at he
  cases hco : coalesceLoop (pushFree h b).bound rounds (pushFree h b).mem (pushFree h b).kernelHeapBase with
  | error e => simp [hco] at he
  | ok mem =>
    simp only [hco, ok_bind, Except.ok.injEq] at he
    rw [← he, ← hsize]
    refine (hpush.coalesceLoop_live hp ?_ hpush.walking hco hc hfree).size
    -- the word behind a region is not in the block that is freed
    intro r hr hlt hm
    by_contra hno
    have hno' : ∀ r' ∈ h.regions, r'.start ≠ r.stop := fun r' hr' he' => hno ⟨r', hr', he'⟩
    have hsame : magicAt (pushFree h b).mem r.stop = magicAt h.mem r.stop :=
      Mem.loadLE_congr fun x h1 h2 => hout x <| by
        have ho := hi.outside_block hb (hi.outside_stop hp hr.mem hno' (x := x) (by omega) (by omega))
        omega
    exact hno (hstray r hr hlt (hsame ▸ hm))

/-- **`krealloc` that moves an allocation**: the block has the size asked for. -/
theorem krealloc_move_size (hi : HeapInv h B fl) (hp : Paged h) (hgrants : ∀ d ∈ grants, d % 4096 = 0) (hb : B b)
    (h0 : isFreeAt h.mem b = 0) (hfresh : GrantsFresh grants h (alignSize n)) (hsafe : KmallocSafe h grants n)
    (hn : n + 15 < 2 ^ 64) (hstray : NoStray h grants b n) (hlt : sizeAt h.mem b < n)
    (he : krealloc grants h (b + 24) n = .ok (newPtr, h')) (hne : newPtr ≠ 0) :
    n ≤ sizeAt h'.mem (minus newPtr headerSize) := by
  have hblock := hi.block_eq hb
  rw [krealloc, if_neg (by omega), if_neg (by omega), hblock, if_neg (not_not_intro (hi.magic b hb)),
    if_neg (by omega)] at he
  obtain ⟨ptr, h₁, B', fl', hk, hi₁, hkept, hserved, -⟩ := kmalloc_spec hi hsafe hfresh
  simp only [hk, ok_bind] at he
  by_cases hptr : ptr = 0
  · rw [if_pos hptr] at he
    simp only [Except.ok.injEq, Prod.mk.injEq] at he
    exact absurd he.1.symm hne
  · rw [if_neg hptr] at he
    obtain ⟨hregions, hbase, hp₁, houtside⟩ := kmalloc_leaves hi hp hgrants hfresh hsafe hk hptr
    obtain ⟨c, rfl, hc, hc0, hcs, hnew⟩ := hserved.resolve_left hptr
    obtain ⟨hb', hb0, hbs⟩ := hkept b hb h0
    have hcb : c ≠ b := by
      rintro rfl
      exact hnew ⟨hb, h0⟩
    have hal := le_alignSize hn
    obtain ⟨m, hcopy, hi₂, hkept₂, hm⟩ := hi₁.copy hb' hc hcb (by omega)
    obtain ⟨-, hb0₂, hbs₂⟩ := hkept₂ b hb' hb0
    obtain ⟨-, hc0₂, hcs₂⟩ := hkept₂ c hc hc0
    simp only [hcopy, ok_bind] at he
    cases hf : kfree { h₁ with mem := m } (b + 24) with
    | error e => simp [hf] at he
    | ok h₂ =>
      simp only [hf, ok_bind, Except.ok.injEq, Prod.mk.injEq] at he
      obtain ⟨rfl, rfl⟩ := he
      rw [hi₁.block_eq hc]
      have hlive : sizeAt h₂.mem c = sizeAt m c := by
        refine hi₂.kfree_live hp₁ hb' hb0₂ ?_ hf hc hc0₂ hcb
        -- what is behind the regions is as it was before the call
        have hbound : (pushFree { h₁ with mem := m } b).bound = movedBound h b n := by
          have hused := kmalloc_used hk hptr
          have hsize : sizeAt m b = sizeAt h.mem b := hbs₂.trans hbs
          simp only [Heap.bound, pushFree, movedBound, hused, hbase, hsize]
        rw [hbound]
        intro r hr hlt' hmagic
        by_contra hno
        have hno' : ∀ r' ∈ h₁.regions, r'.start ≠ r.stop := fun r' hr' he' => hno ⟨r', hr', he'⟩
        have hsame : magicAt m r.stop = magicAt h.mem r.stop :=
          Mem.loadLE_congr fun x h1 h2 => by
            have hx := hi₁.outside_stop hp₁ hr.mem hno' (x := x) (by omega) (by omega)
            have ho := hi₁.outside_block hc hx
            rw [hm x (by omega), houtside x hx]
        rw [hregions, hbase] at hr
        obtain ⟨r', hr', he'⟩ := hstray r hr hlt' (hsame ▸ hmagic)
        exact hno ⟨r', hregions ▸ hr', he'⟩
      rw [hlive, hcs₂]
      omega

theorem krealloc_null (he : krealloc grants h 0 n = .ok (ptr, h')) : kmalloc grants h n = .ok (ptr, h') := by
  rwa [krealloc, if_pos rfl] at he

/-- `krealloc` of a block that is large enough, in any heap. -/
theorem krealloc_resize (hptr : ptr ≠ 0) (hn : n ≠ 0) (hle : n ≤ sizeAt h.mem (minus ptr headerSize))
    (he : krealloc grants h ptr n = .ok (newPtr, h')) (hne : newPtr ≠ 0) :
    n ≤ sizeAt h'.mem (minus newPtr headerSize) := by
  rw [krealloc, if_neg hptr, if_neg hn] at he
  simp only [if_pos hle] at he
  split_ifs at he
  · simp only [Except.ok.injEq, Prod.mk.injEq] at he
    exact absurd he.1.symm hne
  · simp only [Except.ok.injEq, Prod.mk.injEq] at he
    obtain ⟨rfl, rfl⟩ := he
    exact hle

end Moving

/-- Four allocations, of which the second and the fourth are freed. -/
def gapOps : List HeapOp :=
  [.kmalloc [] 100, .kmalloc [] 100, .kmalloc [] 100, .kmalloc [] 100, .kfree 4256, .kfree 4528]

theorem gapOps_checked :
    Along heapStep (fun s op => (∃ B fl, HeapInv s.heap B fl) ∧ checkCall s op = true) blankHeap gapOps :=
  along_of_checkCalls (initHeapState_inv (by decide) (by decide)) (by decide +kernel)

end AmqOs.Memory
