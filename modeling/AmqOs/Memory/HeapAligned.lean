import AmqOs.Memory.HeapMoves

/-!
# Addresses of allocations

Regions are made of whole pages, sizes are rounded to multiples of 16, and a header has 24 bytes. So every block of the heap
lies at a multiple of 8 after every run (`Grid`, kept by cutting, growing and joining), and the address of a block modulo 16
depends on how many of the blocks before it in its region have a stored size that is a multiple of 16 (`header_mod`).

`kmalloc_aligned_iff`: the address that `kmalloc` returns is a multiple of 16 exactly when the first block of the list that
is large enough has an odd number of such blocks before it. New pages that are made for the request never give one.
-/

set_option autoImplicit false

namespace AmqOs.Memory

open AmqOs.Lib

/-! ## Blocks and addresses -/

/-- `l` are the blocks before the block `b` in its region. -/
def Before (h : Heap) (b : Nat) (l : List Nat) : Prop :=
  ∃ r ∈ h.regions, b < r.stop ∧ ChainTo (fun a => some (a + extent h.mem a)) b r.start l

/-- An odd number of the blocks before `b` in its region have a stored size that is a multiple of 16. -/
def OddBefore (h : Heap) (b : Nat) : Prop :=
  ∃ l, Before h b l ∧ Odd (l.countP fun a => sizeAt h.mem a % 16 = 0)

/-- All headers are at multiples of 8. -/
def Grid (h : Heap) : Prop := ∀ b, Header h b → b % 8 = 0

section Addresses

variable {h : Heap} {B : Nat → Prop} {fl l : List Nat} {m : Mem} {a b : Nat}

/-- Each step goes on by 24 bytes and the stored size. -/
theorem chain_mod (hc : ChainTo (fun a => some (a + extent m a)) b a l) (hl : ∀ x ∈ l, x % 8 = 0) (hb : b % 8 = 0) :
    b % 16 = (a + 8 * l.countP fun x => sizeAt m x % 16 = 0) % 16 := by
  induction hc with
  | nil => rfl
  | @cons a c l hne hn hrest ih =>
    obtain rfl : a + extent m a = c := Option.some.inj hn
    have ha : a % 8 = 0 := hl a List.mem_cons_self
    have hl' : ∀ x ∈ l, x % 8 = 0 := fun x hx => hl x (List.mem_cons_of_mem _ hx)
    have hc : (a + extent m a) % 8 = 0 := by
      by_cases he : a + extent m a = b
      · rw [he]
        exact hb
      · exact hl' _ (hrest.head_mem he)
    have hmod := ih hl'
    rw [List.countP_cons, hmod]
    unfold extent headerSize at hc ⊢
    by_cases hs : sizeAt m a % 16 = 0
    · simp only [hs, decide_true, if_true]
      omega
    · simp only [hs, decide_false, Bool.false_eq_true, if_false]
      omega

/-- **The address of a block** modulo 16. -/
theorem HeapInv.header_mod (hi : HeapInv h B fl) (hp : Paged h) (hg : Grid h) (hb : B b) :
    b % 16 = 8 ↔ OddBefore h b := by
  have hgrid : ∀ x, B x → x % 8 = 0 := fun x hx => hg x ((hi.header_iff x).mpr hx)
  obtain ⟨r, hr, h1, h2⟩ := hi.tiles.inside b hb
  have hpos := hi.tiles.pos b hb
  obtain ⟨l, hl, hB⟩ := hi.tiles.chain_before hr hb h1 (by omega)
  have hmod := chain_mod hl (fun x hx => hgrid x (hB x hx)) (hgrid b hb)
  have hpage := (hp r hr).1
  have hodd : b % 16 = 8 ↔ Odd (l.countP fun x => sizeAt h.mem x % 16 = 0) := by
    rw [Nat.odd_iff]
    omega
  rw [hodd]
  constructor
  · exact fun ho => ⟨l, ⟨r, hr, by omega, hl⟩, ho⟩
  · rintro ⟨l', ⟨r', hr', hlt, hl'⟩, ho⟩
    -- a block has one region, and the steps to it are determined
    have hle := Tiles.le_of_chain hl'
    obtain rfl := hi.tiles.region_unique hr hr' h1 (by omega) hle hlt
    rwa [hl.unique hl']

end Addresses

/-! ## The calls keep the grid -/

section Calls

variable {h h' : Heap} {B : Nat → Prop} {fl grants : List Nat} {b n ptr : Nat} {mem : Mem}

theorem kmalloc_paged (hp : Paged h) (hgrants : ∀ d ∈ grants, d % 4096 = 0) (he : kmalloc grants h n = .ok (ptr, h')) :
    Paged h' := by
  induction grants generalizing h n with
  | nil =>
    rcases kmalloc_inv he with ⟨-, rfl⟩ | ⟨-, prev, b, -, -, rfl⟩ | ⟨-, -, -, d, rest, hnil, -⟩
    · exact hp
    · simpa [Paged] using hp
    · cases hnil
  | cons d grants ih =>
    rcases kmalloc_inv he with ⟨-, rfl⟩ | ⟨-, prev, b, -, -, rfl⟩ | ⟨-, -, -, d', rest, hcons, hrest⟩
    · exact hp
    · simpa [Paged] using hp
    · cases hcons
      exact ih (hp.grow (hgrants d List.mem_cons_self) _) (fun d hd => hgrants d (List.mem_cons_of_mem _ hd)) hrest

theorem pushFree_regions (h : Heap) (block : Nat) : (pushFree h block).regions = h.regions := by
  unfold pushFree
  rfl

theorem coalesceBlocks_regions (he : coalesceBlocks h = .ok h') : h'.regions = h.regions := by
  obtain ⟨mem, -, he⟩ := bind_eq_ok.mp he
  cases he
  rfl

theorem kfree_regions (he : kfree h ptr = .ok h') : h'.regions = h.regions := by
  simp only [kfree] at he
  generalize minus ptr headerSize = block at he
  split_ifs at he
  · rw [Except.ok.inj he]
  · rw [Except.ok.inj he]
  · rw [Except.ok.inj he]
  · exact (coalesceBlocks_regions he).trans (pushFree_regions h block)

/-- Cutting at a rounded size stays on the grid, and so do new pages. -/
theorem kmalloc_grid (hi : HeapInv h B fl) (hsafe : KmallocSafe h grants n) (hfresh : GrantsFresh grants h (alignSize n))
    (hgrants : ∀ d ∈ grants, d % 4096 = 0) (hg : Grid h) (he : kmalloc grants h n = .ok (ptr, h')) : Grid h' := by
  obtain ⟨ptr', h₁, B', fl', he', hi', -, -, -, hcut⟩ := kmalloc_spec hi hsafe hfresh
  cases he.symm.trans he'
  have hsize : alignSize n % 16 = 0 := by
    unfold alignSize
    omega
  have hold : ∀ a, B a ∨ a ∈ grants → a % 8 = 0 := by
    rintro a (ha | ha)
    · exact hg a ((hi.header_iff a).mpr ha)
    · have hpage := hgrants a ha
      omega
  intro a ha
  rcases hcut a ((hi'.header_iff a).mp ha) with ha | ⟨b, hb, rfl⟩
  · exact hold a ha
  · have hb8 := hold b hb
    omega

/-- Joining takes headers away. -/
theorem kfree_grid (hi : HeapInv h B fl) (hb : B b) (h0 : isFreeAt h.mem b = 0) (hsafe : FreeSafe h (b + 24))
    (hg : Grid h) (he : kfree h (b + 24) = .ok h') : Grid h' := by
  obtain ⟨h₁, B', fl', he', hi', -, hsub⟩ := kfree_spec hi hb h0 hsafe
  cases he.symm.trans he'
  exact fun a ha => hg a ((hi.header_iff a).mpr (hsub a ((hi'.header_iff a).mp ha)))

/-- Writing in payloads changes no header. -/
theorem Grid.of_inv (hg : Grid h) (hi : HeapInv h B fl) (hi' : HeapInv { h with mem } B fl) : Grid { h with mem } :=
  fun a ha => hg a ((hi.header_iff a).mpr ((hi'.header_iff a).mp ha))

end Calls

/-! ## Runs -/

/-- `pmm_alloc_pages` answers with the addresses of pages. -/
def GrantsPaged : HeapOp → Prop
  | .kmalloc grants _ => ∀ d ∈ grants, d % 4096 = 0
  | .kcalloc grants _ _ => ∀ d ∈ grants, d % 4096 = 0
  | .krealloc grants _ _ => ∀ d ∈ grants, d % 4096 = 0
  | .kfree _ => True

/-- The heap is in order, its regions are whole pages and its blocks on the grid. -/
structure AlignInv (s : HeapState) : Prop where
  live : ∃ B fl, LiveInv False s B fl
  paged : Paged s.heap
  grid : Grid s.heap

section Runs

variable {s s' : HeapState} {op : HeapOp} {B : Nat → Prop} {fl grants : List Nat} {n ptr : Nat} {h' : Heap}

theorem AlignInv.kmalloc (hi : AlignInv s) (hsafe : KmallocSafe s.heap grants n)
    (hfresh : GrantsFresh grants s.heap (alignSize n)) (hgrants : ∀ d ∈ grants, d % 4096 = 0)
    (he : kmalloc grants s.heap n = .ok (ptr, h')) : Paged h' ∧ Grid h' := by
  obtain ⟨B, fl, hl⟩ := hi.live
  exact ⟨kmalloc_paged hi.paged hgrants he, kmalloc_grid hl.heap hsafe hfresh hgrants hi.grid he⟩

theorem AlignInv.kfree (hi : AlignInv s) (hl : Live s ptr) (hsafe : FreeSafe s.heap ptr)
    (he : kfree s.heap ptr = .ok h') : Paged h' ∧ Grid h' := by
  obtain ⟨B, fl, hlive⟩ := hi.live
  obtain ⟨b, rfl, hb, h0⟩ := hlive.of_live hl
  refine ⟨?_, kfree_grid hlive.heap hb h0 hsafe hi.grid he⟩
  have hp := hi.paged
  unfold Paged at hp ⊢
  rwa [kfree_regions he]

theorem AlignInv.kcalloc {num size : Nat} (hi : AlignInv s) (hsafe : KmallocSafe s.heap grants (wrap (num * size)))
    (hclear : FitsSize s.heap grants (wrap (num * size)))
    (hfresh : GrantsFresh grants s.heap (alignSize (wrap (num * size)))) (hgrants : ∀ d ∈ grants, d % 4096 = 0)
    (he : kcalloc grants s.heap num size = .ok (ptr, h')) : Paged h' ∧ Grid h' := by
  obtain ⟨B, fl, hl⟩ := hi.live
  unfold Memory.kcalloc at he
  obtain ⟨⟨ptr', h₁⟩, hk, hrest⟩ := bind_eq_ok.mp he
  obtain ⟨hp₁, hg₁⟩ := hi.kmalloc hsafe hfresh hgrants hk
  simp only [Except.ok.injEq, Prod.mk.injEq] at hrest
  obtain ⟨rfl, rfl⟩ := hrest
  split_ifs with hne
  · obtain ⟨ptr₂, h₂, B', fl', hk', hi', -, hserved, hrefused, -⟩ := kmalloc_spec hl.heap hsafe hfresh
    cases hk.symm.trans hk'
    obtain ⟨hinv, -⟩ := LiveInv.cleared hi' hserved hclear hrefused hne
    exact ⟨hp₁, hg₁.of_inv hi' hinv⟩
  · exact ⟨hp₁, hg₁⟩

/-- `krealloc` that moves the allocation. -/
theorem AlignInv.move (hi : AlignInv s) (hl : Live s ptr) (hfresh : GrantsFresh grants s.heap (alignSize n))
    (hgrants : ∀ d ∈ grants, d % 4096 = 0) (hsafe : MoveSafe s.heap grants ptr n)
    (hn : sizeAt s.heap.mem (minus ptr headerSize) < n) {newPtr : Nat}
    (he : krealloc grants s.heap ptr n = .ok (newPtr, h')) : Paged h' ∧ Grid h' := by
  obtain ⟨B, fl, hlive⟩ := hi.live
  obtain ⟨hroom, hfit, hfree⟩ := hsafe
  rw [hlive.krealloc_eq hl hn] at he
  obtain ⟨⟨ptr', h₁⟩, hk, hrest⟩ := bind_eq_ok.mp he
  obtain ⟨hp₁, hg₁⟩ := hi.kmalloc hroom hfresh hgrants hk
  by_cases hne : ptr' = 0
  · simp only [if_pos hne, Except.ok.injEq, Prod.mk.injEq] at hrest
    obtain ⟨-, rfl⟩ := hrest
    exact ⟨hp₁, hg₁⟩
  · simp only [if_neg hne] at hrest
    obtain ⟨mem, hcopy, hrest⟩ := bind_eq_ok.mp hrest
    obtain ⟨h₂, hfreed, hrest⟩ := bind_eq_ok.mp hrest
    simp only [Except.ok.injEq, Prod.mk.injEq] at hrest
    obtain ⟨-, rfl⟩ := hrest
    obtain ⟨ptr₂, h₃, B', fl', hk', hi', hserved, hkept, hrefused⟩ :=
      hlive.kmalloc (n := n) hroom hfresh False.elim
    cases hk.symm.trans hk'
    obtain ⟨mem', hcopy', hi₁, -, hlive₁⟩ := hlive.copied hl hfit hn hi' hserved hkept hrefused hne
    cases hcopy.symm.trans hcopy'
    have hgrid : Grid { h₁ with mem } := fun a ha => hg₁ a ((hi'.heap.header_iff a).mpr ((hi₁.heap.header_iff a).mp ha))
    have halign : AlignInv ⟨{ h₁ with mem }, acquire s.live ptr' n⟩ := ⟨⟨B', fl', hi₁⟩, hp₁, hgrid⟩
    exact halign.kfree hlive₁ (hfree _ _ _ hk hne hcopy) hfreed

/-- **One call.** -/
theorem AlignInv.step (hi : AlignInv s) (hallowed : Allowed s op) (hsafe : HeapSafe s op) (hgrants : GrantsPaged op) :
    ∃ r s', heapStep s op = .ok (r, s') ∧ AlignInv s' := by
  obtain ⟨B, fl, hl⟩ := hi.live
  obtain ⟨r, s', B', fl', he, hl'⟩ := heapStep_inv hl hallowed hsafe False.elim
  suffices hkept : Paged s'.heap ∧ Grid s'.heap from ⟨r, s', he, ⟨B', fl', hl'⟩, hkept.1, hkept.2⟩
  cases op with
  | kmalloc grants size =>
    obtain ⟨⟨ptr, h'⟩, hk, hrest⟩ := bind_eq_ok.mp he
    cases hrest
    exact hi.kmalloc hsafe hallowed hgrants hk
  | kcalloc grants num size =>
    obtain ⟨⟨ptr, h'⟩, hk, hrest⟩ := bind_eq_ok.mp he
    cases hrest
    exact hi.kcalloc hsafe.1 hsafe.2 hallowed hgrants hk
  | kfree ptr =>
    obtain ⟨h', hk, hrest⟩ := bind_eq_ok.mp he
    cases hrest
    by_cases hp : ptr = 0
    · subst hp
      have hsame : Memory.kfree s.heap 0 = .ok s.heap := by simp [Memory.kfree]
      cases hsame.symm.trans hk
      exact ⟨hi.paged, hi.grid⟩
    · exact hi.kfree (hallowed.resolve_left hp) (hsafe hp) hk
  | krealloc grants ptr newSize =>
    obtain ⟨⟨newPtr, h'⟩, hk, hrest⟩ := bind_eq_ok.mp he
    cases hrest
    obtain ⟨hptr, hfresh⟩ := hallowed
    by_cases hp : ptr = 0
    · subst hp
      exact hi.kmalloc hsafe hfresh hgrants (krealloc_null hk)
    · have hlive := hptr.resolve_left hp
      simp only [HeapSafe, if_neg hp] at hsafe
      by_cases hn : newSize.toNat = 0
      · rw [if_pos hn] at hsafe
        rw [krealloc, if_neg hp, if_pos hn] at hk
        obtain ⟨h₁, hfreed, hrest⟩ := bind_eq_ok.mp hk
        cases hrest
        exact hi.kfree hlive hsafe hfreed
      · rw [if_neg hn] at hsafe
        by_cases hlt : sizeAt s.heap.mem (minus ptr headerSize) < newSize.toNat
        · exact hi.move hlive hfresh hgrants (hsafe hlt) hlt hk
        · rw [krealloc, if_neg hp, if_neg hn] at hk
          simp only [if_pos (Nat.le_of_not_lt hlt)] at hk
          split_ifs at hk <;> cases hk <;> exact ⟨hi.paged, hi.grid⟩

theorem alignInv_init {mem : Mem} {base : Nat} (h0 : 0 < base) (hlt : base + 16 * 4096 < 2 ^ 64) (hpage : base % 4096 = 0) :
    AlignInv (initHeapState mem base) := by
  have hinv : LiveInv False (initHeapState mem base) (fun a => a = base) [base] := initHeapState_inv h0 hlt
  refine ⟨⟨_, _, hinv⟩, ?_, fun a ha => ?_⟩
  · intro r hr
    obtain rfl := List.mem_singleton.mp hr
    exact ⟨hpage, by show (base + 16 * 4096) % 4096 = 0; omega⟩
  · obtain rfl := (hinv.heap.header_iff a).mp ha
    omega

end Runs

/-- **Aligned addresses**, after every run of allowed calls that are safe, whatever the next request is. -/
theorem kmalloc_aligned_iff (mem : Mem) {base : Nat} (h0 : 0 < base) (hlt : base + 16 * 4096 < 2 ^ 64)
    (hpage : base % 4096 = 0) {ops : List HeapOp}
    (hops : Along heapStep (fun s op => Allowed s op ∧ HeapSafe s op ∧ GrantsPaged op) (initHeapState mem base) ops) :
    ∃ rs s, runFrom heapStep (initHeapState mem base) ops = .ok (rs, s) ∧ (∀ b, Header s.heap b → b % 8 = 0) ∧
      ∀ (grants : List Nat) (n : UInt64) (ptr : Nat) (h' : Heap), GrantsFresh grants s.heap (alignSize n.toNat) →
        (∀ d ∈ grants, d % 4096 = 0) → kmalloc grants s.heap n.toNat = .ok (ptr, h') → ptr ≠ 0 →
          (ptr % 16 = 0 ↔ ∃ b, FirstFit s.heap (alignSize n.toNat) b ∧ OddBefore s.heap b) := by
  obtain ⟨rs, s, hrun, hi⟩ := runFrom_inv AlignInv (fun s op hi ⟨ha, hs, hg⟩ => hi.step ha hs hg)
    (alignInv_init h0 hlt hpage) hops
  refine ⟨rs, s, hrun, hi.grid, fun grants n ptr h' hfresh hgrants he hne => ?_⟩
  obtain ⟨B, fl, hl⟩ := hi.live
  rcases kmalloc_served hl.heap hi.paged hgrants hfresh he hne with
    ⟨p, b, q, rfl, hs, hfit, rfl, -⟩ | ⟨-, hno, d, rest, rfl, -, -, -, rfl, -⟩
  · have hmod := hl.heap.header_mod hi.paged hi.grid (hl.heap.isBlock (a := b) (by simp))
    constructor
    · exact fun hptr => ⟨b, hfit, hmod.mp (by omega)⟩
    · rintro ⟨c, hc, hodd⟩
      obtain rfl := hc.eq_found hl.heap hs
      have hb := hmod.mpr hodd
      omega
  · have hd := hgrants d List.mem_cons_self
    constructor
    · intro hptr
      omega
    · rintro ⟨c, hc, -⟩
      exact absurd hc (hno c)

theorem gapOps_paged : Along heapStep (fun s op => Allowed s op ∧ HeapSafe s op ∧ GrantsPaged op) blankHeap gapOps := by
  refine gapOps_checked.imp fun s op ⟨⟨_, _, hi⟩, h⟩ => ?_
  obtain ⟨ha, hs, -⟩ := checkCall_safe hi h
  refine ⟨ha, hs, ?_⟩
  cases op with
  | kmalloc grants size =>
    cases grants with
    | cons d grants => cases h
    | nil => simp [GrantsPaged]
  | kcalloc grants num size => cases h
  | krealloc grants ptr newSize => cases h
  | kfree ptr => trivial

/-- The fourth block of 112 bytes serves the next request, with three such blocks before it. -/
theorem kmalloc_aligned_gapOps : ∃ rs s h', runFrom heapStep blankHeap gapOps = .ok (rs, s) ∧
    kmalloc [] s.heap 64 = .ok (4528, h') ∧ 4528 % 16 = 0 ∧ ∃ b, FirstFit s.heap (alignSize 64) b ∧ OddBefore s.heap b := by
  obtain ⟨rs, s, hrun, -, haligned⟩ :=
    kmalloc_aligned_iff (fun _ => 0) (show 0 < 4096 by decide) (by decide) (by decide) gapOps_paged
  have hcall : (runFrom heapStep blankHeap gapOps).toOption.map (fun out =>
      (kmalloc [] out.2.heap 64).toOption.map Prod.fst) = some (some 4528) := by decide +kernel
  obtain ⟨out, hout, hk⟩ := exists_ok_of_map hcall
  cases hrun.symm.trans hout
  obtain ⟨⟨_, h'⟩, he, rfl⟩ := exists_ok_of_map hk
  exact ⟨rs, s, h', hrun, he, by decide, (haligned [] 64 _ h' trivial (by simp) he (by decide)).mp (by decide)⟩

/-- The first allocation of all, in a heap at a page boundary. -/
theorem kmalloc_unaligned : ∃ ptr h', kmalloc [] (initKernelHeap (fun _ => 0) 4096) 100 = .ok (ptr, h') ∧ ptr ≠ 0 ∧
    ptr % 16 ≠ 0 := by
  obtain ⟨h', he, -⟩ := kmalloc_blankHeap
  exact ⟨4120, h', he, by decide, by decide⟩

end AmqOs.Memory
