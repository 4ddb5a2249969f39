import AmqOs.Memory.HeapLimits

/-!
# The bytes in use

`kmalloc` adds the header and the rounded request to `kernel_heap_used`, `kfree` takes off the header and the size stored in
the block. The two are the same for a block that was cut to the request, and differ for a block that was handed out whole.
`used_run`: in a run in which every block that serves a request is cut, the counter is the sum over the live allocations.
-/

set_option autoImplicit false

namespace AmqOs.Memory

open AmqOs.Lib

/-- The bytes of a live allocation: the header and the size stored in it. -/
def storedBytes (m : Mem) (x : Nat × Nat) : Nat := headerSize + sizeAt m (x.1 - headerSize)

def liveBytes (s : HeapState) : Nat := (s.live.map (storedBytes s.heap.mem)).sum

/-- The counter is right; it is 0 when everything has been freed. -/
structure UsedOk (s : HeapState) : Prop where
  used : s.heap.kernelHeapUsed = liveBytes s
  empty : s.live = [] → s.heap.kernelHeapUsed = 0

/-- The block that serves a request is cut: there is room for the request, one more header and `MIN_BLOCK_SIZE` bytes. -/
def Cuts (h : Heap) (grants : List Nat) (n : Nat) : Prop := RoomFor (headerSize + minBlockSize) h grants n

/-- Every call that takes a block cuts it. -/
def CutsBlocks (s : HeapState) : HeapOp → Prop
  | .kmalloc grants size => Cuts s.heap grants size.toNat
  | .kcalloc grants num size => Cuts s.heap grants (wrap (num.toNat * size.toNat))
  | .krealloc grants ptr newSize => ptr = 0 ∨ sizeAt s.heap.mem (minus ptr headerSize) < newSize.toNat →
      Cuts s.heap grants newSize.toNat
  | .kfree _ => True

/-! ## The counter over one call -/

section Counter

variable {grants p q fl : List Nat} {h h' g : Heap} {B B' : Nat → Prop} {n ptr size b : Nat}

theorem kmalloc_used_null (hi : HeapInv h B fl) (hfresh : GrantsFresh grants h (alignSize n))
    (he : kmalloc grants h n = .ok (0, h')) : h'.kernelHeapUsed = h.kernelHeapUsed := by
  induction grants generalizing h n B fl with
  | nil =>
    rcases kmalloc_inv he with ⟨-, rfl⟩ | ⟨-, prev, b, hs, hptr, -⟩ | ⟨-, -, -, d, rest, hnil, -⟩
    · rfl
    · exact absurd hptr.symm (hi.found_ne_zero hs)
    · cases hnil
  | cons d grants ih =>
    rcases kmalloc_inv he with ⟨-, rfl⟩ | ⟨-, prev, b, hs, hptr, -⟩ | ⟨-, hs, hp, d', rest, hcons, hrest⟩
    · rfl
    · exact absurd hptr.symm (hi.found_ne_zero hs)
    · cases hcons
      have hgrown := (hi.grow (Nat.pos_iff_ne_zero.mpr hp) hfresh.1).1
      have hused : h'.kernelHeapUsed = (grow h d (newPages (alignSize n))).kernelHeapUsed :=
        ih hgrown (by rw [alignSize_idem]; exact hfresh.2) hrest
      exact hused

theorem kfree_used (hi : HeapInv h B fl) (hb : B b) (h0 : isFreeAt h.mem b = 0) (he : kfree h (b + 24) = .ok h') :
    h'.kernelHeapUsed = minus h.kernelHeapUsed (headerSize + sizeAt h.mem b) := by
  unfold kfree at he
  rw [if_neg (by omega), hi.block_eq hb, if_neg (not_not_intro (hi.magic b hb)), if_neg (not_not_intro h0)] at he
  unfold coalesceBlocks at he
  cases hc : coalesceLoop (pushFree h b).bound rounds (pushFree h b).mem (pushFree h b).kernelHeapBase with
  | error e => simp [hc] at he
  | ok mem =>
    simp only [hc, ok_bind, Except.ok.injEq] at he
    rw [← he]
    rfl

/-- The block of a cut has the rounded size. -/
theorem Cuts.grown (hcut : Cuts h grants n) (hi : HeapInv h B fl) (hn : n ≠ 0)
    (hfresh : GrantsFresh grants h (alignSize n)) (hg : Grown size grants h g) (hsize : alignSize n = size)
    (hfit : FirstFit g size b) : size + 56 ≤ sizeAt g.mem b := by
  induction hg generalizing n B fl with
  | refl =>
    subst hsize
    exact (hcut hn).1 b hfit
  | step hne hs hp _ ih =>
    subst hsize
    rcases search_spec hi (alignSize n) with ⟨-, hno⟩ | ⟨p, c, q, rfl, hfound, -⟩
    · have hgrown := (hi.grow (Nat.pos_iff_ne_zero.mpr hp) hfresh.1).1
      exact ih (RoomFor.grow hi hcut hn hno hp hfresh.1) hgrown hne (by rw [alignSize_idem]; exact hfresh.2)
        (alignSize_idem n) hfit
    · rw [hfound] at hs
      cases hs

/-- **The size of a block that was cut.** -/
theorem kmalloc_stored_cut (hi : HeapInv h B fl) (hcut : Cuts h grants n) (hfresh : GrantsFresh grants h (alignSize n))
    (he : kmalloc grants h n = .ok (ptr, h')) (hne : ptr ≠ 0) : sizeAt h'.mem (ptr - headerSize) = alignSize n := by
  obtain ⟨g, prev, b, hg, hn, hs, rfl, rfl⟩ := kmalloc_cases he hne
  obtain ⟨B', fl', hig⟩ := hg.inv hi hfresh
  rcases search_spec hig (alignSize n) with ⟨hex, -⟩ | ⟨p, c, q, rfl, hfound, hfit⟩
  · rw [hex] at hs
    cases hs
  · rw [hfound] at hs
    cases hs
    have hb := hig.bounds (hig.isBlock (a := b) (by simp))
    have hroom := hcut.grown hi hn hfresh hg rfl hfit
    have hptr : wrap (b + headerSize) - headerSize = b := by
      rw [wrap_of_lt (by unfold headerSize; omega)]
      exact Nat.add_sub_cancel b headerSize
    have hrem : minus (minus (sizeAt g.mem b) (alignSize n)) headerSize ≥ minBlockSize := by
      rw [minus_of_le sizeAt_lt (by omega), minus_of_le (by omega) (by unfold headerSize; omega)]
      unfold headerSize minBlockSize
      omega
    have hlt := alignSize_lt n
    rw [hptr, sizeAt_takeBlock hig.prev_apart (by omega), if_pos hrem]

end Counter

/-! ## The sum over the live allocations -/

section Sums

variable {s : HeapState} {h' : Heap} {B B' : Nat → Prop} {fl fl' grants : List Nat} {n ptr size b : Nat}

theorem storedBytes_pointer (m : Mem) (b k : Nat) : storedBytes m (b + 24, k) = extent m b := by
  unfold storedBytes extent
  rw [show b + 24 - headerSize = b from Nat.add_sub_cancel b 24]

theorem liveBytes_acquire (live : List (Nat × Nat)) (hne : ptr ≠ 0) :
    liveBytes ⟨h', acquire live ptr n⟩ = headerSize + sizeAt h'.mem (ptr - headerSize) + liveBytes ⟨h', live⟩ := by
  unfold liveBytes acquire
  rw [if_neg hne, List.map_cons, List.sum_cons]
  rfl

/-- The blocks that are kept have the sizes they had. -/
theorem LiveInv.liveBytes_keep {e : Prop} (hi : LiveInv e s B fl) {live : List (Nat × Nat)} (hsub : ∀ x ∈ live, x ∈ s.live)
    {C : Nat → Prop} (hC : ∀ x ∈ live, ∀ b, x.1 = b + 24 → B b → C b) (hk : Kept s.heap.mem C h'.mem B') :
    liveBytes ⟨h', live⟩ = liveBytes ⟨s.heap, live⟩ := by
  unfold liveBytes
  refine congrArg List.sum (List.map_congr_left fun x hx => ?_)
  obtain ⟨b, hb, hB, h0, -⟩ := hi.block x (hsub x hx)
  obtain ⟨-, -, hsize⟩ := hk b (hC x hx b hb hB) h0
  unfold storedBytes
  rw [hb, show b + 24 - headerSize = b from Nat.add_sub_cancel b 24, hsize]

theorem release_of_not_mem {live : List (Nat × Nat)} (h : ptr ∉ live.map Prod.fst) : release live ptr = live := by
  refine List.filter_eq_self.mpr fun x hx => decide_eq_true ?_
  rintro rfl
  exact h (List.mem_map.mpr ⟨x, hx, rfl⟩)

/-- One allocation is given back. -/
theorem liveBytes_release {live : List (Nat × Nat)} (hnd : (live.map Prod.fst).Nodup) {x : Nat × Nat} (hx : x ∈ live) :
    liveBytes ⟨h', live⟩ = storedBytes h'.mem x + liveBytes ⟨h', release live x.1⟩ := by
  unfold liveBytes
  induction live with
  | nil => cases hx
  | cons y live ih =>
    obtain ⟨hy, hnd⟩ := List.nodup_cons.mp hnd
    simp only [List.map_cons, List.sum_cons]
    rcases List.mem_cons.mp hx with rfl | hx
    · have hrest : release (x :: live) x.1 = live := by
        rw [← release_of_not_mem hy]
        simp [release]
      rw [hrest]
    · have hne : y.1 ≠ x.1 := fun e => hy (e ▸ List.mem_map.mpr ⟨x, hx, rfl⟩)
      have hrest : release (y :: live) x.1 = y :: release live x.1 := by simp [release, hne]
      have hsum := ih hnd hx
      simp only at hsum
      rw [hrest, hsum, List.map_cons, List.sum_cons]
      omega

/-- The blocks are in the address space, so that the sum does not wrap. -/
theorem LiveInv.liveBytes_lt {e : Prop} (hi : LiveInv e s B fl) : liveBytes s < 2 ^ 64 := by
  have hblocks : (s.live.map (storedBytes s.heap.mem)) = (s.live.map fun x => x.1 - 24).map (extent s.heap.mem) := by
    rw [List.map_map]
    rfl
  have hnd : (s.live.map fun x => x.1 - 24).Nodup := by
    have hmap : (s.live.map fun x => x.1 - 24) = (s.live.map Prod.fst).map fun a => a - 24 := by
      rw [List.map_map]
      rfl
    rw [hmap]
    refine hi.distinct.map_on fun a ha c hc heq => ?_
    obtain ⟨x, hx, rfl⟩ := List.mem_map.mp ha
    obtain ⟨y, hy, rfl⟩ := List.mem_map.mp hc
    obtain ⟨b, hb, -⟩ := hi.block x hx
    obtain ⟨c, hc, -⟩ := hi.block y hy
    omega
  unfold liveBytes
  rw [hblocks]
  refine hi.heap.tiles.sum_lt (fun r hr => ?_) (by omega) (fun a ha => ?_) hnd
  · have hlow := hi.heap.low r hr
    omega
  · obtain ⟨x, hx, rfl⟩ := List.mem_map.mp ha
    obtain ⟨b, hb, hB, -⟩ := hi.block x hx
    rw [hb]
    exact hB

end Sums

/-! ## The calls -/

/-- The invariant of a run with the counter. -/
structure UsedInv (s : HeapState) (B : Nat → Prop) (fl : List Nat) : Prop where
  live : LiveInv False s B fl
  used : s.heap.kernelHeapUsed = liveBytes s

namespace UsedInv

variable {s : HeapState} {h' : Heap} {B B' : Nat → Prop} {fl fl' grants : List Nat} {n ptr size b : Nat}

/-- Nothing is given out or given back. -/
theorem keep (hi : UsedInv s B fl) (hinv : HeapInv h' B' fl') (hk : Kept s.heap.mem B h'.mem B')
    (hused : h'.kernelHeapUsed = s.heap.kernelHeapUsed) : UsedInv ⟨h', s.live⟩ B' fl' := by
  refine ⟨hi.live.keep hinv hk, ?_⟩
  rw [hi.live.liveBytes_keep (fun _ hx => hx) (fun _ _ _ _ hB => hB) hk]
  exact hused.trans hi.used

/-- `kmalloc(size)` for an allocation of `n` bytes. -/
theorem kmalloc (hi : UsedInv s B fl) (hcut : Cuts s.heap grants size)
    (hgrants : GrantsFresh grants s.heap (alignSize size)) :
    ∃ ptr h' B' fl', Memory.kmalloc grants s.heap size = .ok (ptr, h') ∧
      UsedInv ⟨h', acquire s.live ptr n⟩ B' fl' ∧ Served s.heap.mem B h'.mem B' (alignSize size) ptr ∧
      Kept s.heap.mem B h'.mem B' ∧ (Refused s.heap grants size → ptr = 0) := by
  have hsafe : KmallocSafe s.heap grants size := kmallocSafe_iff.mpr (RoomFor.mono (by unfold headerSize; omega) hcut)
  obtain ⟨ptr, h', B', fl', he, hi', hserved, hkept, hrefused⟩ := hi.live.kmalloc (n := n) hsafe hgrants False.elim
  refine ⟨ptr, h', B', fl', he, ⟨hi', ?_⟩, hserved, hkept, hrefused⟩
  have hsame : liveBytes ⟨h', s.live⟩ = liveBytes s :=
    hi.live.liveBytes_keep (fun _ hx => hx) (fun _ _ _ _ hB => hB) hkept
  by_cases hne : ptr = 0
  · subst hne
    rw [acquire, if_pos rfl, hsame, ← hi.used]
    exact kmalloc_used_null hi.live.heap hgrants he
  · have hlt := hi'.liveBytes_lt
    rw [liveBytes_acquire s.live hne, kmalloc_stored_cut hi.live.heap hcut hgrants he hne, hsame, ← hi.used] at hlt ⊢
    show h'.kernelHeapUsed = _
    rw [kmalloc_used he hne, wrap_of_lt (by omega)]
    omega

/-- `kcalloc`. -/
theorem kcalloc {num : Nat} (hi : UsedInv s B fl) (hcut : Cuts s.heap grants (wrap (num * size)))
    (hgrants : GrantsFresh grants s.heap (alignSize (wrap (num * size))))
    (hclear : FitsSize s.heap grants (wrap (num * size))) :
    ∃ ptr h' B' fl', Memory.kcalloc grants s.heap num size = .ok (ptr, h') ∧
      UsedInv ⟨h', acquire s.live ptr (num * size)⟩ B' fl' := by
  obtain ⟨ptr, h', B', fl', he, hi', hserved, -, hrefused⟩ := hi.kmalloc (n := num * size) hcut hgrants
  unfold Memory.kcalloc
  simp only [he, ok_bind]
  by_cases hne : ptr = 0
  · subst hne
    exact ⟨0, h', B', fl', rfl, hi'⟩
  · obtain ⟨hinv, hkept⟩ := LiveInv.cleared hi'.live.heap hserved hclear hrefused hne
    exact ⟨ptr, _, B', fl', by rw [if_pos hne], hi'.keep hinv hkept rfl⟩

/-- `kfree` of a live pointer. -/
theorem kfree (hi : UsedInv s B fl) (hl : Live s ptr) (hsafe : FreeSafe s.heap ptr) :
    ∃ h' B' fl', Memory.kfree s.heap ptr = .ok h' ∧ UsedInv ⟨h', release s.live ptr⟩ B' fl' := by
  obtain ⟨size, hmem⟩ := hl
  obtain ⟨b, hptr, hb, h0, -⟩ := hi.live.block _ hmem
  simp only at hptr
  subst hptr
  obtain ⟨h', B', fl', he, hinv, hkept, -⟩ := kfree_spec hi.live.heap hb h0 hsafe
  refine ⟨h', B', fl', he, hi.live.drop hinv hkept, ?_⟩
  have hsame : liveBytes ⟨h', release s.live (b + 24)⟩ = liveBytes ⟨s.heap, release s.live (b + 24)⟩ := by
    refine hi.live.liveBytes_keep (fun x hx => (List.mem_filter.mp hx).1) (fun x hx c hc hB => ⟨hB, ?_⟩) hkept
    rintro rfl
    exact of_decide_eq_true (List.mem_filter.mp hx).2 hc
  have hsum : liveBytes s = extent s.heap.mem b + liveBytes ⟨s.heap, release s.live (b + 24)⟩ := by
    rw [← storedBytes_pointer s.heap.mem b size]
    exact liveBytes_release hi.live.distinct hmem
  unfold extent at hsum
  have hlt := hi.live.liveBytes_lt
  have hused := hi.used
  show h'.kernelHeapUsed = _
  rw [kfree_used hi.live.heap hb h0 he, hsame, minus_of_le (by omega) (by omega)]
  omega

/-- `krealloc` that moves the allocation. -/
theorem move (hi : UsedInv s B fl) (hl : Live s ptr) (hgrants : GrantsFresh grants s.heap (alignSize n))
    (hcut : Cuts s.heap grants n) (hsafe : MoveSafe s.heap grants ptr n)
    (hn : sizeAt s.heap.mem (minus ptr headerSize) < n) :
    ∃ newPtr h' live' B' fl', krealloc grants s.heap ptr n = .ok (newPtr, h') ∧
      live' = (if newPtr = 0 then s.live else release s.live ptr) ∧
      UsedInv ⟨h', acquire live' newPtr n⟩ B' fl' := by
  obtain ⟨-, hfit, hfree⟩ := hsafe
  obtain ⟨newPtr, h', B', fl', he, hi', hserved, hkept, hrefused⟩ := hi.kmalloc (n := n) hcut hgrants
  rw [hi.live.krealloc_eq hl hn, he]
  simp only [ok_bind]
  by_cases hne : newPtr = 0
  · subst hne
    exact ⟨0, h', s.live, B', fl', rfl, rfl, hi'⟩
  · obtain ⟨mem, hcopy, hi₁, hkept₁, hlive⟩ := hi.live.copied hl hfit hn hi'.live hserved hkept hrefused hne
    have hu₁ : UsedInv ⟨{ h' with mem }, acquire s.live newPtr n⟩ B' fl' := hi'.keep hi₁.heap hkept₁ rfl
    obtain ⟨h'', B'', fl'', hfreed, hi''⟩ := hu₁.kfree hlive (hfree _ _ _ he hne hcopy)
    refine ⟨newPtr, h'', release s.live ptr, B'', fl'', ?_, by rw [if_neg hne], ?_⟩
    · rw [if_neg hne, hcopy, ok_bind, hfreed, ok_bind]
    · rwa [hi.live.release_acquire hl hne hserved] at hi''

/-- `krealloc` that leaves the allocation in its block. -/
theorem resize (hi : UsedInv s B fl) (hl : Live s (b + 24)) :
    s.heap.kernelHeapUsed = liveBytes ⟨s.heap, acquire (release s.live (b + 24)) (b + 24) n⟩ := by
  obtain ⟨size, hmem⟩ := hl
  have hsum : liveBytes s = extent s.heap.mem b + liveBytes ⟨s.heap, release s.live (b + 24)⟩ := by
    rw [← storedBytes_pointer s.heap.mem b size]
    exact liveBytes_release hi.live.distinct hmem
  rw [liveBytes_acquire _ (by omega), hi.used, hsum, ← storedBytes_pointer s.heap.mem b size]
  rfl

theorem step_kmalloc {size : UInt64} (hi : UsedInv s B fl) (hcut : Cuts s.heap grants size.toNat)
    (hgrants : GrantsFresh grants s.heap (alignSize size.toNat)) :
    ∃ r s' B' fl', heapStep s (.kmalloc grants size) = .ok (r, s') ∧ UsedInv s' B' fl' := by
  obtain ⟨ptr, h', B', fl', he, hi', -⟩ := hi.kmalloc (n := size.toNat) hcut hgrants
  exact ⟨ptr, _, B', fl', by simp only [heapStep, he, ok_bind], hi'⟩

theorem step_kfree (hi : UsedInv s B fl) (hl : Live s ptr) (hsafe : FreeSafe s.heap ptr) :
    ∃ r s' B' fl', heapStep s (.kfree ptr) = .ok (r, s') ∧ UsedInv s' B' fl' := by
  obtain ⟨h', B', fl', he, hi'⟩ := hi.kfree hl hsafe
  exact ⟨0, _, B', fl', by simp only [heapStep, he, ok_bind], hi'⟩

end UsedInv

/-- **One call** that is allowed and safe and cuts the block it takes. -/
theorem heapStep_used {s : HeapState} {B : Nat → Prop} {fl : List Nat} {op : HeapOp} (hi : UsedInv s B fl)
    (hallowed : Allowed s op) (hsafe : HeapSafe s op) (hcut : CutsBlocks s op) :
    ∃ r s' B' fl', heapStep s op = .ok (r, s') ∧ UsedInv s' B' fl' := by
  cases op with
  | kmalloc grants size => exact hi.step_kmalloc hcut hallowed
  | kcalloc grants num size =>
    obtain ⟨ptr, h', B', fl', he, hi'⟩ := hi.kcalloc hcut hallowed hsafe.2
    exact ⟨ptr, _, B', fl', by simp only [heapStep, he, ok_bind], hi'⟩
  | krealloc grants ptr newSize =>
    obtain ⟨hptr, hgrants⟩ := hallowed
    by_cases hp : ptr = 0
    · subst hp
      rw [hi.live.krealloc_null]
      exact hi.step_kmalloc (hcut (.inl rfl)) hgrants
    · have hl := hptr.resolve_left hp
      obtain ⟨b, hb, hB, h0⟩ := hi.live.of_live hl
      simp only [HeapSafe, if_neg hp] at hsafe
      by_cases hn : newSize.toNat = 0
      · rw [if_pos hn] at hsafe
        rw [krealloc_zero hp hn]
        exact hi.step_kfree hl hsafe
      · rw [if_neg hn] at hsafe
        simp only [heapStep]
        by_cases hlt : sizeAt s.heap.mem (minus ptr headerSize) < newSize.toNat
        · obtain ⟨q, h', live', B', fl', he, hlive, hi'⟩ := hi.move hl hgrants (hcut (.inr hlt)) (hsafe hlt) hlt
          refine ⟨q, _, B', fl', ?_, hi'⟩
          simp [he, hn, hlive]
        · rw [hb, hi.live.heap.block_eq hB] at hlt
          have hbd := hi.live.heap.magic b hB
          have hle := Nat.le_of_not_lt hlt
          subst hb
          refine ⟨b + 24, _, B, fl, ?_, hi.live.resize hB h0 hle, hi.resize hl⟩
          simp [krealloc, hn, hi.live.heap.block_eq hB, hbd, hle]
  | kfree ptr =>
    by_cases hp : ptr = 0
    · subst hp
      exact ⟨0, s, B, fl, hi.live.kfree_null, hi⟩
    · exact hi.step_kfree (hallowed.resolve_left hp) (hsafe hp)

theorem UsedInv.usedOk {s : HeapState} {B : Nat → Prop} {fl : List Nat} (hi : UsedInv s B fl) : UsedOk s := by
  refine ⟨hi.used, fun hnil => ?_⟩
  rw [hi.used, liveBytes, hnil]
  rfl

/-- **The counter after every run** of allowed calls that are safe and cut the blocks they take. -/
theorem used_run (mem : Mem) {base : Nat} (h0 : 0 < base) (hlt : base + 16 * 4096 < 2 ^ 64) {ops : List HeapOp}
    (hops : Along heapStep (fun s op => Allowed s op ∧ HeapSafe s op ∧ CutsBlocks s op) (initHeapState mem base) ops) :
    ∃ rs s, runFrom heapStep (initHeapState mem base) ops = .ok (rs, s) ∧ UsedOk s := by
  obtain ⟨rs, s, hrun, B, fl, hi⟩ := runFrom_inv (fun s => ∃ B fl, UsedInv s B fl)
    (fun s op ⟨B, fl, hi⟩ ⟨ha, hs, hc⟩ => by
      obtain ⟨r, s', B', fl', he, hi'⟩ := heapStep_used hi ha hs hc
      exact ⟨r, s', he, B', fl', hi'⟩) ⟨_, _, initHeapState_inv h0 hlt, rfl⟩ hops
  exact ⟨rs, s, hrun, hi.usedOk⟩

theorem joinOps_cuts : Along heapStep CutsBlocks blankHeap joinOps :=
  joinOps_checked.imp fun s op ⟨⟨_, _, hi⟩, h⟩ => by
    cases op with
    | kmalloc grants size =>
      cases grants with
      | cons d grants => cases h
      | nil => exact (checkCall_room hi h).2
    | kcalloc grants num size => cases h
    | krealloc grants ptr newSize => cases h
    | kfree ptr => trivial

theorem used_run_blankHeap : ∃ rs s, runFrom heapStep blankHeap joinOps = .ok (rs, s) ∧
    (s.live = [(4528, 100), (4392, 100)] ∧ sizeAt s.heap.mem 4096 = 248) ∧ UsedOk s := by
  obtain ⟨rs, s, hrun, hok⟩ := used_run (fun _ => 0) (show 0 < 4096 by decide) (by decide)
    ((joinOps_safe.and joinOps_cuts).imp fun _ _ h => ⟨h.1.1, h.1.2.1, h.2⟩)
  exact ⟨rs, s, hrun, joinOps_run hrun, hok⟩

/-- A block of 112 bytes serves a request of 64 bytes and is not cut: 88 bytes are counted, 136 are in use. -/
theorem reuseOps_drift : ∃ rs s, Along heapStep Allowed blankHeap (reuseOps [64]) ∧
    runFrom heapStep blankHeap (reuseOps [64]) = .ok (rs, s) ∧ ¬ UsedOk s := by
  have h : (runFrom heapStep blankHeap (reuseOps [64])).toOption.map (fun out => (out.2.heap.kernelHeapUsed,
      liveBytes out.2)) = some (88, 136) := by decide +kernel
  obtain ⟨⟨rs, s⟩, he, hs⟩ := exists_ok_of_map h
  simp only [Prod.mk.injEq] at hs
  refine ⟨rs, s, along_reuseOps _, he, fun hok => ?_⟩
  have hused := hok.used
  rw [hs.1, hs.2] at hused
  exact absurd hused (by decide)

end AmqOs.Memory
