import AmqOs.Memory.HeapInv

/-!
# The operations of the heap

One spec lemma for each operation, over a heap with the invariant:

- `kmalloc_spec`: when the block that serves a request has room for one more header (`KmallocSafe`), the call returns
  `NULL` or an allocated block of the size asked for, and no other block changes hands;
- `coalesceBlocks_spec`: when the walk of `coalesce_blocks` meets only blocks of the heap and joins only blocks that
  follow each other on the list (`SafeFrom`), the joined heap has the invariant;
- `kfree_spec`: the same for `kfree` (`FreeSafe`).
-/

set_option autoImplicit false

namespace AmqOs.Memory

open AmqOs.Lib

section Ops

variable {h : Heap} {B : Nat → Prop} {fl p q : List Nat} {b size : Nat}

/-! ## Searching -/

/-- The list is shorter than the number of addresses. -/
theorem HeapInv.length_lt (hi : HeapInv h B fl) : fl.length < rounds := by
  have hsub : fl.toFinset ⊆ Finset.range (2 ^ 64) := by
    intro a ha
    have hb := hi.bounds (hi.isBlock (List.mem_toFinset.mp ha))
    exact Finset.mem_range.mpr (by omega)
  have hcard := Finset.card_le_card hsub
  rw [List.toFinset_card_of_nodup hi.list.nodup, Finset.card_range] at hcard
  unfold rounds
  omega

/-- The search from a place of the list: nothing fits from there on, or the first block that fits is found. -/
theorem search_from (hi : HeapInv h B fl) (size : Nat) {fuel cur : Nat} (hl : fl = p ++ q)
    (hc : ChainTo (listNext h.mem) 0 cur q) (hp : ∀ a ∈ p, ¬ fits h.mem size a) (hfuel : q.length < fuel) :
    (search h.mem size fuel (p.getLastD 0) cur = .ok .exhausted ∧ ∀ a ∈ fl, ¬ fits h.mem size a) ∨
      ∃ p' b q', fl = p' ++ b :: q' ∧ search h.mem size fuel (p.getLastD 0) cur = .ok (.found (p'.getLastD 0) b) ∧
        fits h.mem size b ∧ ∀ a ∈ p', ¬ fits h.mem size a := by
  induction q generalizing p cur fuel with
  | nil =>
    obtain rfl := ChainTo.nil_iff.mp hc
    left
    cases fuel with
    | zero => cases hfuel
    | succ fuel =>
      refine ⟨by simp [search], ?_⟩
      rw [hl, List.append_nil]
      exact hp
  | cons b q ih =>
    obtain ⟨rfl, hne, d, hd, hrest⟩ := ChainTo.cons_iff.mp hc
    obtain rfl : nextAt h.mem cur = d := Option.some.inj hd
    have hmagic : magicAt h.mem cur = heapMagic := hi.magic cur (hi.isBlock (by simp [hl]))
    cases fuel with
    | zero => cases hfuel
    | succ fuel =>
      by_cases hfit : fits h.mem size cur
      · exact .inr ⟨p, cur, q, hl, by simp [search, hne, hmagic, hfit], hfit, hp⟩
      · have hstep : search h.mem size (fuel + 1) (p.getLastD 0) cur =
            search h.mem size fuel ((p ++ [cur]).getLastD 0) (nextAt h.mem cur) := by
          simp [search, hne, hmagic, hfit]
        rw [hstep]
        refine ih (p := p ++ [cur]) (by simp [hl]) hrest ?_ (by simpa using hfuel)
        intro a ha
        rcases List.mem_append.mp ha with ha | ha
        · exact hp a ha
        · rw [List.mem_singleton.mp ha]
          exact hfit

/-- `b` is the first block of the list that serves a request of `size` bytes. -/
def FirstFit (h : Heap) (size b : Nat) : Prop :=
  ∃ p q, ChainTo (listNext h.mem) 0 h.heapFreeList (p ++ b :: q) ∧ (∀ a ∈ p, ¬ fits h.mem size a) ∧ fits h.mem size b

theorem HeapInv.not_firstFit (hi : HeapInv h B fl) : (∀ b, ¬ FirstFit h size b) ↔ ∀ a ∈ fl, ¬ fits h.mem size a := by
  constructor
  · intro hno a ha hfit
    rcases search_from hi size (p := []) rfl hi.list (by simp) (Nat.lt_succ_self _) with
      ⟨-, hnone⟩ | ⟨p, b, q, hl, -, hb, hp⟩
    · exact hnone a ha hfit
    · exact hno b ⟨p, q, hl ▸ hi.list, hp, hb⟩
  · rintro hno b ⟨p, q, hc, -, hb⟩
    exact hno b (by rw [hi.list.unique hc]; simp) hb

/-- **The search** of `kmalloc`. -/
theorem search_spec (hi : HeapInv h B fl) (size : Nat) :
    (search h.mem size rounds 0 h.heapFreeList = .ok .exhausted ∧ ∀ b, ¬ FirstFit h size b) ∨
      ∃ p b q, fl = p ++ b :: q ∧ search h.mem size rounds 0 h.heapFreeList = .ok (.found (p.getLastD 0) b) ∧
        FirstFit h size b := by
  rcases search_from hi size (p := []) rfl hi.list (by simp) hi.length_lt with ⟨hs, hno⟩ | ⟨p, b, q, hl, hs, hb, hp⟩
  · exact .inl ⟨hs, hi.not_firstFit.mpr hno⟩
  · exact .inr ⟨p, b, q, hl, hs, p, q, hl ▸ hi.list, hp, hb⟩

theorem FirstFit.find? (hi : HeapInv h B fl) (hb : FirstFit h size b) : fl.find? (fits h.mem size ·) = some b := by
  obtain ⟨p, q, hc, hp, hfit⟩ := hb
  rw [hi.list.unique hc, List.find?_eq_some_iff_append]
  exact ⟨decide_eq_true hfit, p, q, rfl, fun a ha => by simp [hp a ha]⟩

/-- The block that the search finds is the only first fit. -/
theorem FirstFit.eq_found {prev c : Nat} (hi : HeapInv h B fl) (hc : FirstFit h size c)
    (hs : search h.mem size rounds 0 h.heapFreeList = .ok (.found prev b)) : c = b := by
  rcases search_spec hi size with ⟨hs', -⟩ | ⟨p, d, q, -, hs', hd⟩
  · rw [hs] at hs'
    cases hs'
  · rw [hs] at hs'
    cases hs'
    exact Option.some.inj ((hc.find? hi).symm.trans (hd.find? hi))

/-! ## Allocating -/

/-- The counter of used bytes is no part of the invariant. -/
theorem HeapInv.withUsed (hi : HeapInv h B fl) (used : Nat) : HeapInv { h with kernelHeapUsed := used } B fl :=
  ⟨hi.tiles, hi.low, hi.magic, hi.flag, hi.list, hi.free, hi.base⟩

/-- **Taking** a block with room for the request and one more header. -/
theorem takeBlock_spec (hi : HeapInv h B (p ++ b :: q)) (hroom : size + 24 ≤ sizeAt h.mem b) :
    ∃ B' fl', HeapInv (takeBlock h (p.getLastD 0) b size) B' fl' ∧
      Kept h.mem B (takeBlock h (p.getLastD 0) b size).mem B' ∧ B' b ∧
      isFreeAt (takeBlock h (p.getLastD 0) b size).mem b = 0 ∧
      size ≤ sizeAt (takeBlock h (p.getLastD 0) b size).mem b ∧ ∀ a, B' a → B a ∨ a = b + 24 + size := by
  obtain ⟨B', q', hsplit, hkept, hsize, hcut⟩ := hi.split hroom
  have htake : takeBlock h (p.getLastD 0) b size =
      if p.getLastD 0 ≠ 0 then { h with
        mem := setNext (setIsFree (splitBlock h.mem b size) b 0) (p.getLastD 0)
          (nextAt (setIsFree (splitBlock h.mem b size) b 0) b)
        kernelHeapUsed := wrap (h.kernelHeapUsed + headerSize + size) }
      else { h with
        mem := setIsFree (splitBlock h.mem b size) b 0
        heapFreeList := nextAt (setIsFree (splitBlock h.mem b size) b 0) b
        kernelHeapUsed := wrap (h.kernelHeapUsed + headerSize + size) } := rfl
  rw [htake]
  generalize wrap (h.kernelHeapUsed + headerSize + size) = used
  generalize splitBlock h.mem b size = m at hsplit hkept hsize ⊢
  have hb' : B' b := hsplit.isBlock (by simp)
  rcases List.eq_nil_or_concat' p with rfl | ⟨p, c, rfl⟩
  · obtain ⟨hinv, hkept'⟩ := hsplit.unlink_head
    rw [List.getLastD_nil, if_neg (by simp)]
    refine ⟨B', q', hinv.withUsed used, hkept.trans hkept', hb', ?_, ?_, hcut⟩
    · exact isFreeAt_setIsFree (by omega)
    · show size ≤ sizeAt (setIsFree m b 0) b
      rw [sizeAt_setIsFree]
      exact hsize
  · have hlist : p ++ [c] ++ b :: q' = p ++ c :: b :: q' := by simp
    rw [hlist] at hsplit
    have hc : B' c := hsplit.isBlock (by simp)
    have hc0 : c ≠ 0 := Nat.pos_iff_ne_zero.mp (hsplit.bounds hc).1
    obtain ⟨hinv, hkept'⟩ := hsplit.unlink_inner
    rw [List.getLastD_concat, if_pos hc0]
    refine ⟨B', p ++ c :: q', hinv.withUsed used, hkept.trans hkept', hb', ?_, ?_, hcut⟩
    · show isFreeAt (setNext (setIsFree m b 0) c _) b = 0
      rw [hsplit.sep.isFree_setNext hb' hc, isFreeAt_setIsFree (by omega)]
    · show size ≤ sizeAt (setNext (setIsFree m b 0) c _) b
      rw [hsplit.sep.size_setNext hb' hc, sizeAt_setIsFree]
      exact hsize

theorem alignSize_idem (n : Nat) : alignSize (alignSize n) = alignSize n := by
  unfold alignSize wrap
  omega

theorem le_alignSize {n : Nat} (hn : n + 15 < 2 ^ 64) : n ≤ alignSize n := by
  unfold alignSize wrap
  omega

/-- The pages handed out for a request of `size` bytes are all new to the heap. -/
def GrantsFresh : List Nat → Heap → Nat → Prop
  | [], _, _ => True
  | newMem :: grants, h, size =>
    FreshPages h newMem (newPages size) ∧ GrantsFresh grants (grow h newMem (newPages size)) size

/-- The block that serves a request of `n` bytes, found on the list or made of new pages, has room for the request and
one more header. -/
def KmallocSafe (h : Heap) (grants : List Nat) (n : Nat) : Prop :=
  n ≠ 0 → (∀ b, FirstFit h (alignSize n) b → alignSize n + headerSize ≤ sizeAt h.mem b) ∧
    ((∀ b, ¬ FirstFit h (alignSize n) b) → grants ≠ [] →
      alignSize n ≤ newPages (alignSize n) * 4096 - headerSize →
      alignSize n + headerSize ≤ newPages (alignSize n) * 4096 - headerSize)

/-- No block of the list serves the request, and there are no new pages for it. -/
def Refused (h : Heap) (grants : List Nat) (n : Nat) : Prop :=
  n = 0 ∨ (∀ b, ¬ FirstFit h (alignSize n) b) ∧ (grants = [] ∨ alignSize n = 0)

/-- After the heap has grown, the first block of the list is the new one. -/
theorem HeapInv.firstFit_grow (hi : HeapInv h B fl) {d pages : Nat} (hpages : 0 < pages) (hf : FreshPages h d pages)
    (hno : ∀ b, ¬ FirstFit h size b) (hb : FirstFit (Memory.grow h d pages) size b) : b = d := by
  obtain ⟨hinv, hsame, -⟩ := hi.grow hpages hf
  obtain ⟨p, q, hc, -, hfit⟩ := hb
  have hl := hinv.list.unique hc
  cases p with
  | nil =>
    simp only [List.nil_append, List.cons.injEq] at hl
    exact hl.1.symm
  | cons a p =>
    -- a later block was on the list before, and did not fit
    simp only [List.cons_append, List.cons.injEq] at hl
    have hbl : b ∈ fl := by rw [hl.2]; simp
    have hsb := hsame b (hi.isBlock hbl)
    unfold fits at hfit
    rw [hsb.isFree, hsb.size] at hfit
    exact absurd hfit (hi.not_firstFit.mp hno b hbl)

/-- The block that serves a request of `n` bytes has room for the request and `k` more bytes. -/
def RoomFor (k : Nat) (h : Heap) (grants : List Nat) (n : Nat) : Prop :=
  n ≠ 0 → (∀ b, FirstFit h (alignSize n) b → alignSize n + k ≤ sizeAt h.mem b) ∧
    ((∀ b, ¬ FirstFit h (alignSize n) b) → grants ≠ [] →
      alignSize n ≤ newPages (alignSize n) * 4096 - headerSize →
      alignSize n + k ≤ newPages (alignSize n) * 4096 - headerSize)

theorem kmallocSafe_iff {grants : List Nat} {n : Nat} : KmallocSafe h grants n ↔ RoomFor headerSize h grants n := Iff.rfl

theorem RoomFor.mono {k k' : Nat} {grants : List Nat} {n : Nat} (hk : k' ≤ k) (hroom : RoomFor k h grants n) :
    RoomFor k' h grants n := by
  intro hn
  obtain ⟨hfit, hnew⟩ := hroom hn
  refine ⟨fun b hb => ?_, fun hno hne hle => ?_⟩
  · have hb' := hfit b hb
    omega
  · have hnew' := hnew hno hne hle
    omega

/-- The room of the new block, when the heap has grown. -/
theorem RoomFor.grow {k d : Nat} {grants : List Nat} {n : Nat} (hi : HeapInv h B fl)
    (hroom : RoomFor k h (d :: grants) n) (hn : n ≠ 0) (hno : ∀ b, ¬ FirstFit h (alignSize n) b)
    (hp : newPages (alignSize n) ≠ 0) (hfresh : FreshPages h d (newPages (alignSize n))) :
    RoomFor k (Memory.grow h d (newPages (alignSize n))) grants (alignSize n) := by
  have hpos := Nat.pos_iff_ne_zero.mpr hp
  obtain ⟨-, -, hsize⟩ := hi.grow hpos hfresh
  have htight := (hroom hn).2 hno (List.cons_ne_nil _ _)
  intro _
  rw [alignSize_idem]
  refine ⟨fun b hb => ?_, fun _ _ => htight⟩
  obtain rfl := hi.firstFit_grow hpos hfresh hno hb
  obtain ⟨-, -, -, -, hfit⟩ := hb
  unfold fits at hfit
  rw [hsize] at hfit ⊢
  exact htight hfit.2

/-- What a call that returned `ptr` has done: nothing was given out, or one block that was not allocated before. -/
def Served (m : Mem) (B : Nat → Prop) (m' : Mem) (B' : Nat → Prop) (size ptr : Nat) : Prop :=
  ptr = 0 ∨ ∃ b, ptr = b + 24 ∧ B' b ∧ isFreeAt m' b = 0 ∧ size ≤ sizeAt m' b ∧ ¬ (B b ∧ isFreeAt m b = 0)

/-- A block of the list is taken. -/
theorem takeBlock_served (hi : HeapInv h B (p ++ b :: q)) (hroom : size + headerSize ≤ sizeAt h.mem b) :
    ∃ B' fl', HeapInv (takeBlock h (p.getLastD 0) b size) B' fl' ∧
      Kept h.mem B (takeBlock h (p.getLastD 0) b size).mem B' ∧
      Served h.mem B (takeBlock h (p.getLastD 0) b size).mem B' size (wrap (b + headerSize)) ∧
      ∀ a, B' a → B a ∨ a = b + 24 + size := by
  have hbl : b ∈ p ++ b :: q := by simp
  obtain ⟨B', fl', hinv, hkept, hb', hfree, hsize, hcut⟩ := takeBlock_spec hi hroom
  refine ⟨B', fl', hinv, hkept, .inr ⟨b, ?_, hb', hfree, hsize, ?_⟩, hcut⟩
  · have hbd := hi.bounds (hi.isBlock hbl)
    exact wrap_of_lt (by unfold headerSize; omega)
  · rintro ⟨-, h0⟩
    rw [hi.isFree hbl] at h0
    cases h0

/-- A block after a request of `size` bytes: one from before, new pages, or what was cut off one of these. -/
def CutFrom (B : Nat → Prop) (grants : List Nat) (size a : Nat) : Prop :=
  (B a ∨ a ∈ grants) ∨ ∃ b, (B b ∨ b ∈ grants) ∧ a = b + 24 + size

/-- The first of the new pages have become a block. -/
theorem CutFrom.of_grow {grants : List Nat} {a d : Nat} (h : CutFrom (fun a => B a ∨ a = d) grants size a) :
    CutFrom B (d :: grants) size a := by
  have hstep : ∀ a, (B a ∨ a = d) ∨ a ∈ grants → B a ∨ a ∈ d :: grants := by
    intro a ha
    rw [List.mem_cons]
    tauto
  rcases h with h | ⟨b, hb, rfl⟩
  · exact .inl (hstep a h)
  · exact .inr ⟨b, hstep b hb, rfl⟩

theorem kmalloc_grow {grants : List Nat} {n d : Nat} (hn : n ≠ 0)
    (hs : search h.mem (alignSize n) rounds 0 h.heapFreeList = .ok .exhausted) (hp : newPages (alignSize n) ≠ 0) :
    kmalloc (d :: grants) h n = kmalloc grants (grow h d (newPages (alignSize n))) (alignSize n) := by
  conv_lhs => unfold kmalloc
  simp only [hn, if_false, hs, hp]

/-- The search has found a block with room. -/
theorem kmalloc_found {grants : List Nat} {n : Nat} (hi : HeapInv h B (p ++ b :: q)) (hn : n ≠ 0)
    (hs : search h.mem (alignSize n) rounds 0 h.heapFreeList = .ok (.found (p.getLastD 0) b))
    (hfit : FirstFit h (alignSize n) b) (hroom : alignSize n + headerSize ≤ sizeAt h.mem b) :
    ∃ ptr h' B' fl', kmalloc grants h n = .ok (ptr, h') ∧ HeapInv h' B' fl' ∧ Kept h.mem B h'.mem B' ∧
      Served h.mem B h'.mem B' (alignSize n) ptr ∧ (Refused h grants n → ptr = 0) ∧
      ∀ a, B' a → CutFrom B grants (alignSize n) a := by
  obtain ⟨B', fl', hinv, hkept, hserved, hcut⟩ := takeBlock_served hi hroom
  have hb : B b := hi.isBlock (by simp)
  refine ⟨_, _, B', fl', ?_, hinv, hkept, hserved, ?_, fun a ha => (hcut a ha).imp .inl fun he => ⟨b, .inl hb, he⟩⟩
  · unfold kmalloc
    simp only [hn, if_false, hs]
  · rintro (h0 | ⟨hno, -⟩)
    · exact absurd h0 hn
    · exact absurd hfit (hno b)

/-- **Allocating.** -/
theorem kmalloc_spec {grants : List Nat} {n : Nat} (hi : HeapInv h B fl) (hsafe : KmallocSafe h grants n)
    (hgrants : GrantsFresh grants h (alignSize n)) :
    ∃ ptr h' B' fl', kmalloc grants h n = .ok (ptr, h') ∧ HeapInv h' B' fl' ∧ Kept h.mem B h'.mem B' ∧
      Served h.mem B h'.mem B' (alignSize n) ptr ∧ (Refused h grants n → ptr = 0) ∧
      ∀ a, B' a → CutFrom B grants (alignSize n) a := by
  induction grants generalizing h B fl n with
  | nil =>
    by_cases hn : n = 0
    · exact ⟨0, h, B, fl, by simp [kmalloc, hn], hi, .refl _ _, .inl rfl, fun _ => rfl, fun _ ha => .inl (.inl ha)⟩
    · rcases search_spec hi (alignSize n) with ⟨hs, -⟩ | ⟨p, b, q, rfl, hs, hfit⟩
      · exact ⟨0, h, B, fl, by simp [kmalloc, hn, hs], hi, .refl _ _, .inl rfl, fun _ => rfl, fun _ ha => .inl (.inl ha)⟩
      · exact kmalloc_found hi hn hs hfit ((hsafe hn).1 b hfit)
  | cons d grants ih =>
    by_cases hn : n = 0
    · exact ⟨0, h, B, fl, by simp [kmalloc, hn], hi, .refl _ _, .inl rfl, fun _ => rfl, fun _ ha => .inl (.inl ha)⟩
    · rcases search_spec hi (alignSize n) with ⟨hs, hno⟩ | ⟨p, b, q, rfl, hs, hfit⟩
      · by_cases hp : newPages (alignSize n) = 0
        · exact ⟨0, h, B, fl, by simp [kmalloc, hn, hs, hp], hi, .refl _ _, .inl rfl, fun _ => rfl, fun _ ha => .inl (.inl ha)⟩
        · -- the heap grows and the search starts again
          obtain ⟨hfresh, hrest⟩ := hgrants
          have hpos := Nat.pos_iff_ne_zero.mpr hp
          obtain ⟨hinv, hsame, -⟩ := hi.grow hpos hfresh
          have hkept : Kept h.mem B (grow h d (newPages (alignSize n))).mem fun a => B a ∨ a = d :=
            .of_sameHeaders (fun _ => .inl) hsame
          have hsafe' : KmallocSafe (grow h d (newPages (alignSize n))) grants (alignSize n) :=
            kmallocSafe_iff.mpr ((kmallocSafe_iff.mp hsafe).grow hi hn hno hp hfresh)
          obtain ⟨ptr, h', B', fl', he, hinv', hkept', hserved, hrefused, hcut⟩ :=
            ih hinv hsafe' (by rw [alignSize_idem]; exact hrest)
          rw [alignSize_idem] at hcut
          refine ⟨ptr, h', B', fl', (kmalloc_grow hn hs hp).trans he, hinv', hkept.trans hkept', ?_, ?_,
            fun a ha => (hcut a ha).of_grow⟩
          · rw [alignSize_idem] at hserved
            rcases hserved with h0 | ⟨b, hb1, hb2, hb3, hb4, hb5⟩
            · exact .inl h0
            · refine .inr ⟨b, hb1, hb2, hb3, hb4, fun ⟨hb, h0⟩ => hb5 ?_⟩
              obtain ⟨hb', h0', -⟩ := hkept b hb h0
              exact ⟨hb', h0'⟩
          · rintro (h0 | ⟨-, h0 | h0⟩)
            · exact absurd h0 hn
            · cases h0
            · exact hrefused (.inl h0)
      · exact kmalloc_found hi hn hs hfit ((hsafe hn).1 b hfit)

/-! ## Joining -/

/-- The headers that stepping from `start` arrives at below `bound`. -/
inductive Walked (m : Mem) (bound start : Nat) : Nat → Prop
  | here (hlt : start < bound) : Walked m bound start start
  | step {c : Nat} (hc : Walked m bound start c) (hmagic : magicAt m c = heapMagic) (hlt : endOf m c < bound) :
      Walked m bound start (endOf m c)

/-- The walk of `coalesce_blocks` from `start` on: every header it meets is in the heap, and of two free blocks that it
would join, the second follows the first on the list and is in the same region. -/
def SafeFrom (rs : List Region) (m : Mem) (bound start : Nat) : Prop :=
  ∀ c, Walked m bound start c → magicAt m c = heapMagic → (∃ r ∈ rs, r.start ≤ c ∧ c < r.stop) ∧
    (isFreeAt m c ≠ 0 → endOf m c < bound → magicAt m (endOf m c) = heapMagic → isFreeAt m (endOf m c) ≠ 0 →
      nextAt m c = endOf m c ∧ ∀ r ∈ rs, r.start ≠ endOf m c)

section Walk

variable {m : Mem} {bound start c : Nat}

theorem Walked.start_lt (hw : Walked m bound start c) : start < bound := by
  induction hw with
  | here hlt => exact hlt
  | step _ _ _ ih => exact ih

theorem Walked.from_next (hs : start < bound) (hm : magicAt m start = heapMagic)
    (hw : Walked m bound (endOf m start) c) : Walked m bound start c := by
  induction hw with
  | here hlt => exact .step (.here hs) hm hlt
  | step _ hmagic hlt ih => exact .step ih hmagic hlt

theorem SafeFrom.next {rs : List Region} (h : SafeFrom rs m bound start) (hs : start < bound)
    (hm : magicAt m start = heapMagic) : SafeFrom rs m bound (endOf m start) :=
  fun c hw => h c (hw.from_next hs hm)

theorem Walked.eq_or_next (hw : Walked m bound start c) :
    c = start ∨ magicAt m start = heapMagic ∧ Walked m bound (endOf m start) c := by
  induction hw with
  | here _ => exact .inl rfl
  | step _ hmagic hlt ih =>
    right
    rcases ih with rfl | ⟨hm, hw⟩
    · exact ⟨hmagic, .here hlt⟩
    · exact ⟨hm, .step hw hmagic hlt⟩

/-- A test of `SafeFrom` that takes the walk. -/
def safeWalk (rs : List Region) (m : Mem) (bound : Nat) : Nat → Nat → Bool
  | 0, _ => false
  | fuel + 1, c =>
    if c < bound ∧ magicAt m c = heapMagic then
      rs.any (fun r => r.start ≤ c ∧ c < r.stop) &&
        (!(isFreeAt m c ≠ 0 ∧ endOf m c < bound ∧ magicAt m (endOf m c) = heapMagic ∧ isFreeAt m (endOf m c) ≠ 0) ||
          nextAt m c = endOf m c && rs.all fun r => r.start ≠ endOf m c) &&
        safeWalk rs m bound fuel (endOf m c)
    else true

theorem safeFrom_of_safeWalk {rs : List Region} {fuel : Nat} (hw : safeWalk rs m bound fuel start = true) :
    SafeFrom rs m bound start := by
  induction fuel generalizing start with
  | zero => cases hw
  | succ fuel ih =>
    intro c hc hm
    unfold safeWalk at hw
    rcases hc.eq_or_next with rfl | ⟨hms, hnext⟩
    · rw [if_pos ⟨hc.start_lt, hm⟩] at hw
      simp only [Bool.and_eq_true, List.any_eq_true, decide_eq_true_eq, Bool.or_eq_true, Bool.not_eq_true',
        decide_eq_false_iff_not, List.all_eq_true] at hw
      obtain ⟨⟨hin, hjoin⟩, -⟩ := hw
      exact ⟨hin, fun h1 h2 h3 h4 => hjoin.resolve_left fun hno => hno ⟨h1, h2, h3, h4⟩⟩
    · rw [if_pos ⟨hc.start_lt, hms⟩] at hw
      simp only [Bool.and_eq_true] at hw
      exact ih hw.2 c hnext hm

end Walk

/-- A header after a block that is in the heap is a block. -/
theorem HeapInv.isBlock_next {c : Nat} (hi : HeapInv h B fl) (hc : B c)
    (hin : ∃ r ∈ h.regions, r.start ≤ endOf h.mem c ∧ endOf h.mem c < r.stop) : B (endOf h.mem c) := by
  rw [hi.endOf_eq hc] at hin ⊢
  obtain ⟨r, hr, h1, h2⟩ := hi.tiles.inside c hc
  have hpos := hi.tiles.pos c hc
  rcases hi.tiles.next c hc r hr h1 (by omega) with hstop | hn
  · obtain ⟨r', hr', h3, h4⟩ := hin
    by_cases he : r' = r
    · subst he
      omega
    · -- the next region starts where this one ends
      have hap := hi.tiles.regions r' hr' r hr he
      rw [show c + extent h.mem c = r'.start by omega]
      exact hi.tiles.first r' hr'
  · exact hn

theorem HeapInv.walked_isBlock {bound start c : Nat} (hi : HeapInv h B fl) (hs : B start)
    (hsafe : SafeFrom h.regions h.mem bound start) (hw : Walked h.mem bound start c)
    (hm : magicAt h.mem c = heapMagic) : B c := by
  induction hw with
  | here _ => exact hs
  | step hc hmagic hlt ih => exact hi.isBlock_next (ih hmagic) (hsafe _ (.step hc hmagic hlt) hm).1

/-- The rest of the walk after two blocks have been joined. -/
theorem HeapInv.safe_merge {bound c : Nat} {m' : Mem} (hi : HeapInv h B fl) (hc : B c) (hd : B (endOf h.mem c))
    (hlt : endOf h.mem c < bound) (hcb : c < bound) (hfree : isFreeAt h.mem (endOf h.mem c) ≠ 0)
    (hsafe : SafeFrom h.regions h.mem bound c) (hm : ∀ x, x < c ∨ c + 24 ≤ x → m' x = h.mem x)
    (hend : endOf m' c = endOf h.mem (endOf h.mem c)) (hnext : nextAt m' c = nextAt h.mem (endOf h.mem c)) :
    SafeFrom h.regions m' bound c := by
  have hmagic := hi.magic c hc
  have hmagic' := hi.magic _ hd
  have hwd : Walked h.mem bound c (endOf h.mem c) := .step (.here hcb) hmagic hlt
  have hdc : c + 24 ≤ endOf h.mem c := by
    rw [hi.endOf_eq hc]
    unfold extent headerSize
    omega
  have hlast : ∀ x, B x → x < endOf h.mem x := by
    intro x hx
    rw [hi.endOf_eq hx]
    have hpos := hi.tiles.pos x hx
    omega
  have hsame : ∀ x, endOf h.mem c < x → SameHeader h.mem m' x := fun x hx y h1 h2 => hm y (by omega)
  have hends : ∀ x, endOf h.mem c < x → endOf m' x = endOf h.mem x := by
    intro x hx
    unfold endOf
    rw [(hsame x hx).size]
  -- the walk visits `c` and headers behind the joined block, where nothing has changed
  have hwalk : ∀ x, Walked m' bound c x → x = c ∨ Walked h.mem bound c x ∧ endOf h.mem c < x := by
    intro x hw
    induction hw with
    | here _ => exact .inl rfl
    | @step y _ hmy hly ih =>
      right
      rcases ih with rfl | ⟨hwy, hlt'⟩
      · rw [hend] at hly ⊢
        exact ⟨.step hwd hmagic' hly, hlast _ hd⟩
      · rw [(hsame y hlt').magic] at hmy
        rw [hends y hlt'] at hly ⊢
        have hy := hi.walked_isBlock hc hsafe hwy hmy
        exact ⟨.step hwy hmy hly, lt_trans hlt' (hlast y hy)⟩
  intro x hw hmx
  rcases hwalk x hw with rfl | ⟨hwx, hltx⟩
  · refine ⟨(hsafe x (.here hcb) hmagic).1, fun _ h2 h3 h4 => ?_⟩
    rw [hend] at h2 h3 h4 ⊢
    have hse := hsame _ (hlast _ hd)
    rw [hse.magic] at h3
    rw [hse.isFree] at h4
    rw [hnext]
    exact (hsafe _ hwd hmagic').2 hfree h2 h3 h4
  · have hsx := hsame x hltx
    rw [hsx.magic] at hmx
    have hx := hi.walked_isBlock hc hsafe hwx hmx
    have hse := hsame (endOf h.mem x) (lt_trans hltx (hlast x hx))
    rw [hends x hltx, hsx.isFree, hse.magic, hse.isFree, hsx.next]
    exact hsafe x hwx hmx

/-- Two neighbours that the walk joins. -/
theorem HeapInv.join {bound c : Nat} (hi : HeapInv h B fl) (hc : B c) (hcb : c < bound)
    (hsafe : SafeFrom h.regions h.mem bound c) (hfc : isFreeAt h.mem c ≠ 0) (hlt : endOf h.mem c < bound)
    (hmd : magicAt h.mem (endOf h.mem c) = heapMagic) (hfd : isFreeAt h.mem (endOf h.mem c) ≠ 0) {m' : Mem}
    (hm : m' = setNext (setSize h.mem c (wrap (sizeAt h.mem c + (headerSize + sizeAt h.mem (endOf h.mem c))))) c
      (nextAt (setSize h.mem c (wrap (sizeAt h.mem c + (headerSize + sizeAt h.mem (endOf h.mem c)))))
        (endOf h.mem c))) :
    ∃ B' fl', HeapInv { h with mem := m' } B' fl' ∧ Kept h.mem B m' B' ∧ B' c ∧ SafeFrom h.regions m' bound c ∧
      c + extent h.mem c < c + extent m' c ∧ ∀ a, B' a → B a := by
  have hmagic := hi.magic c hc
  have hd := hi.isBlock_next hc (hsafe _ (.step (.here hcb) hmagic hlt) hmd).1
  obtain ⟨hnext, hin⟩ := (hsafe c (.here hcb) hmagic).2 hfc hlt hmd hfd
  have hends := hi.endOf_eq hc
  have hendd := hi.endOf_eq hd
  have hdb := hi.bounds hd
  have hcl : c ∈ fl := (hi.free c).mpr ⟨hc, (hi.flag c hc).resolve_left hfc⟩
  obtain ⟨p, q, rfl⟩ := hi.list.exists_next hcl (congrArg some hnext) (Nat.pos_iff_ne_zero.mp hdb.1)
  obtain ⟨hinv, hkept⟩ := hi.merge hends hin hm
  have hcd : c ≠ endOf h.mem c := by
    have hpos := hi.tiles.pos c hc
    omega
  have hcB : B c ∧ c ≠ endOf h.mem c := ⟨hc, hcd⟩
  have hsum : sizeAt h.mem c + (headerSize + sizeAt h.mem (endOf h.mem c)) < 2 ^ 64 := by
    unfold extent headerSize at hends
    unfold headerSize
    omega
  have hsize : sizeAt m' c = sizeAt h.mem c + (headerSize + sizeAt h.mem (endOf h.mem c)) := by
    rw [hm, sizeAt_setNext, wrap_of_lt hsum, sizeAt_setSize hsum]
  have hext : extent m' c = extent h.mem c + extent h.mem (endOf h.mem c) := by
    simp only [extent, hsize]
    omega
  have hpos := hi.tiles.pos _ hd
  refine ⟨_, _, hinv, hkept, hcB, ?_, by omega, fun _ ha => ha.1⟩
  refine hi.safe_merge hc hd hlt hcb hfd hsafe ?_ ?_ ?_
  · intro x hx
    rw [hm, setNext_out hx, setSize_out hx]
  · have hend' : endOf m' c = c + extent m' c := hinv.endOf_eq hcB
    rw [hend', hendd, hext]
    omega
  · rw [hm, nextAt_setNext nextAt_lt, hi.sep.next_setSize hd hc]

/-- **The loop of `coalesce_blocks`.** In every round the end of the current block moves on. -/
theorem coalesceLoop_spec {bound c : Nat} (fuel : Nat) (hi : HeapInv h B fl)
    (hc : c < bound → magicAt h.mem c = heapMagic → B c) (hsafe : SafeFrom h.regions h.mem bound c) (hf : 0 < fuel)
    (hfuel : B c → 2 ^ 64 + 1 ≤ fuel + (c + extent h.mem c)) :
    ∃ m' B' fl', coalesceLoop bound fuel h.mem c = .ok m' ∧ HeapInv { h with mem := m' } B' fl' ∧
      Kept h.mem B m' B' ∧ ∀ a, B' a → B a := by
  induction fuel generalizing h B fl c with
  | zero => cases hf
  | succ fuel ih =>
    unfold coalesceLoop
    by_cases hlt : c < bound
    · rw [if_pos hlt]
      by_cases hm : magicAt h.mem c = heapMagic
      · rw [if_neg (not_not_intro hm)]
        have hcB := hc hlt hm
        have hend := hi.endOf_eq hcB
        have hbd := hi.bounds hcB
        have hfuel' := hfuel hcB
        have hext : extent h.mem c = 24 + sizeAt h.mem c := rfl
        by_cases hjoin : isFreeAt h.mem c ≠ 0 ∧ endOf h.mem c < bound ∧ magicAt h.mem (endOf h.mem c) = heapMagic ∧
            isFreeAt h.mem (endOf h.mem c) ≠ 0
        · simp only [if_pos hjoin]
          obtain ⟨h1, h2, h3, h4⟩ := hjoin
          generalize hm₁ : setNext _ _ _ = m₁
          obtain ⟨B₁, fl₁, hinv, hkept, hcB', hsafe', hgrow, hsub⟩ := hi.join hcB hlt hsafe h1 h2 h3 h4 hm₁.symm
          have hfuel₁ : 2 ^ 64 + 1 ≤ fuel + (c + extent m₁ c) := by omega
          obtain ⟨m', B', fl', he, hinv', hkept', hsub'⟩ := ih hinv (fun _ _ => hcB') hsafe' (by omega) fun _ => hfuel₁
          exact ⟨m', B', fl', he, hinv', hkept.trans hkept', fun a ha => hsub a (hsub' a ha)⟩
        · simp only [if_neg hjoin]
          refine ih hi ?_ (hsafe.next hlt hm) (by omega) ?_
          · intro hlt' hm'
            exact hi.isBlock_next hcB (hsafe _ (.step (.here hlt) hm hlt') hm').1
          · intro hnB
            have hpos := hi.tiles.pos _ hnB
            omega
      · rw [if_pos hm]
        exact ⟨h.mem, B, fl, rfl, hi, .refl _ _, fun _ ha => ha⟩
    · rw [if_neg hlt]
      exact ⟨h.mem, B, fl, rfl, hi, .refl _ _, fun _ ha => ha⟩

/-- The walk that `kfree(ptr)` starts, with the block freed. -/
def FreeSafe (h : Heap) (ptr : Nat) : Prop :=
  let freed := pushFree h (minus ptr headerSize)
  SafeFrom freed.regions freed.mem freed.bound freed.kernelHeapBase

/-- The block of a pointer. -/
theorem HeapInv.block_eq (hi : HeapInv h B fl) (hb : B b) : minus (b + 24) headerSize = b := by
  have hbd := hi.bounds hb
  rw [minus_of_le (by omega) (by unfold headerSize; omega)]
  exact Nat.add_sub_cancel b 24

/-- **Freeing** an allocated block. -/
theorem kfree_spec (hi : HeapInv h B fl) (hb : B b) (h0 : isFreeAt h.mem b = 0) (hsafe : FreeSafe h (b + 24)) :
    ∃ h' B' fl', kfree h (b + 24) = .ok h' ∧ HeapInv h' B' fl' ∧ Kept h.mem (fun a => B a ∧ a ≠ b) h'.mem B' ∧
      ∀ a, B' a → B a := by
  have hblock := hi.block_eq hb
  unfold FreeSafe at hsafe
  rw [hblock] at hsafe
  obtain ⟨hinv, hkept⟩ := hi.push hb h0
  have hbase : B (pushFree h b).kernelHeapBase := by
    obtain ⟨r, hr, he⟩ := hi.base
    exact he ▸ hi.tiles.first r hr
  obtain ⟨m', B', fl', he, hinv', hkept', hsub⟩ := coalesceLoop_spec rounds hinv (fun _ _ => hbase) hsafe
    (by unfold rounds; omega) fun _ => by unfold rounds; omega
  refine ⟨_, B', fl', ?_, hinv', hkept.trans hkept', hsub⟩
  unfold kfree
  rw [if_neg (by omega), hblock, if_neg (not_not_intro (hi.magic b hb)), if_neg (not_not_intro h0)]
  unfold coalesceBlocks
  rw [he, ok_bind]

/-! ## Copying -/

/-- **The copying loop** writes the bytes at `dst` that the old block has, and no others. -/
theorem copyLoop_spec {block size i : Nat} {m : Mem} (src dst fuel : Nat) (hs : sizeAt m block = size)
    (hout : block + 24 ≤ dst ∨ dst + size ≤ block) (hi : i ≤ size) (hfuel : size < fuel + i) :
    ∃ m', copyLoop block src dst fuel m i = .ok m' ∧ ∀ x, x < dst ∨ dst + size ≤ x → m' x = m x := by
  induction fuel generalizing m i with
  | zero => omega
  | succ fuel ih =>
    unfold copyLoop
    by_cases hlt : i < sizeAt m block
    · rw [if_pos hlt]
      have hsame : SameHeader m (m.store (dst + i) 1 fun _ => m (src + i)) block := by
        intro x h1 h2
        exact Mem.store_out (by omega)
      obtain ⟨m', he, hm'⟩ := ih (i := i + 1) (hsame.size.trans hs) (by omega) (by omega)
      refine ⟨m', he, fun x hx => ?_⟩
      rw [hm' x hx, Mem.store_out (by omega)]
    · rw [if_neg hlt]
      exact ⟨m, rfl, fun _ _ => rfl⟩

/-- Copying the payload of a block into that of another with room for it. -/
theorem HeapInv.copy {c : Nat} (hi : HeapInv h B fl) (hb : B b) (hc : B c) (hcb : c ≠ b)
    (hle : sizeAt h.mem b ≤ sizeAt h.mem c) :
    ∃ m', copyLoop b (b + 24) (c + 24) rounds h.mem 0 = .ok m' ∧ HeapInv { h with mem := m' } B fl ∧
      Kept h.mem B m' B ∧ ∀ x, x < c + 24 ∨ c + 24 + sizeAt h.mem c ≤ x → m' x = h.mem x := by
  have hap := hi.apart hc hb hcb
  have hbd := hi.bounds hb
  obtain ⟨m', hcopy, hm'⟩ := copyLoop_spec (b + 24) (c + 24) rounds (rfl : sizeAt h.mem b = _) (by omega)
    (Nat.zero_le _) (by unfold rounds; omega)
  have hout : ∀ x, x < c + 24 ∨ c + 24 + sizeAt h.mem c ≤ x → m' x = h.mem x := fun x hx => hm' x (by omega)
  obtain ⟨hinv, hkept⟩ := hi.payload hc m' hout
  exact ⟨m', hcopy, hinv, hkept, hout⟩

end Ops

end AmqOs.Memory
