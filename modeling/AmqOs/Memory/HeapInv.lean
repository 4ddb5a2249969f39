import AmqOs.Memory.HeapDefs

/-!
# The invariant of the heap

`HeapInv h B fl`: the blocks `B` tile the regions of the heap (`Lib.Tiling`), their headers are intact, and the list
from `heap_free_list` is the chain `fl` of exactly the free ones. Each change the allocator makes to the memory keeps
it: a free block is cut in two (`HeapInv.split`), taken off the list (`HeapInv.unlink`), put on it (`HeapInv.push`), two
neighbours on the list are joined (`HeapInv.merge`), a region is added (`HeapInv.grow`). `Kept` says what these leave of
the allocated blocks.
-/

set_option autoImplicit false

namespace AmqOs.Memory

open AmqOs.Lib

/-! ## Fields -/

section Fields

variable {m m' m'' : Mem} {a b v n x : Nat}

theorem sizeAt_lt : sizeAt m b < 2 ^ 64 := by
  have h := Mem.loadLE_lt (m := m) (a := b) (n := 8)
  simpa [sizeAt] using h

theorem nextAt_lt : nextAt m b < 2 ^ 64 := by
  have h := Mem.loadLE_lt (m := m) (a := b + 8) (n := 8)
  simpa [nextAt] using h

theorem setSize_out (h : x < b ∨ b + 24 ≤ x) : setSize m b v x = m x := Mem.storeLE_out (by omega)

theorem setNext_out (h : x < b ∨ b + 24 ≤ x) : setNext m b v x = m x := Mem.storeLE_out (by omega)

theorem setIsFree_out (h : x < b ∨ b + 24 ≤ x) : setIsFree m b v x = m x := Mem.storeLE_out (by omega)

theorem setMagic_out (h : x < b ∨ b + 24 ≤ x) : setMagic m b v x = m x := Mem.storeLE_out (by omega)

theorem setHeader_out (h : x < b ∨ b + 24 ≤ x) : setHeader m b v n x = m x := by
  unfold setHeader
  rw [setMagic_out h, setIsFree_out h, setNext_out h, setSize_out h]

theorem sizeAt_setSize (h : v < 2 ^ 64) : sizeAt (setSize m b v) b = v := Mem.loadLE_storeLE (by simpa using h)

theorem nextAt_setNext (h : v < 2 ^ 64) : nextAt (setNext m b v) b = v := Mem.loadLE_storeLE (by simpa using h)

theorem isFreeAt_setIsFree (h : v < 2 ^ 32) : isFreeAt (setIsFree m b v) b = v :=
  Mem.loadLE_storeLE (by simpa using h)

theorem magicAt_setMagic (h : v < 2 ^ 32) : magicAt (setMagic m b v) b = v :=
  Mem.loadLE_storeLE (by simpa using h)

@[simp] theorem sizeAt_setNext : sizeAt (setNext m b v) b = sizeAt m b := Mem.loadLE_storeLE_out (by omega)

@[simp] theorem sizeAt_setIsFree : sizeAt (setIsFree m b v) b = sizeAt m b := Mem.loadLE_storeLE_out (by omega)

@[simp] theorem nextAt_setIsFree : nextAt (setIsFree m b v) b = nextAt m b := Mem.loadLE_storeLE_out (by omega)

@[simp] theorem sizeAt_setMagic : sizeAt (setMagic m b v) b = sizeAt m b := Mem.loadLE_storeLE_out (by omega)

@[simp] theorem nextAt_setMagic : nextAt (setMagic m b v) b = nextAt m b := Mem.loadLE_storeLE_out (by omega)

@[simp] theorem isFreeAt_setMagic : isFreeAt (setMagic m b v) b = isFreeAt m b := Mem.loadLE_storeLE_out (by omega)

theorem sizeAt_setHeader (h : v < 2 ^ 64) : sizeAt (setHeader m b v n) b = v := by
  simp [setHeader, sizeAt_setSize h]

theorem nextAt_setHeader (h : n < 2 ^ 64) : nextAt (setHeader m b v n) b = n := by
  simp [setHeader, nextAt_setNext h]

theorem isFreeAt_setHeader : isFreeAt (setHeader m b v n) b = 1 := by
  simp [setHeader, isFreeAt_setIsFree (show 1 < 2 ^ 32 by omega)]

theorem magicAt_setHeader : magicAt (setHeader m b v n) b = heapMagic :=
  magicAt_setMagic (by decide)

/-- The header of `a` is untouched. -/
def SameHeader (m m' : Mem) (a : Nat) : Prop := ∀ x, a ≤ x → x < a + 24 → m' x = m x

theorem SameHeader.size (h : SameHeader m m' a) : sizeAt m' a = sizeAt m a :=
  Mem.loadLE_congr fun x h1 h2 => h x (by omega) (by omega)

theorem SameHeader.next (h : SameHeader m m' a) : nextAt m' a = nextAt m a :=
  Mem.loadLE_congr fun x h1 h2 => h x (by omega) (by omega)

theorem SameHeader.isFree (h : SameHeader m m' a) : isFreeAt m' a = isFreeAt m a :=
  Mem.loadLE_congr fun x h1 h2 => h x (by omega) (by omega)

theorem SameHeader.magic (h : SameHeader m m' a) : magicAt m' a = magicAt m a :=
  Mem.loadLE_congr fun x h1 h2 => h x (by omega) (by omega)

/-- Headers do not overlap. -/
def Sep (B : Nat → Prop) : Prop := ∀ a b, B a → B b → a ≠ b → a + 24 ≤ b ∨ b + 24 ≤ a

section Sep

variable {B : Nat → Prop} (hs : Sep B) (ha : B a) (hb : B b)
include hs ha hb

/-- A field is not changed by a store to another field, of the same block or of another. -/
theorem Sep.out {i j k l : Nat} (hi : i + k ≤ 24) (hj : j + l ≤ 24) (hd : i + k ≤ j ∨ j + l ≤ i) :
    Mem.loadLE (m.storeLE (b + j) l v) (a + i) k = m.loadLE (a + i) k := by
  apply Mem.loadLE_storeLE_out
  by_cases he : a = b
  · omega
  · have hap := hs a b ha hb he
    omega

/-- A field is not changed by a store to another block. -/
theorem Sep.other (hne : a ≠ b) {i j k l : Nat} (hi : i + k ≤ 24) (hj : j + l ≤ 24) :
    Mem.loadLE (m.storeLE (b + j) l v) (a + i) k = m.loadLE (a + i) k := by
  apply Mem.loadLE_storeLE_out
  have hap := hs a b ha hb hne
  omega

theorem Sep.next_setSize : nextAt (setSize m b v) a = nextAt m a :=
  hs.out ha hb (i := 8) (j := 0) (by omega) (by omega) (by omega)

theorem Sep.isFree_setSize : isFreeAt (setSize m b v) a = isFreeAt m a :=
  hs.out ha hb (i := 16) (j := 0) (by omega) (by omega) (by omega)

theorem Sep.magic_setSize : magicAt (setSize m b v) a = magicAt m a :=
  hs.out ha hb (i := 20) (j := 0) (by omega) (by omega) (by omega)

theorem Sep.size_setNext : sizeAt (setNext m b v) a = sizeAt m a :=
  hs.out ha hb (i := 0) (j := 8) (by omega) (by omega) (by omega)

theorem Sep.isFree_setNext : isFreeAt (setNext m b v) a = isFreeAt m a :=
  hs.out ha hb (i := 16) (j := 8) (by omega) (by omega) (by omega)

theorem Sep.magic_setNext : magicAt (setNext m b v) a = magicAt m a :=
  hs.out ha hb (i := 20) (j := 8) (by omega) (by omega) (by omega)

theorem Sep.size_setIsFree : sizeAt (setIsFree m b v) a = sizeAt m a :=
  hs.out ha hb (i := 0) (j := 16) (by omega) (by omega) (by omega)

theorem Sep.next_setIsFree : nextAt (setIsFree m b v) a = nextAt m a :=
  hs.out ha hb (i := 8) (j := 16) (by omega) (by omega) (by omega)

theorem Sep.magic_setIsFree : magicAt (setIsFree m b v) a = magicAt m a :=
  hs.out ha hb (i := 20) (j := 16) (by omega) (by omega) (by omega)

theorem Sep.size_setSize (hv : v < 2 ^ 64) : sizeAt (setSize m b v) a = if a = b then v else sizeAt m a := by
  split
  · rename_i he
    rw [he, sizeAt_setSize hv]
  · rename_i he
    exact hs.other ha hb he (i := 0) (j := 0) (by omega) (by omega)

theorem Sep.next_setNext (hv : v < 2 ^ 64) : nextAt (setNext m b v) a = if a = b then v else nextAt m a := by
  split
  · rename_i he
    rw [he, nextAt_setNext hv]
  · rename_i he
    exact hs.other ha hb he (i := 8) (j := 8) (by omega) (by omega)

theorem Sep.isFree_setIsFree (hv : v < 2 ^ 32) :
    isFreeAt (setIsFree m b v) a = if a = b then v else isFreeAt m a := by
  split
  · rename_i he
    rw [he, isFreeAt_setIsFree hv]
  · rename_i he
    exact hs.other ha hb he (i := 16) (j := 16) (by omega) (by omega)

/-- A new header changes no other. -/
theorem Sep.setHeader_other (hne : a ≠ b) : SameHeader m (setHeader m b v n) a := by
  intro x h1 h2
  have hap := hs a b ha hb hne
  exact setHeader_out (by omega)

end Sep

theorem wrap_of_lt (h : n < 2 ^ 64) : wrap n = n := Nat.mod_eq_of_lt h

theorem minus_of_le (ha : a < 2 ^ 64) (h : b ≤ a) : minus a b = a - b := by
  unfold minus wrap
  omega

end Fields

/-! ## The invariant -/

/-- The link of a block. -/
def listNext (m : Mem) (b : Nat) : Option Nat := some (nextAt m b)

/-- A block with its header. -/
def extent (m : Mem) (b : Nat) : Nat := headerSize + sizeAt m b

structure HeapInv (h : Heap) (B : Nat → Prop) (fl : List Nat) : Prop where
  tiles : Tiles (extent h.mem) h.regions B
  low : ∀ r ∈ h.regions, 0 < r.start ∧ r.stop < 2 ^ 64
  magic : ∀ a, B a → magicAt h.mem a = heapMagic
  flag : ∀ a, B a → isFreeAt h.mem a = 0 ∨ isFreeAt h.mem a = 1
  list : ChainTo (listNext h.mem) 0 h.heapFreeList fl
  free : ∀ a, a ∈ fl ↔ B a ∧ isFreeAt h.mem a = 1
  base : ∃ r ∈ h.regions, r.start = h.kernelHeapBase

/-- The allocated blocks are still there, with their sizes. -/
def Kept (m : Mem) (B : Nat → Prop) (m' : Mem) (B' : Nat → Prop) : Prop :=
  ∀ a, B a → isFreeAt m a = 0 → B' a ∧ isFreeAt m' a = 0 ∧ sizeAt m' a = sizeAt m a

theorem Kept.refl (m : Mem) (B : Nat → Prop) : Kept m B m B := fun _ ha h0 => ⟨ha, h0, rfl⟩

theorem Kept.of_sameHeaders {m m' : Mem} {B B' : Nat → Prop} (hB : ∀ a, B a → B' a)
    (hs : ∀ a, B a → SameHeader m m' a) : Kept m B m' B' :=
  fun a ha h0 => ⟨hB a ha, (hs a ha).isFree.trans h0, (hs a ha).size⟩

theorem Kept.trans {m m' m'' : Mem} {B B' B'' : Nat → Prop} (h : Kept m B m' B') (h' : Kept m' B' m'' B'') :
    Kept m B m'' B'' := by
  intro a ha h0
  obtain ⟨ha', h0', hs⟩ := h a ha h0
  obtain ⟨ha'', h0'', hs'⟩ := h' a ha' h0'
  exact ⟨ha'', h0'', hs'.trans hs⟩

theorem mem_insert_after {p q : List Nat} {a b d : Nat} : a ∈ p ++ b :: d :: q ↔ a ∈ p ++ b :: q ∨ a = d := by
  simp only [List.mem_append, List.mem_cons]
  tauto

theorem mem_remove_after {p q : List Nat} {a c d : Nat} (hp : d ∉ p ++ [c]) (hq : d ∉ q) :
    a ∈ p ++ c :: q ↔ a ∈ p ++ c :: d :: q ∧ a ≠ d := by
  have hsplit : p ++ c :: q = (p ++ [c]) ++ q := by simp
  have hsplit' : p ++ c :: d :: q = (p ++ [c]) ++ d :: q := by simp
  rw [hsplit, hsplit']
  constructor
  · intro ha
    rcases List.mem_append.mp ha with ha | ha
    · exact ⟨List.mem_append_left _ ha, fun e => hp (e ▸ ha)⟩
    · exact ⟨List.mem_append_right _ (List.mem_cons_of_mem d ha), fun e => hq (e ▸ ha)⟩
  · rintro ⟨ha, hne⟩
    rcases List.mem_append.mp ha with ha | ha
    · exact List.mem_append_left _ ha
    · exact List.mem_append_right _ ((List.mem_cons.mp ha).resolve_left hne)

section Inv

variable {h : Heap} {B : Nat → Prop} {fl p q : List Nat} {a b : Nat}

namespace HeapInv

/-- A block is inside a region. -/
theorem bounds (hi : HeapInv h B fl) (ha : B a) : 0 < a ∧ a + 24 + sizeAt h.mem a < 2 ^ 64 := by
  obtain ⟨r, hr, h1, h2⟩ := hi.tiles.inside a ha
  have hlow := hi.low r hr
  unfold extent headerSize at h2
  omega

theorem endOf_eq (hi : HeapInv h B fl) (ha : B a) : endOf h.mem a = a + extent h.mem a := by
  have hb := hi.bounds ha
  unfold endOf extent headerSize
  rw [wrap_of_lt (by omega)]
  omega

/-- Two blocks do not overlap. -/
theorem apart (hi : HeapInv h B fl) (ha : B a) (hb : B b) (hne : a ≠ b) :
    a + 24 + sizeAt h.mem a ≤ b ∨ b + 24 + sizeAt h.mem b ≤ a := by
  rcases Nat.lt_or_gt_of_ne hne with hlt | hgt
  · have hap := hi.tiles.apart a b ha hb hlt
    unfold extent headerSize at hap
    omega
  · have hap := hi.tiles.apart b a hb ha hgt
    unfold extent headerSize at hap
    omega

theorem isBlock (hi : HeapInv h B fl) (ha : a ∈ fl) : B a := ((hi.free a).mp ha).1

theorem isFree (hi : HeapInv h B fl) (ha : a ∈ fl) : isFreeAt h.mem a = 1 := ((hi.free a).mp ha).2

theorem head_lt (hi : HeapInv h B fl) : h.heapFreeList < 2 ^ 64 := by
  cases hl : fl with
  | nil =>
    have h0 := ChainTo.nil_iff.mp (hl ▸ hi.list)
    omega
  | cons b q =>
    obtain ⟨he, -⟩ := ChainTo.cons_iff.mp (hl ▸ hi.list)
    have hb := hi.bounds (hi.isBlock (a := b) (by simp [hl]))
    omega

/-- Headers that are untouched keep the invariant. -/
theorem sameHeaders (hi : HeapInv h B fl) {m' : Mem} (hs : ∀ a, B a → SameHeader h.mem m' a) :
    HeapInv { h with mem := m' } B fl ∧ Kept h.mem B m' B := by
  constructor
  · constructor
    · refine hi.tiles.congr fun a ha => ?_
      simp only [extent, (hs a ha).size]
    · exact hi.low
    · intro a ha
      rw [(hs a ha).magic]
      exact hi.magic a ha
    · intro a ha
      rw [(hs a ha).isFree]
      exact hi.flag a ha
    · refine hi.list.congr fun a ha => ?_
      simp only [listNext, (hs a (hi.isBlock ha)).next]
    · intro a
      rw [hi.free]
      refine and_congr_right fun ha => ?_
      rw [(hs a ha).isFree]
    · exact hi.base
  · exact .of_sameHeaders (fun _ ha => ha) hs

/-- Writing in the payload of a block touches no header. -/
theorem payload (hi : HeapInv h B fl) (hb : B b) (m' : Mem)
    (hm : ∀ x, x < b + 24 ∨ b + 24 + sizeAt h.mem b ≤ x → m' x = h.mem x) :
    HeapInv { h with mem := m' } B fl ∧ Kept h.mem B m' B := by
  refine hi.sameHeaders fun a ha x h1 h2 => hm x ?_
  by_cases he : a = b
  · omega
  · have hap := hi.apart ha hb he
    omega

/-- A node of the list is there once. -/
theorem not_mem (hi : HeapInv h B (p ++ b :: q)) : b ∉ p ∧ b ∉ q := by
  have hnd := hi.list.nodup
  rw [List.nodup_append] at hnd
  obtain ⟨-, h2, h3⟩ := hnd
  exact ⟨fun hm => h3 b hm b List.mem_cons_self rfl, (List.nodup_cons.mp h2).1⟩

/-- The other nodes of the list are other blocks. -/
theorem other (hi : HeapInv h B (p ++ b :: q)) (ha : a ∈ p ∨ a ∈ q) : B a ∧ a ≠ b := by
  obtain ⟨hp, hq⟩ := hi.not_mem
  constructor
  · apply hi.isBlock
    rcases ha with ha | ha <;> simp [ha]
  · rintro rfl
    rcases ha with ha | ha
    · exact hp ha
    · exact hq ha

theorem sep (hi : HeapInv h B fl) : Sep B := by
  intro a b ha hb hne
  have hap := hi.apart ha hb hne
  omega

/-- A header in the payload of a block overlaps no other. -/
theorem sep_within (hi : HeapInv h B fl) (hb : B b) {d : Nat} (h1 : b + 24 ≤ d) (h2 : d ≤ b + sizeAt h.mem b) :
    (∀ a, B a → a ≠ d) ∧ Sep fun a => B a ∨ a = d := by
  have hnew : ∀ a, B a → a + 24 ≤ d ∨ d + 24 ≤ a := by
    intro a ha
    by_cases hab : a = b
    · omega
    · have hap := hi.apart ha hb hab
      omega
  constructor
  · intro a ha he
    have hap := hnew a ha
    omega
  · rintro a c (ha | rfl) (hc | rfl) hne
    · exact hi.sep a c ha hc hne
    · exact hnew a ha
    · exact (hnew c hc).symm
    · exact absurd rfl hne

/-- The flags of the blocks other than `b`, which is not free any more, give the list without `b`. -/
theorem free_without (hi : HeapInv h B (p ++ b :: q)) {m' : Mem}
    (hflag : ∀ a, B a → isFreeAt m' a = if a = b then 0 else isFreeAt h.mem a) (a : Nat) :
    a ∈ p ++ q ↔ B a ∧ isFreeAt m' a = 1 := by
  obtain ⟨hp, hq⟩ := hi.not_mem
  have hold := hi.free a
  simp only [List.mem_append, List.mem_cons] at hold ⊢
  by_cases he : a = b
  · subst he
    constructor
    · intro hm
      rcases hm with hm | hm
      · exact absurd hm hp
      · exact absurd hm hq
    · rintro ⟨ha, hf⟩
      rw [hflag a ha, if_pos rfl] at hf
      cases hf
  · constructor
    · intro hm
      obtain ⟨ha, hf⟩ := hold.mp (hm.imp_right .inr)
      exact ⟨ha, by rw [hflag a ha, if_neg he, hf]⟩
    · rintro ⟨ha, hf⟩
      rw [hflag a ha, if_neg he] at hf
      exact (hold.mpr ⟨ha, hf⟩).imp_right fun hm => hm.resolve_left he

/-- The flag of `b` is cleared and the list goes on past it. -/
theorem unlink (hi : HeapInv h B (p ++ b :: q)) {m' : Mem} {head : Nat}
    (hsize : ∀ a, B a → sizeAt m' a = sizeAt h.mem a) (hmagic : ∀ a, B a → magicAt m' a = magicAt h.mem a)
    (hflag : ∀ a, B a → isFreeAt m' a = if a = b then 0 else isFreeAt h.mem a)
    (hlist : ChainTo (listNext m') 0 head (p ++ q)) :
    HeapInv { h with mem := m', heapFreeList := head } B (p ++ q) ∧ Kept h.mem B m' B := by
  constructor
  · constructor
    · exact hi.tiles.congr fun a ha => by simp only [extent, hsize a ha]
    · exact hi.low
    · intro a ha
      rw [hmagic a ha]
      exact hi.magic a ha
    · intro a ha
      rw [hflag a ha]
      split
      · exact .inl rfl
      · exact hi.flag a ha
    · exact hlist
    · exact hi.free_without hflag
    · exact hi.base
  · intro a ha h0
    refine ⟨ha, ?_, hsize a ha⟩
    rw [hflag a ha]
    split
    · rfl
    · exact h0

/-- **Taking the first block** off the list. -/
theorem unlink_head (hi : HeapInv h B (b :: q)) :
    HeapInv { h with mem := setIsFree h.mem b 0, heapFreeList := nextAt (setIsFree h.mem b 0) b } B q ∧
      Kept h.mem B (setIsFree h.mem b 0) B := by
  have hb := hi.isBlock (List.mem_cons_self (a := b))
  refine hi.unlink (p := []) (fun a ha => hi.sep.size_setIsFree ha hb) (fun a ha => hi.sep.magic_setIsFree ha hb)
    (fun a ha => hi.sep.isFree_setIsFree ha hb (by omega)) ?_
  obtain ⟨-, -, c, hc, hl⟩ := ChainTo.cons_iff.mp hi.list
  obtain rfl : nextAt h.mem b = c := Option.some.inj hc
  rw [nextAt_setIsFree]
  refine hl.congr fun a ha => ?_
  simp only [listNext, hi.sep.next_setIsFree (hi.isBlock (List.mem_cons_of_mem _ ha)) hb]

/-- **Taking a later block** off the list. -/
theorem unlink_inner {c : Nat} (hi : HeapInv h B (p ++ c :: b :: q)) :
    HeapInv { h with mem := setNext (setIsFree h.mem b 0) c (nextAt (setIsFree h.mem b 0) b) } B (p ++ c :: q) ∧
      Kept h.mem B (setNext (setIsFree h.mem b 0) c (nextAt (setIsFree h.mem b 0) b)) B := by
  have hb : B b := hi.isBlock (by simp)
  have hc : B c := hi.isBlock (by simp)
  have hsplit : p ++ c :: b :: q = (p ++ [c]) ++ b :: q := by simp
  rw [show p ++ c :: q = (p ++ [c]) ++ q by simp]
  refine (hsplit ▸ hi).unlink (fun a ha => ?_) (fun a ha => ?_) (fun a ha => ?_) ?_
  · rw [hi.sep.size_setNext ha hc, hi.sep.size_setIsFree ha hb]
  · rw [hi.sep.magic_setNext ha hc, hi.sep.magic_setIsFree ha hb]
  · rw [hi.sep.isFree_setNext ha hc, hi.sep.isFree_setIsFree ha hb (by omega)]
  · rw [show (p ++ [c]) ++ q = p ++ c :: q by simp]
    refine hi.list.skip ?_ fun a ha => ?_
    · rw [nextAt_setIsFree]
      simp only [listNext, nextAt_setNext nextAt_lt]
    · obtain ⟨hba, hne⟩ := hi.other ((List.mem_append.mp ha).imp_right (List.mem_cons_of_mem _))
      simp only [listNext, hi.sep.next_setNext hba hc nextAt_lt, if_neg hne, hi.sep.next_setIsFree hba hb]

/-- **Putting a block** on the list. -/
theorem push (hi : HeapInv h B fl) (hb : B b) (h0 : isFreeAt h.mem b = 0) :
    HeapInv (pushFree h b) B (b :: fl) ∧ Kept h.mem (fun a => B a ∧ a ≠ b) (pushFree h b).mem B := by
  have hhead := hi.head_lt
  have hnot : b ∉ fl := by
    intro hm
    rw [hi.isFree hm] at h0
    cases h0
  have hsize : ∀ a, B a → sizeAt (pushFree h b).mem a = sizeAt h.mem a := by
    intro a ha
    exact (hi.sep.size_setNext ha hb).trans (hi.sep.size_setIsFree ha hb)
  have hflag : ∀ a, B a → isFreeAt (pushFree h b).mem a = if a = b then 1 else isFreeAt h.mem a := by
    intro a ha
    exact (hi.sep.isFree_setNext ha hb).trans (hi.sep.isFree_setIsFree ha hb (by omega))
  refine ⟨?_, fun a ha hf => ⟨ha.1, by rw [hflag a ha.1, if_neg ha.2, hf], hsize a ha.1⟩⟩
  constructor
  · exact hi.tiles.congr fun a ha => by simp only [extent, hsize a ha]
  · exact hi.low
  · intro a ha
    exact ((hi.sep.magic_setNext ha hb).trans (hi.sep.magic_setIsFree ha hb)).trans (hi.magic a ha)
  · intro a ha
    rw [hflag a ha]
    split
    · exact .inr rfl
    · exact hi.flag a ha
  · refine .cons (Nat.pos_iff_ne_zero.mp (hi.bounds hb).1) (congrArg some (nextAt_setNext hhead)) ?_
    refine hi.list.congr fun a ha => ?_
    have hne : a ≠ b := fun e => hnot (e ▸ ha)
    have hnext := hi.sep.next_setNext (m := setIsFree h.mem b 1) (hi.isBlock ha) hb hhead
    rw [if_neg hne, hi.sep.next_setIsFree (hi.isBlock ha) hb] at hnext
    exact congrArg some hnext
  · intro a
    by_cases he : a = b
    · subst he
      simp only [List.mem_cons_self, true_iff]
      exact ⟨hb, by rw [hflag a hb, if_pos rfl]⟩
    · rw [List.mem_cons, or_iff_right he, hi.free]
      refine and_congr_right fun ha => ?_
      rw [hflag a ha, if_neg he]
  · exact hi.base

/-- **Joining** two neighbours of one region, the first followed by the second on the list. -/
theorem merge {c d : Nat} (hi : HeapInv h B (p ++ c :: d :: q)) (hd : d = c + extent h.mem c)
    (hin : ∀ r ∈ h.regions, r.start ≠ d) {m' : Mem}
    (hm : m' = setNext (setSize h.mem c (wrap (sizeAt h.mem c + (headerSize + sizeAt h.mem d)))) c
      (nextAt (setSize h.mem c (wrap (sizeAt h.mem c + (headerSize + sizeAt h.mem d)))) d)) :
    HeapInv { h with mem := m' } (fun a => B a ∧ a ≠ d) (p ++ c :: q) ∧
      Kept h.mem B m' (fun a => B a ∧ a ≠ d) := by
  have hcl : c ∈ p ++ c :: d :: q := by simp
  have hdl : d ∈ p ++ c :: d :: q := by simp
  have hc := hi.isBlock hcl
  have hbd := hi.isBlock hdl
  have hs := hi.sep
  have hlt := (hi.bounds hbd).2
  have hcd : c ≠ d := by
    unfold extent headerSize at hd
    omega
  have hnew : sizeAt h.mem c + (headerSize + sizeAt h.mem d) < 2 ^ 64 := by
    unfold extent headerSize at hd
    unfold headerSize
    omega
  rw [wrap_of_lt hnew, hs.next_setSize hbd hc] at hm
  have hsize : ∀ a, B a → sizeAt m' a =
      if a = c then sizeAt h.mem c + (headerSize + sizeAt h.mem d) else sizeAt h.mem a := by
    intro a ha
    rw [hm, hs.size_setNext ha hc, hs.size_setSize ha hc hnew]
  have hflag : ∀ a, B a → isFreeAt m' a = isFreeAt h.mem a := by
    intro a ha
    rw [hm, hs.isFree_setNext ha hc, hs.isFree_setSize ha hc]
  have hnext : ∀ a, B a → nextAt m' a = if a = c then nextAt h.mem d else nextAt h.mem a := by
    intro a ha
    rw [hm, hs.next_setNext ha hc nextAt_lt, hs.next_setSize ha hc]
  have hkept : Kept h.mem B m' (fun a => B a ∧ a ≠ d) := by
    intro a ha h0
    have hac : a ≠ c := fun e => by
      rw [e, hi.isFree hcl] at h0
      cases h0
    have had : a ≠ d := fun e => by
      rw [e, hi.isFree hdl] at h0
      cases h0
    exact ⟨⟨ha, had⟩, (hflag a ha).trans h0, by rw [hsize a ha, if_neg hac]⟩
  refine ⟨?_, hkept⟩
  constructor
  · have htiles : Tiles (extent m') h.regions _ := hi.tiles.merge hc (hd ▸ hbd) (hd ▸ hin) ?_ ?_
    · rw [← hd] at htiles
      exact htiles
    · rw [← hd]
      simp only [extent, hsize c hc, if_true]
      omega
    · intro a ha hac _
      simp only [extent, hsize a ha, if_neg hac]
  · exact hi.low
  · rintro a ⟨ha, -⟩
    show magicAt m' a = heapMagic
    rw [hm, hs.magic_setNext ha hc, hs.magic_setSize ha hc]
    exact hi.magic a ha
  · rintro a ⟨ha, -⟩
    show isFreeAt m' a = 0 ∨ isFreeAt m' a = 1
    rw [hflag a ha]
    exact hi.flag a ha
  · refine hi.list.skip ?_ fun a ha => ?_
    · simp only [listNext, hnext c hc, if_true]
    · obtain ⟨hba, hne⟩ := hi.other ((List.mem_append.mp ha).imp_right (List.mem_cons_of_mem _))
      simp only [listNext, hnext a hba, if_neg hne]
  · intro a
    have hsplit : p ++ c :: d :: q = (p ++ [c]) ++ d :: q := by simp
    obtain ⟨hdp, hdq⟩ := (hsplit ▸ hi).not_mem
    rw [mem_remove_after hdp hdq, hi.free]
    show _ ↔ (B a ∧ a ≠ d) ∧ isFreeAt m' a = 1
    constructor
    · rintro ⟨⟨ha, hf⟩, hne⟩
      exact ⟨⟨ha, hne⟩, (hflag a ha).trans hf⟩
    · rintro ⟨⟨ha, hne⟩, hf⟩
      exact ⟨⟨ha, (hflag a ha).symm.trans hf⟩, hne⟩
  · exact hi.base

/-- A free block is cut, with `size` bytes left in it; the rest is a free block after it on the list. -/
theorem cut (hi : HeapInv h B (p ++ b :: q)) {size d : Nat} (hroom : size + 24 ≤ sizeAt h.mem b)
    (hd : d = b + 24 + size) {m' : Mem}
    (hm : m' = setNext (setSize (setHeader h.mem d (sizeAt h.mem b - size - 24) (nextAt h.mem b)) b size) b d) :
    HeapInv { h with mem := m' } (fun a => B a ∨ a = d) (p ++ b :: d :: q) ∧
      Kept h.mem B m' (fun a => B a ∨ a = d) ∧ sizeAt m' b = size := by
  have hbl : b ∈ p ++ b :: q := by simp
  have hb := hi.isBlock hbl
  have hbd := hi.bounds hb
  have hlt : size < 2 ^ 64 := by omega
  have hrem : sizeAt h.mem b - size - 24 < 2 ^ 64 := by omega
  obtain ⟨hnew, hs⟩ := hi.sep_within hb (d := d) (by omega) (by omega)
  have hb' : B b ∨ b = d := .inl hb
  have hd' : B d ∨ d = d := .inr rfl
  have hbne : b ≠ d := hnew b hb
  have hdb : d ≠ b := Ne.symm hbne
  have hold : ∀ a, B a → SameHeader h.mem (setHeader h.mem d (sizeAt h.mem b - size - 24) (nextAt h.mem b)) a :=
    fun a ha => hs.setHeader_other (.inl ha) hd' (hnew a ha)
  have hsize : ∀ a, B a → sizeAt m' a = if a = b then size else sizeAt h.mem a := by
    intro a ha
    rw [hm, hs.size_setNext (.inl ha) hb', hs.size_setSize (.inl ha) hb' hlt, (hold a ha).size]
  have hsize' : sizeAt m' d = sizeAt h.mem b - size - 24 := by
    rw [hm, hs.size_setNext hd' hb', hs.size_setSize hd' hb' hlt, if_neg hdb, sizeAt_setHeader hrem]
  have hflag : ∀ a, B a → isFreeAt m' a = isFreeAt h.mem a := by
    intro a ha
    rw [hm, hs.isFree_setNext (.inl ha) hb', hs.isFree_setSize (.inl ha) hb', (hold a ha).isFree]
  have hflag' : isFreeAt m' d = 1 := by
    rw [hm, hs.isFree_setNext hd' hb', hs.isFree_setSize hd' hb', isFreeAt_setHeader]
  have hnext : ∀ a, B a → nextAt m' a = if a = b then d else nextAt h.mem a := by
    intro a ha
    rw [hm, hs.next_setNext (.inl ha) hb' (by omega), hs.next_setSize (.inl ha) hb', (hold a ha).next]
  have hnext' : nextAt m' d = nextAt h.mem b := by
    rw [hm, hs.next_setNext hd' hb' (by omega), if_neg hdb, hs.next_setSize hd' hb', nextAt_setHeader nextAt_lt]
  refine ⟨?_, ?_, by rw [hsize b hb, if_pos rfl]⟩
  · constructor
    · have htiles : Tiles (extent m') h.regions _ := hi.tiles.split (b := b) (k := 24 + size) hb (by omega)
        (by unfold extent headerSize; omega) (by simp only [extent, hsize b hb, if_true]; rfl) ?_ ?_
      · rw [show b + (24 + size) = d by omega] at htiles
        exact htiles
      · rw [show b + (24 + size) = d by omega]
        simp only [extent, hsize', headerSize]
        omega
      · intro a ha hab
        simp only [extent, hsize a ha, if_neg hab]
    · exact hi.low
    · rintro a (ha | rfl)
      · show magicAt m' a = heapMagic
        rw [hm, hs.magic_setNext (.inl ha) hb', hs.magic_setSize (.inl ha) hb', (hold a ha).magic]
        exact hi.magic a ha
      · show magicAt m' a = heapMagic
        rw [hm, hs.magic_setNext hd' hb', hs.magic_setSize hd' hb', magicAt_setHeader]
    · rintro a (ha | rfl)
      · show isFreeAt m' a = 0 ∨ isFreeAt m' a = 1
        rw [hflag a ha]
        exact hi.flag a ha
      · exact .inr hflag'
    · refine hi.list.insert (by omega) ?_ ?_ ?_
      · simp only [listNext, hnext b hb, if_true]
      · simp only [listNext, hnext']
      · intro a ha
        obtain ⟨hba, hne⟩ := hi.other (List.mem_append.mp ha)
        simp only [listNext, hnext a hba, if_neg hne]
    · intro a
      rw [mem_insert_after, hi.free]
      show _ ↔ (B a ∨ a = d) ∧ isFreeAt m' a = 1
      constructor
      · rintro (⟨ha, hf⟩ | rfl)
        · exact ⟨.inl ha, (hflag a ha).trans hf⟩
        · exact ⟨hd', hflag'⟩
      · rintro ⟨ha | rfl, hf⟩
        · exact .inl ⟨ha, (hflag a ha).symm.trans hf⟩
        · exact .inr rfl
    · exact hi.base
  · intro a ha h0
    have hab : a ≠ b := fun e => by
      rw [e, hi.isFree hbl] at h0
      cases h0
    exact ⟨.inl ha, (hflag a ha).trans h0, by rw [hsize a ha, if_neg hab]⟩

/-- **Cutting** a free block, which keeps `size` bytes, or leaving it whole when what remains is too small. -/
theorem split (hi : HeapInv h B (p ++ b :: q)) {size : Nat} (hroom : size + 24 ≤ sizeAt h.mem b) :
    ∃ B' q', HeapInv { h with mem := splitBlock h.mem b size } B' (p ++ b :: q') ∧
      Kept h.mem B (splitBlock h.mem b size) B' ∧ size ≤ sizeAt (splitBlock h.mem b size) b ∧
      ∀ a, B' a → B a ∨ a = b + 24 + size := by
  have hbl : b ∈ p ++ b :: q := by simp
  have hb := hi.isBlock hbl
  have hbd := hi.bounds hb
  have hrem : minus (minus (sizeAt h.mem b) size) headerSize = sizeAt h.mem b - size - 24 := by
    rw [minus_of_le sizeAt_lt (by omega), minus_of_le (by omega) (by unfold headerSize; omega)]
    rfl
  by_cases hmin : sizeAt h.mem b - size - 24 ≥ minBlockSize
  · have hd : wrap (b + headerSize + size) = b + 24 + size := wrap_of_lt (by unfold headerSize; omega)
    have hnext : nextAt (setSize h.mem (b + 24 + size) (sizeAt h.mem b - size - 24)) b = nextAt h.mem b :=
      Mem.loadLE_storeLE_out (by omega)
    have heq : splitBlock h.mem b size =
        setNext (setSize (setHeader h.mem (b + 24 + size) (sizeAt h.mem b - size - 24) (nextAt h.mem b)) b size) b
          (b + 24 + size) := by
      unfold splitBlock
      simp only [hrem, if_pos hmin, hd, hnext, setHeader]
    obtain ⟨hinv, hkept, hsize⟩ := hi.cut hroom rfl heq
    exact ⟨_, _, hinv, hkept, hsize.ge, fun _ ha => ha⟩
  · have hsame : splitBlock h.mem b size = h.mem := by
      unfold splitBlock
      rw [hrem]
      exact if_neg hmin
    rw [hsame]
    exact ⟨B, q, hi, Kept.refl _ _, by omega, fun _ => .inl⟩

end HeapInv

/-- What `pmm_alloc_pages` hands out: memory that the heap does not have yet. -/
def FreshPages (h : Heap) (newMem pages : Nat) : Prop :=
  0 < newMem ∧ newMem + pages * 4096 < 2 ^ 64 ∧
    ∀ r ∈ h.regions, newMem + pages * 4096 ≤ r.start ∨ r.stop ≤ newMem

/-- **New pages** become a region of one free block, the first of the list. -/
theorem HeapInv.grow (hi : HeapInv h B fl) {d pages : Nat} (hpages : 0 < pages) (hf : FreshPages h d pages) :
    HeapInv (grow h d pages) (fun a => B a ∨ a = d) (d :: fl) ∧
      (∀ a, B a → SameHeader h.mem (Memory.grow h d pages).mem a) ∧
      sizeAt (Memory.grow h d pages).mem d = pages * 4096 - 24 := by
  obtain ⟨hd0, hlt, hap⟩ := hf
  have hin : ∀ a, B a → a + 24 + sizeAt h.mem a ≤ d ∨ d + pages * 4096 ≤ a := by
    intro a ha
    obtain ⟨r, hr, h1, h2⟩ := hi.tiles.inside a ha
    have hr' := hap r hr
    unfold extent headerSize at h2
    omega
  have hnew : ∀ a, B a → a ≠ d := by
    intro a ha he
    have ho := hin a ha
    omega
  have hnot : d ∉ fl := fun hm => hnew d (hi.isBlock hm) rfl
  have hold : ∀ a, B a → SameHeader h.mem (Memory.grow h d pages).mem a := by
    intro a ha x h1 h2
    have ho := hin a ha
    show setHeader _ _ _ _ x = _
    rw [setHeader_out (by omega), Mem.store_out (by omega)]
  have hw : wrap (pages * 4096 - headerSize) = pages * 4096 - 24 := wrap_of_lt (by unfold headerSize; omega)
  have hsize : sizeAt (Memory.grow h d pages).mem d = pages * 4096 - 24 := by
    show sizeAt (setHeader _ _ _ _) d = _
    rw [hw, sizeAt_setHeader (by omega)]
  have hflag : isFreeAt (Memory.grow h d pages).mem d = 1 := isFreeAt_setHeader
  refine ⟨?_, hold, hsize⟩
  constructor
  · refine hi.tiles.add (r := ⟨d, d + pages * 4096⟩) (by show d < d + _; omega) hap ?_ fun a ha => ?_
    · show extent (Memory.grow h d pages).mem d = d + pages * 4096 - d
      simp only [extent, hsize, headerSize]
      omega
    · simp only [extent, (hold a ha).size]
  · intro r hr
    rcases List.mem_cons.mp hr with rfl | hr
    · exact ⟨hd0, hlt⟩
    · exact hi.low r hr
  · rintro a (ha | rfl)
    · exact (hold a ha).magic.trans (hi.magic a ha)
    · exact magicAt_setHeader
  · rintro a (ha | rfl)
    · rw [(hold a ha).isFree]
      exact hi.flag a ha
    · exact .inr hflag
  · refine .cons (Nat.pos_iff_ne_zero.mp hd0) (congrArg some (nextAt_setHeader hi.head_lt)) ?_
    refine hi.list.congr fun a ha => ?_
    exact congrArg some (hold a (hi.isBlock ha)).next
  · intro a
    rw [List.mem_cons, hi.free]
    constructor
    · rintro (rfl | ⟨ha, hf⟩)
      · exact ⟨.inr rfl, hflag⟩
      · exact ⟨.inl ha, (hold a ha).isFree.trans hf⟩
    · rintro ⟨ha | rfl, hf⟩
      · exact .inr ⟨ha, (hold a ha).isFree.symm.trans hf⟩
      · exact .inl rfl
  · obtain ⟨r, hr, he⟩ := hi.base
    exact ⟨r, List.mem_cons_of_mem _ hr, he⟩

/-- The heap of `init_kernel_heap`: one region, one block. -/
theorem initKernelHeap_inv {mem : Mem} {base : Nat} (h0 : 0 < base) (hlt : base + 16 * 4096 < 2 ^ 64) :
    HeapInv (initKernelHeap mem base) (fun a => a = base) [base] := by
  have hsize : sizeAt (initKernelHeap mem base).mem base = 16 * 4096 - 24 := sizeAt_setHeader (by decide)
  have hext : extent (initKernelHeap mem base).mem base = 16 * 4096 := by
    simp only [extent, hsize, headerSize]
  have hflag : isFreeAt (initKernelHeap mem base).mem base = 1 := isFreeAt_setHeader
  constructor
  · constructor
    · intro r hr
      obtain rfl := List.mem_singleton.mp hr
      show base < base + _
      omega
    · intro r hr r' hr' hne
      exact absurd ((List.mem_singleton.mp hr).trans (List.mem_singleton.mp hr').symm) hne
    · rintro a rfl
      rw [hext]
      omega
    · intro r hr
      obtain rfl := List.mem_singleton.mp hr
      rfl
    · rintro a rfl
      exact ⟨_, List.mem_singleton.mpr rfl, le_refl _, by rw [hext]⟩
    · rintro a rfl r hr _ _
      obtain rfl := List.mem_singleton.mp hr
      exact .inl (by rw [hext])
    · rintro a b rfl rfl hab
      omega
  · intro r hr
    obtain rfl := List.mem_singleton.mp hr
    exact ⟨h0, hlt⟩
  · rintro a rfl
    exact magicAt_setHeader
  · rintro a rfl
    exact .inr hflag
  · exact .cons (Nat.pos_iff_ne_zero.mp h0) (congrArg some (nextAt_setHeader (by omega))) .nil
  · intro a
    rw [List.mem_singleton]
    constructor
    · rintro rfl
      exact ⟨rfl, hflag⟩
    · exact And.left
  · exact ⟨_, List.mem_singleton.mpr rfl, rfl⟩

end Inv

end AmqOs.Memory
