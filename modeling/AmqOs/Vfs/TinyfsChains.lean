import AmqOs.Lib.Chain
import AmqOs.Vfs.TinyfsCodec

/-!
# Block chains

The blocks of a file are a chain of the allocation table that ends in `EOF`. `Inv d live ch` is the invariant that
ties the table and the directory together: `ch i` is the chain of entry `i`, chains stay in the data area and share no
block, and a file's size fits its chain. It is stated for a set `live` of entries: the used ones for a well-formed
filesystem (`WellFormed`), all of them for what runs keep (writes through old nodes also reach entries that are no
longer used). `Counted d` says that the counter of free blocks is right.

One step lemma for each way the table changes: `allocateBlock_spec`, `nextBlock_spec`, `free_spec`.
-/

set_option autoImplicit false

namespace AmqOs.Vfs

open AmqOs.Lib

/-! ## The table as a successor map -/

/-- The block after `b`. -/
def fatNext (fat : Vector UInt32 1024) (b : Nat) : Option Nat := fat[b]?.map UInt32.toNat

/-- The blocks from `b` to the end marker. -/
abbrev FatChain (fat : Vector UInt32 1024) (b : Nat) (l : List Nat) : Prop := ChainTo (fatNext fat) eof.toNat b l

/-- The free blocks of the data area. -/
def freeSet (fat : Vector UInt32 1024) : Finset Nat := (Finset.Ico 101 1024).filter fun b => fat[b]? = some 0

/-- The table with one entry changed. -/
def fatPut (fat : Vector UInt32 1024) (b : Nat) (v : UInt32) : Vector UInt32 1024 := fat.setIfInBounds b v

section Table

variable {fat fat' : Vector UInt32 1024} {b k : Nat} {v : UInt32}

theorem mem_freeSet : b ∈ freeSet fat ↔ 101 ≤ b ∧ b < 1024 ∧ fat[b]? = some 0 := by
  simp [freeSet, and_assoc]

theorem fatPut_getElem? (hb : b < 1024) : (fatPut fat b v)[k]? = if b = k then some v else fat[k]? := by
  unfold fatPut
  rw [Vector.getElem?_setIfInBounds]
  split <;> simp_all

theorem fatPut_self (hb : b < 1024) : (fatPut fat b v)[b]? = some v := by rw [fatPut_getElem? hb, if_pos rfl]

theorem fatPut_of_ne (hb : b < 1024) (h : k ≠ b) : (fatPut fat b v)[k]? = fat[k]? := by
  rw [fatPut_getElem? hb, if_neg (Ne.symm h)]

theorem fatNext_congr (h : fat'[b]? = fat[b]?) : fatNext fat' b = fatNext fat b := by
  unfold fatNext
  rw [h]

theorem getElem?_of_fatNext (h : fatNext fat b = some k) : ∃ v, fat[b]? = some v ∧ v.toNat = k := by
  simpa [fatNext] using h

/-- A block with a successor in the table is not free. -/
theorem not_free_of_fatNext (h : fatNext fat b = some k) (hk : k ≠ 0) : b ∉ freeSet fat := by
  intro hf
  obtain ⟨_, _, h0⟩ := mem_freeSet.mp hf
  obtain ⟨v, hv, rfl⟩ := getElem?_of_fatNext h
  rw [h0] at hv
  cases hv
  exact hk rfl

theorem freeSet_put (hb' : b < 1024) (hv : v ≠ 0) : freeSet (fatPut fat b v) = (freeSet fat).erase b := by
  ext k
  rw [Finset.mem_erase, mem_freeSet, mem_freeSet, fatPut_getElem? hb']
  by_cases hk : b = k
  · subst hk
    simp [hv]
  · simp [hk, Ne.symm hk]

theorem card_freeSet_le : (freeSet fat).card ≤ 923 := by
  have h := Finset.card_filter_le (Finset.Ico 101 1024) fun b => fat[b]? = some 0
  simpa [freeSet] using h

end Table

/-! ## The invariant -/

/-- The layout that `tinyfs_format` writes. -/
structure Layout (sb : Superblock) : Prop extends Placed sb where
  totalBlocks : sb.totalBlocks = 1024
  dataStart : sb.dataStart = 101

/-- `c` is the chain of blocks of entry `i`. -/
structure EntryChain (d : TinyfsData) (i : Fin 256) (c : List Nat) : Prop where
  empty : (d.dirents.get i).firstBlock = 0 → c = []
  chain : (d.dirents.get i).firstBlock ≠ 0 → c ≠ [] ∧ FatChain d.fat (d.dirents.get i).firstBlock.toNat c
  range : ∀ b ∈ c, 101 ≤ b ∧ b < 1024
  size : (d.dirents.get i).size.toNat ≤ 512 * c.length

/-- `ch i` is the chain of entry `i`, for the entries in `live`, and no two share a block. -/
structure Chains (d : TinyfsData) (live : Fin 256 → Prop) (ch : Fin 256 → List Nat) : Prop where
  entry : ∀ i, live i → EntryChain d i (ch i)
  disjoint : ∀ i j, live i → live j → i ≠ j → List.Disjoint (ch i) (ch j)

/-- Table and directory agree. -/
structure Inv (d : TinyfsData) (live : Fin 256 → Prop) (ch : Fin 256 → List Nat) : Prop where
  layout : Layout d.sb
  chains : Chains d live ch

/-- `free_blocks` is the number of free blocks. -/
def Counted (d : TinyfsData) : Prop := d.sb.freeBlocks.toNat = (freeSet d.fat).card

/-- The entries in use. -/
def usedEntry (d : TinyfsData) (i : Fin 256) : Prop := (d.dirents.get i).used ≠ 0

instance (d : TinyfsData) (i : Fin 256) : Decidable (usedEntry d i) :=
  inferInstanceAs (Decidable ((d.dirents.get i).used ≠ 0))

/-- **A well-formed filesystem**: every used entry with blocks has a chain of blocks of the data area that ends in
`EOF` (so its blocks are distinct, `Inv.nodup`), the chains share no block and the sizes fit. -/
def WellFormed (d : TinyfsData) : Prop := ∃ ch, Inv d (usedEntry d) ch

section Invariant

variable {d d' : TinyfsData} {live live' : Fin 256 → Prop} {ch : Fin 256 → List Nat} {i : Fin 256} {b : Nat}

theorem Inv.mono (h : Inv d live ch) (hl : ∀ i, live' i → live i) : Inv d live' ch :=
  ⟨h.layout, fun i hi => h.chains.entry i (hl i hi),
    fun i j hi hj => h.chains.disjoint i j (hl i hi) (hl j hj)⟩

theorem Inv.range (h : Inv d live ch) (hi : live i) (hb : b ∈ ch i) : 101 ≤ b ∧ b < 1024 :=
  (h.chains.entry i hi).range b hb

/-- The chain of an entry with blocks. -/
theorem EntryChain.fatChain {c : List Nat} (h : EntryChain d i c) (hne : c ≠ []) :
    (d.dirents.get i).firstBlock ≠ 0 ∧ FatChain d.fat (d.dirents.get i).firstBlock.toNat c := by
  have h0 : (d.dirents.get i).firstBlock ≠ 0 := fun e => hne (h.empty e)
  exact ⟨h0, (h.chain h0).2⟩

theorem Inv.fatChain (h : Inv d live ch) (hi : live i) (hne : ch i ≠ []) :
    (d.dirents.get i).firstBlock ≠ 0 ∧ FatChain d.fat (d.dirents.get i).firstBlock.toNat (ch i) :=
  (h.chains.entry i hi).fatChain hne

/-- An entry's chain depends on the entry and on the table at its own blocks. -/
theorem EntryChain.congr {c : List Nat} (h : EntryChain d i c) (hd : d'.dirents.get i = d.dirents.get i)
    (hf : ∀ x ∈ c, d'.fat[x]? = d.fat[x]?) : EntryChain d' i c := by
  refine ⟨fun h0 => h.empty (hd ▸ h0), fun h0 => ?_, h.range, by rw [hd]; exact h.size⟩
  rw [hd] at h0 ⊢
  exact ⟨(h.chain h0).1, (h.chain h0).2.congr fun x hx => fatNext_congr (hf x hx)⟩

/-- The chain of one entry is replaced, the others are untouched. -/
theorem Chains.replace {c : List Nat} (h : Chains d live ch) (hl : ∀ j, j ≠ i → live' j → live j)
    (hd : ∀ j, j ≠ i → d'.dirents.get j = d.dirents.get j)
    (hf : ∀ j, j ≠ i → live j → ∀ x ∈ ch j, d'.fat[x]? = d.fat[x]?) (hself : live' i → EntryChain d' i c)
    (hdisj : ∀ j, j ≠ i → live j → List.Disjoint c (ch j)) : Chains d' live' (Function.update ch i c) := by
  refine ⟨fun j hj => ?_, fun j k hj hk hjk => ?_⟩
  · by_cases hji : j = i
    · subst hji
      rw [Function.update_self]
      exact hself hj
    · rw [Function.update_of_ne hji]
      exact (h.entry j (hl j hji hj)).congr (hd j hji) (hf j hji (hl j hji hj))
  · by_cases hji : j = i
    · subst hji
      rw [Function.update_self, Function.update_of_ne (Ne.symm hjk)]
      exact hdisj k (Ne.symm hjk) (hl k (Ne.symm hjk) hk)
    · rw [Function.update_of_ne hji]
      by_cases hki : k = i
      · subst hki
        rw [Function.update_self]
        exact (hdisj j hji (hl j hji hj)).symm
      · rw [Function.update_of_ne hki]
        exact h.disjoint j k (hl j hji hj) (hl k hki hk) hjk

theorem Inv.nodup (h : Inv d live ch) (hi : live i) : (ch i).Nodup := by
  by_cases hne : ch i = []
  · rw [hne]
    exact List.nodup_nil
  · exact (h.fatChain hi hne).2.nodup

theorem eof_toNat : eof.toNat = 16777215 := rfl

theorem Inv.ne_eof {x : UInt32} (h : Inv d live ch) (hi : live i) (hx : x.toNat ∈ ch i) : x ≠ eof := by
  rintro rfl
  have hr := h.range hi hx
  rw [eof_toNat] at hr
  omega

theorem formatSuperblock_layout : Layout formatSuperblock := ⟨⟨rfl, rfl, rfl⟩, rfl, rfl⟩

/-- Entries without blocks have empty chains. -/
theorem inv_of_empty (live : Fin 256 → Prop) (hl : Layout d.sb)
    (h : ∀ i, (d.dirents.get i).firstBlock = 0 ∧ (d.dirents.get i).size = 0) : Inv d live fun _ => [] := by
  refine ⟨hl, fun i _ => ⟨fun _ => rfl, fun h0 => absurd (h i).1 h0, by simp, ?_⟩,
    fun i j _ _ _ => List.disjoint_nil_left _⟩
  rw [(h i).2]
  exact Nat.zero_le _

/-- No block of a chain is free. -/
theorem Inv.not_free (h : Inv d live ch) (hi : live i) (hb : b ∈ ch i) : b ∉ freeSet d.fat := by
  have hc := (h.fatChain hi (List.ne_nil_of_mem hb)).2
  obtain ⟨k, hk, rfl⟩ := List.getElem_of_mem hb
  by_cases hlast : k + 1 = (ch i).length
  · exact not_free_of_fatNext (hc.next_last hlast) (by rw [eof_toNat]; omega)
  · have hk' : k + 1 < (ch i).length := by omega
    have hr := h.range hi (List.getElem_mem hk')
    exact not_free_of_fatNext (hc.next_getElem hk') (by omega)

end Invariant

/-! ## Allocation -/

section Allocation

variable {d d' : TinyfsData} {live : Fin 256 → Prop} {ch : Fin 256 → List Nat} {i : Fin 256}

theorem fatGet_eq {b : UInt32} {v : UInt32} (h : d.fat[b.toNat]? = some v) : d.fatGet b = .ok v := by
  simp [TinyfsData.fatGet, h]

theorem fatSet_eq {b v : UInt32} (h : b.toNat < 1024) :
    d.fatSet b v = .ok { d with fat := fatPut d.fat b.toNat v } := by
  have he : d.fat.set b.toNat v h = fatPut d.fat b.toNat v := by
    ext k hk
    simp [fatPut, Vector.getElem_set, Vector.getElem_setIfInBounds]
  simp [TinyfsData.fatSet, h, he]

/-- The state after block `b` has been taken from the free blocks. -/
def takeBlock (d : TinyfsData) (b : Nat) : TinyfsData :=
  { d with fat := fatPut d.fat b eof, sb := { d.sb with freeBlocks := d.sb.freeBlocks - 1 } }

/-- **Allocation**: the first free block becomes a chain of its own, or there is none. -/
theorem allocateBlock_spec (hl : Layout d.sb) :
    (freeSet d.fat = ∅ ∧ allocateBlock d = .ok (none, d)) ∨
      ∃ b ∈ freeSet d.fat, allocateBlock d = .ok (some (UInt32.ofNat b), takeBlock d b) := by
  have hlo : d.sb.dataStart.toNat = 101 := by rw [hl.dataStart]; rfl
  have hhi : d.sb.totalBlocks.toNat = 1024 := by rw [hl.totalBlocks]; rfl
  unfold allocateBlock
  rw [hlo, hhi]
  cases hf : firstFrom 101 1024 (fun i => (d.fat[i]?).all (· == 0)) with
  | none =>
    left
    refine ⟨?_, rfl⟩
    rw [firstFrom_eq_none] at hf
    refine Finset.eq_empty_of_forall_notMem fun b hb => ?_
    obtain ⟨h1, h2, h3⟩ := mem_freeSet.mp hb
    simpa [h3] using hf b h1 h2
  | some b =>
    right
    obtain ⟨h1, h2, h3, _⟩ := firstFrom_eq_some.mp hf
    have hz : d.fat[b]? = some 0 := by
      rw [getElem?_of_lt _ h2] at h3 ⊢
      simpa using h3
    have hn : (UInt32.ofNat b).toNat = b := by rw [UInt32.toNat_ofNat']; omega
    refine ⟨b, mem_freeSet.mpr ⟨h1, h2, hz⟩, ?_⟩
    simp [fatSet_eq (show (UInt32.ofNat b).toNat < 1024 by omega), hn, takeBlock, TinyfsData.setFree]

theorem takeBlock_free {b : Nat} (hb : b ∈ freeSet d.fat) :
    freeSet (takeBlock d b).fat = (freeSet d.fat).erase b :=
  freeSet_put (mem_freeSet.mp hb).2.1 (by decide)

/-- The chain of entry `i` has been lengthened by the blocks `new`. -/
structure Grown (d : TinyfsData) (live : Fin 256 → Prop) (ch : Fin 256 → List Nat) (i : Fin 256) (new : List Nat)
    (d' : TinyfsData) : Prop where
  inv : Inv d' live (Function.update ch i (ch i ++ new))
  self : ∃ fb, d'.dirents.get i = { d.dirents.get i with firstBlock := fb }
  other : ∀ j, j ≠ i → d'.dirents.get j = d.dirents.get j
  fresh : ∀ b ∈ new, b ∈ freeSet d.fat
  free : freeSet d'.fat = freeSet d.fat \ new.toFinset
  counter : d'.sb.freeBlocks = d.sb.freeBlocks - UInt32.ofNat new.length
  same : new = [] → d' = d

theorem Grown.refl (h : Inv d live ch) (i : Fin 256) : Grown d live ch i [] d :=
  ⟨by simpa using h, ⟨_, rfl⟩, fun _ _ => rfl, by simp, by simp, by simp, fun _ => rfl⟩

theorem Grown.trans {d₁ d₂ : TinyfsData} {new₁ new₂ : List Nat} (h₁ : Grown d live ch i new₁ d₁)
    (h₂ : Grown d₁ live (Function.update ch i (ch i ++ new₁)) i new₂ d₂) :
    Grown d live ch i (new₁ ++ new₂) d₂ := by
  obtain ⟨fb₁, e₁⟩ := h₁.self
  obtain ⟨fb₂, e₂⟩ := h₂.self
  refine ⟨by simpa using h₂.inv, ⟨fb₂, by rw [e₂, e₁]⟩, fun j hj => (h₂.other j hj).trans (h₁.other j hj),
    fun b hb => ?_, ?_, ?_, fun he => ?_⟩
  · rcases List.mem_append.mp hb with hb | hb
    · exact h₁.fresh b hb
    · exact (Finset.mem_sdiff.mp (h₁.free ▸ h₂.fresh b hb)).1
  · rw [h₂.free, h₁.free, List.toFinset_append, sdiff_sdiff_left, Finset.sup_eq_union]
  · rw [h₂.counter, h₁.counter, List.length_append, UInt32.ofNat_add, UInt32.sub_eq_add_neg,
      UInt32.sub_eq_add_neg, UInt32.sub_eq_add_neg, UInt32.neg_add, UInt32.sub_eq_add_neg, UInt32.add_assoc]
  · obtain ⟨he₁, he₂⟩ := List.append_eq_nil_iff.mp he
    rw [h₂.same he₂, h₁.same he₁]

/-- Every new block of a chain has left the free ones. -/
theorem card_freeSet_taken {fat fat' : Vector UInt32 1024} {c new : List Nat} (hnd : (c ++ new).Nodup)
    (hfresh : ∀ b ∈ new, b ∈ freeSet fat) (hfree : freeSet fat' = freeSet fat \ new.toFinset) :
    (freeSet fat').card + new.length = (freeSet fat).card := by
  have hsub : new.toFinset ⊆ freeSet fat := fun b hb => hfresh b (List.mem_toFinset.mp hb)
  rw [hfree, ← List.toFinset_card_of_nodup (List.nodup_append.mp hnd).2.1]
  exact Finset.card_sdiff_add_card_eq_card hsub

theorem Grown.card {new : List Nat} (h : Grown d live ch i new d') (hi : live i) :
    (freeSet d'.fat).card + new.length = (freeSet d.fat).card :=
  card_freeSet_taken (by simpa using h.inv.nodup hi) h.fresh h.free

theorem Grown.counted {new : List Nat} (h : Grown d live ch i new d') (hi : live i) (hc : Counted d) :
    Counted d' := by
  have hcard := h.card hi
  have hle := @card_freeSet_le d.fat
  unfold Counted at hc ⊢
  rw [h.counter, UInt32.toNat_sub, UInt32.toNat_ofNat']
  omega

/-- Taking a free block leaves the chains as they are. -/
theorem Inv.take (h : Inv d live ch) {b : Nat} (hb : b ∈ freeSet d.fat) : Inv (takeBlock d b) live ch := by
  obtain ⟨h1, h2, _⟩ := mem_freeSet.mp hb
  refine ⟨⟨⟨h.layout.magic, h.layout.fatStart, h.layout.dirStart⟩, h.layout.totalBlocks, h.layout.dataStart⟩,
    fun j hj => ?_, h.chains.disjoint⟩
  refine (h.chains.entry j hj).congr rfl fun x hx => fatPut_of_ne h2 fun e => ?_
  exact h.not_free hj hx (e ▸ hb)

/-- Linking a block of its own to the last block of a chain. -/
theorem Inv.link (h : Inv d live ch) (hi : live i) {l : List Nat} {x b : Nat} (hch : ch i = l ++ [x])
    (hb : 101 ≤ b ∧ b < 1024) (hend : d.fat[b]? = some eof) (hnew : ∀ j, live j → b ∉ ch j) :
    Inv { d with fat := fatPut d.fat x (UInt32.ofNat b) } live (Function.update ch i (ch i ++ [b])) := by
  have hxi : x ∈ ch i := by simp [hch]
  have hx : 101 ≤ x ∧ x < 1024 := h.range hi hxi
  have hne : ch i ≠ [] := by simp [hch]
  have hbn : (UInt32.ofNat b).toNat = b := by rw [UInt32.toNat_ofNat']; omega
  have hxb : x ≠ b := fun e => hnew i hi (e ▸ hxi)
  have hnd : (l ++ [x]).Nodup := hch ▸ h.nodup hi
  -- the lengthened chain
  have hchain : FatChain (fatPut d.fat x (UInt32.ofNat b)) (d.dirents.get i).firstBlock.toNat (l ++ [x, b]) := by
    have hold : FatChain d.fat (d.dirents.get i).firstBlock.toNat (l ++ [x]) := hch ▸ (h.fatChain hi hne).2
    refine hold.snoc (by rw [eof_toNat]; omega) (fun z hz => fatNext_congr (fatPut_of_ne hx.2 fun e => ?_))
      (by simp [fatNext, fatPut_self hx.2, hbn]) (by simp [fatNext, fatPut_of_ne hx.2 (Ne.symm hxb), hend])
    subst e
    exact (List.nodup_append.mp hnd).2.2 z hz z (by simp) rfl
  refine ⟨⟨⟨h.layout.magic, h.layout.fatStart, h.layout.dirStart⟩, h.layout.totalBlocks, h.layout.dataStart⟩, ?_⟩
  refine h.chains.replace (fun _ _ hj => hj) (fun _ _ => rfl) (fun j hji hj z hz => ?_) (fun _ => ?_) fun j hji hj => ?_
  · exact fatPut_of_ne hx.2 fun e => h.chains.disjoint i j hi hj (Ne.symm hji) hxi (e ▸ hz)
  · refine ⟨fun h0 => absurd h0 (h.fatChain hi hne).1, fun _ => ⟨by simp, by simpa [hch] using hchain⟩, ?_, ?_⟩
    · intro c hc
      rcases List.mem_append.mp hc with hc | hc
      · exact h.range hi hc
      · rw [List.mem_singleton.mp hc]
        exact hb
    · have hs := (h.chains.entry i hi).size
      simp only [List.length_append, List.length_singleton]
      omega
  · intro c hci hcj
    rcases List.mem_append.mp hci with hc | hc
    · exact h.chains.disjoint i j hi hj (Ne.symm hji) hc hcj
    · rw [List.mem_singleton.mp hc] at hcj
      exact hnew j hj hcj

/-- The table at a block of a chain: the next block, or the end marker at the last one. -/
theorem fatGet_chain (h : Inv d live ch) (hi : live i) {cur : UInt32} {k : Nat}
    (hcur : (ch i)[k]? = some cur.toNat) :
    ∃ v, d.fatGet cur = .ok v ∧ (v = eof ∧ k + 1 = (ch i).length ∨ (ch i)[k + 1]? = some v.toNat) := by
  obtain ⟨hk, hck⟩ := List.getElem?_eq_some_iff.mp hcur
  have hc := (h.fatChain hi (List.ne_nil_of_mem (List.mem_of_getElem? hcur))).2
  by_cases hlast : k + 1 = (ch i).length
  · obtain ⟨v, hv, hve⟩ := getElem?_of_fatNext (hc.next_last hlast)
    exact ⟨v, fatGet_eq (hck ▸ hv), .inl ⟨UInt32.toNat_inj.mp hve, hlast⟩⟩
  · have hk' : k + 1 < (ch i).length := by omega
    obtain ⟨v, hv, hve⟩ := getElem?_of_fatNext (hc.next_getElem hk')
    exact ⟨v, fatGet_eq (hck ▸ hv), .inr (by rw [List.getElem?_eq_getElem hk', hve])⟩

/-- The three outcomes of going on to the next block: it exists, it is allocated, or the disk is full. -/
theorem nextBlock_spec (h : Inv d live ch) (hi : live i) {cur : UInt32} {k : Nat}
    (hcur : (ch i)[k]? = some cur.toNat) :
    (∃ nxt, nextBlock d cur = .ok (some nxt, d) ∧ (ch i)[k + 1]? = some nxt.toNat) ∨
    (k + 1 = (ch i).length ∧ ∃ b d', nextBlock d cur = .ok (some b, d') ∧ Grown d live ch i [b.toNat] d') ∨
    (k + 1 = (ch i).length ∧ freeSet d.fat = ∅ ∧ nextBlock d cur = .ok (none, d)) := by
  obtain ⟨hk, hck⟩ := List.getElem?_eq_some_iff.mp hcur
  have hmem : cur.toNat ∈ ch i := List.mem_of_getElem? hcur
  have hr := h.range hi hmem
  obtain ⟨v, hv, ⟨rfl, hlast⟩ | hnext⟩ := fatGet_chain h hi hcur
  · right
    rcases allocateBlock_spec h.layout with ⟨hf, ha⟩ | ⟨b, hb, ha⟩
    · right
      exact ⟨hlast, hf, by simp [nextBlock, hv, ha]⟩
    · left
      obtain ⟨h1, h2, h3⟩ := mem_freeSet.mp hb
      have hbn : (UInt32.ofNat b).toNat = b := by rw [UInt32.toNat_ofNat']; omega
      have hsplit : ch i = (ch i).take k ++ [cur.toNat] := by
        rw [← hck, List.take_append_getElem hk, hlast, List.take_length]
      have hnew : ∀ j, live j → b ∉ ch j := fun j hj hm => h.not_free hj hm hb
      have hlink := (h.take hb).link hi hsplit ⟨h1, h2⟩ (fatPut_self h2) hnew
      have hfree : freeSet (fatPut (takeBlock d b).fat cur.toNat (UInt32.ofNat b)) = (freeSet d.fat).erase b := by
        rw [freeSet_put hr.2 fun e => by rw [e] at hbn; simp at hbn; omega, takeBlock_free hb]
        exact Finset.erase_eq_of_notMem fun hm => h.not_free hi hmem (Finset.mem_of_mem_erase hm)
      have hset : (takeBlock d b).fatSet cur (UInt32.ofNat b) =
          .ok { takeBlock d b with fat := fatPut (takeBlock d b).fat cur.toNat (UInt32.ofNat b) } :=
        fatSet_eq (by omega)
      have hget : ({ takeBlock d b with fat := fatPut (takeBlock d b).fat cur.toNat (UInt32.ofNat b) }).fatGet cur =
          .ok (UInt32.ofNat b) := fatGet_eq (fatPut_self (by omega))
      refine ⟨hlast, UInt32.ofNat b,
        { takeBlock d b with fat := fatPut (takeBlock d b).fat cur.toNat (UInt32.ofNat b) }, ?_,
        by rw [hbn]; exact hlink, ⟨_, rfl⟩, fun _ _ => rfl, ?_, ?_, rfl, fun e => absurd e (by simp)⟩
      · simp only [nextBlock, hv, ok_bind, if_true, ha, hset, hget]
      · simpa [hbn] using hb
      · simp only [hfree, hbn, List.toFinset_cons, List.toFinset_nil, insert_empty_eq, Finset.sdiff_singleton_eq_erase]
  · left
    have hr' := h.range hi (List.mem_of_getElem? hnext)
    have hvne : v ≠ eof := fun e => by
      rw [e, eof_toNat] at hr'
      omega
    exact ⟨v, by simp [nextBlock, hv, hvne], hnext⟩

end Allocation

/-! ## Freeing -/

section Freeing

variable {d : TinyfsData} {live live' : Fin 256 → Prop} {ch : Fin 256 → List Nat} {i : Fin 256}

@[simp] theorem modifyDirent_self (d : TinyfsData) (i : Fin 256) (f : Dirent → Dirent) :
    (d.modifyDirent i f).dirents.get i = f (d.dirents.get i) := by
  simp [TinyfsData.modifyDirent]

theorem modifyDirent_of_ne (d : TinyfsData) {i j : Fin 256} (f : Dirent → Dirent) (h : j ≠ i) :
    (d.modifyDirent i f).dirents.get j = d.dirents.get j :=
  get_setAt_of_ne _ _ h

@[simp] theorem modifyDirent_fat (d : TinyfsData) (i : Fin 256) (f : Dirent → Dirent) :
    (d.modifyDirent i f).fat = d.fat := rfl

@[simp] theorem modifyDirent_sb (d : TinyfsData) (i : Fin 256) (f : Dirent → Dirent) :
    (d.modifyDirent i f).sb = d.sb := rfl

/-- The loop clears the entries of the chain and counts them. -/
theorem freeLoop_spec {l : List Nat} {cur : UInt32} {fuel : Nat} (hc : FatChain d.fat cur.toNat l)
    (hr : ∀ b ∈ l, 101 ≤ b ∧ b < 1024) (hfuel : l.length < fuel) :
    ∃ d', freeLoop fuel d cur = .ok d' ∧ d'.dirents = d.dirents ∧
      (∀ k, d'.fat[k]? = if k ∈ l then some 0 else d.fat[k]?) ∧
      d'.sb = { d.sb with freeBlocks := d.sb.freeBlocks + UInt32.ofNat l.length } := by
  induction l generalizing d cur fuel with
  | nil =>
    have he : cur = eof := UInt32.toNat_inj.mp (ChainTo.nil_iff.mp hc)
    cases fuel with
    | zero => simp at hfuel
    | succ fuel => exact ⟨d, by simp [freeLoop, he], rfl, by simp, by simp⟩
  | cons x l ih =>
    obtain ⟨hx, hxe, b, hb, hl⟩ := ChainTo.cons_iff.mp hc
    obtain ⟨v, hv, rfl⟩ := getElem?_of_fatNext hb
    have hx' := hr x (by simp)
    have hnd : x ∉ l := (List.nodup_cons.mp hc.nodup).1
    cases fuel with
    | zero => simp at hfuel
    | succ fuel =>
      have hce : cur ≠ eof := fun e => hxe (by rw [← hx, e])
      have hc0 : cur ≠ 0 := fun e => by
        rw [e] at hx
        simp at hx
        omega
      simp only [List.length_cons] at hfuel
      have hl' : FatChain (fatPut d.fat cur.toNat 0) v.toNat l :=
        hl.congr fun z hz => fatNext_congr (fatPut_of_ne (by omega) fun e => hnd (by rw [← hx, ← e]; exact hz))
      obtain ⟨d', h1, h2, h3, h4⟩ := ih
        (d := { d with fat := fatPut d.fat cur.toNat 0, sb := { d.sb with freeBlocks := d.sb.freeBlocks + 1 } })
        hl' (fun c hc => hr c (by simp [hc])) (show l.length < fuel by omega)
      refine ⟨d', ?_, h2, fun k => ?_, ?_⟩
      · have hset : d.fatSet cur 0 = .ok { d with fat := fatPut d.fat cur.toNat 0 } := fatSet_eq (by omega)
        simp only [freeLoop, hce, hc0, ne_eq, not_false_eq_true, and_self, if_true,
          fatGet_eq (show d.fat[cur.toNat]? = some v by rw [hx]; exact hv), ok_bind, hset]
        exact h1
      · have hput : (fatPut d.fat cur.toNat 0)[k]? = if x = k then some 0 else d.fat[k]? := by
          rw [fatPut_getElem? (by omega), hx]
        rw [h3 k, hput]
        by_cases hkl : k ∈ l
        · simp [hkl]
        · simp [hkl, eq_comm]
      · rw [h4, List.length_cons, UInt32.ofNat_add]
        simp only [UInt32.add_assoc, UInt32.add_comm (UInt32.ofNat l.length)]
        rfl

/-- What `tinyfs_unlink` does to the tables when it removes entry `i`. -/
structure Freed (d : TinyfsData) (ch : Fin 256 → List Nat) (i : Fin 256) (d' : TinyfsData) : Prop where
  sb : d'.sb = { d.sb with freeBlocks := d.sb.freeBlocks + UInt32.ofNat (ch i).length }
  self : d'.dirents.get i = clearDirent (d.dirents.get i)
  other : ∀ j, j ≠ i → d'.dirents.get j = d.dirents.get j
  fat : ∀ k, d'.fat[k]? = if k ∈ ch i then some 0 else d.fat[k]?

theorem Freed.free {d' : TinyfsData} (hf : Freed d ch i d') (h : Inv d live ch) (hi : live i) :
    freeSet d'.fat = freeSet d.fat ∪ (ch i).toFinset := by
  ext k
  rw [Finset.mem_union, List.mem_toFinset, mem_freeSet, mem_freeSet, hf.fat k]
  by_cases hk : k ∈ ch i
  · have hr := h.range hi hk
    simp [hk, hr.1, hr.2]
  · simp [hk]

theorem Freed.card {d' : TinyfsData} (hf : Freed d ch i d') (h : Inv d live ch) (hi : live i) :
    (freeSet d'.fat).card = (freeSet d.fat).card + (ch i).length := by
  have hdisj : Disjoint (freeSet d.fat) (ch i).toFinset :=
    Finset.disjoint_left.mpr fun b hb hb' => h.not_free hi (List.mem_toFinset.mp hb') hb
  rw [hf.free h hi, Finset.card_union_of_disjoint hdisj, List.toFinset_card_of_nodup (h.nodup hi)]

theorem Freed.counted {d' : TinyfsData} (hf : Freed d ch i d') (h : Inv d live ch) (hi : live i) (hc : Counted d) :
    Counted d' := by
  have hcard := hf.card h hi
  have hle := @card_freeSet_le d'.fat
  unfold Counted at hc ⊢
  rw [hf.sb]
  simp only [UInt32.toNat_add, UInt32.toNat_ofNat']
  omega

/-- A chain has at most as many blocks as the data area. -/
theorem Inv.length_le (h : Inv d live ch) (hi : live i) : (ch i).length ≤ 923 := by
  have hsub : (ch i).toFinset ⊆ Finset.Ico 101 1024 := fun b hb =>
    Finset.mem_Ico.mpr (h.range hi (List.mem_toFinset.mp hb))
  have hcard := Finset.card_le_card hsub
  rw [List.toFinset_card_of_nodup (h.nodup hi)] at hcard
  simpa using hcard

/-- **Freeing**: the blocks of the entry become free, the entry is cleared and the other chains stay. -/
theorem free_spec (h : Inv d live ch) (hi : live i) :
    ∃ d₁, (if (d.dirents.get i).firstBlock ≠ 0 then freeBlockChain d (d.dirents.get i).firstBlock else .ok d) =
        .ok d₁ ∧ Freed d ch i (d₁.modifyDirent i clearDirent) ∧
      Inv (d₁.modifyDirent i clearDirent) live (Function.update ch i []) := by
  -- the table after the loop, whether or not there was a chain
  obtain ⟨d₁, h1, h2, h3, h4⟩ : ∃ d₁,
      (if (d.dirents.get i).firstBlock ≠ 0 then freeBlockChain d (d.dirents.get i).firstBlock else .ok d) = .ok d₁ ∧
      d₁.dirents = d.dirents ∧ (∀ k, d₁.fat[k]? = if k ∈ ch i then some 0 else d.fat[k]?) ∧
      d₁.sb = { d.sb with freeBlocks := d.sb.freeBlocks + UInt32.ofNat (ch i).length } := by
    by_cases h0 : (d.dirents.get i).firstBlock = 0
    · have he := (h.chains.entry i hi).empty h0
      exact ⟨d, by simp [h0], rfl, by simp [he], by simp [he]⟩
    · have hc := ((h.chains.entry i hi).chain h0).2
      have hlen := h.length_le hi
      obtain ⟨d₁, h1, h2⟩ := freeLoop_spec hc (fun b hb => h.range hi hb) (show (ch i).length < 1026 by omega)
      exact ⟨d₁, by simpa [h0, freeBlockChain] using h1, h2⟩
  have hfreed : Freed d ch i (d₁.modifyDirent i clearDirent) := by
    refine ⟨h4, by rw [modifyDirent_self, h2], fun j hj => ?_, h3⟩
    rw [modifyDirent_of_ne _ _ hj, h2]
  refine ⟨d₁, h1, hfreed, ?_, ?_⟩
  · have hl := h.layout
    simp only [modifyDirent_sb, h4]
    exact ⟨⟨hl.magic, hl.fatStart, hl.dirStart⟩, hl.totalBlocks, hl.dataStart⟩
  · refine h.chains.replace (fun _ _ hj => hj) hfreed.other (fun j hji hj x hx => ?_) (fun _ => ?_) fun _ _ _ => ?_
    · rw [hfreed.fat, if_neg fun hxi => h.chains.disjoint i j hi hj (Ne.symm hji) hxi hx]
    · refine ⟨fun _ => rfl, fun h0 => ?_, by simp, ?_⟩
      · rw [hfreed.self] at h0
        exact absurd rfl h0
      · rw [hfreed.self]
        exact Nat.zero_le _
    · exact List.disjoint_nil_left _

/-- An unlink that finds its entry, with the tables after the loop. -/
theorem tinyfsUnlink_eq {s : Tinyfs} {parent : Node} {name : CString} {d₁ : TinyfsData}
    (hd : parent.type = .directory) (hf : firstFin 0 (isNamed s.data name) = some i)
    (h : (if (s.data.dirents.get i).firstBlock ≠ 0 then freeBlockChain s.data (s.data.dirents.get i).firstBlock
      else .ok s.data) = .ok d₁) :
    tinyfsUnlink s parent name = .ok (0, ⟨d₁.modifyDirent i clearDirent,
      (writeSuperblock (d₁.modifyDirent i clearDirent) (writeDirectory (d₁.modifyDirent i clearDirent)
        (writeFat (d₁.modifyDirent i clearDirent) s.disk).2).2).2⟩) := by
  by_cases h0 : (s.data.dirents.get i).firstBlock = 0
  · simp only [h0, ne_eq, not_true_eq_false, if_false, Except.ok.injEq] at h
    subst h
    simp only [tinyfsUnlink, hd, ne_eq, not_true_eq_false, if_false, hf, h0, ok_bind]
  · simp only [ne_eq, h0, not_false_eq_true, if_true] at h
    simp only [tinyfsUnlink, hd, ne_eq, not_true_eq_false, if_false, hf, h0, not_false_eq_true, if_true, h, ok_bind]

end Freeing

end AmqOs.Vfs
