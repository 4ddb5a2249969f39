import AmqOs.Vfs.TinyfsChains

/-!
# What the block loops leave alone

On any tables and any disk, sound or not, the loops that allocate and free blocks change the allocation table and its
counter only (`OnlyTable`), a read changes no table, and a write changes of the directory only the first block and the
size of its own entry (`tinyfsWrite_frame`).
-/

set_option autoImplicit false

namespace AmqOs.Vfs

open AmqOs.Lib

/-- The tables differ in the allocation table and the counter of free blocks only. -/
structure OnlyTable (d d' : TinyfsData) : Prop where
  dirents : d'.dirents = d.dirents
  totalBlocks : d'.sb.totalBlocks = d.sb.totalBlocks
  dataStart : d'.sb.dataStart = d.sb.dataStart

theorem OnlyTable.refl (d : TinyfsData) : OnlyTable d d := ⟨rfl, rfl, rfl⟩

theorem OnlyTable.trans {d d₁ d₂ : TinyfsData} (h₁ : OnlyTable d d₁) (h₂ : OnlyTable d₁ d₂) : OnlyTable d d₂ :=
  ⟨h₂.dirents.trans h₁.dirents, h₂.totalBlocks.trans h₁.totalBlocks, h₂.dataStart.trans h₁.dataStart⟩

section Loops

variable {d d' : TinyfsData}

theorem fatSet_frame {b v : UInt32} (h : d.fatSet b v = .ok d') : OnlyTable d d' := by
  unfold TinyfsData.fatSet at h
  split at h
  · obtain rfl := Except.ok.inj h
    exact ⟨rfl, rfl, rfl⟩
  · cases h

theorem allocateBlock_frame {r : Option UInt32} (h : allocateBlock d = .ok (r, d')) : OnlyTable d d' := by
  unfold allocateBlock at h
  split at h
  · obtain ⟨-, rfl⟩ := Prod.mk.inj (Except.ok.inj h)
    exact .refl d
  · obtain ⟨d₁, hset, he⟩ := bind_eq_ok.mp h
    obtain ⟨-, rfl⟩ := Prod.mk.inj (Except.ok.inj he)
    exact (fatSet_frame hset).trans ⟨rfl, rfl, rfl⟩

theorem nextBlock_frame {cur : UInt32} {r : Option UInt32} (h : nextBlock d cur = .ok (r, d')) : OnlyTable d d' := by
  obtain ⟨v, -, h⟩ := bind_eq_ok.mp h
  split at h
  · obtain ⟨⟨b, d₁⟩, ha, h⟩ := bind_eq_ok.mp h
    have h₁ := allocateBlock_frame ha
    cases b with
    | none =>
      obtain ⟨-, rfl⟩ := Prod.mk.inj (Except.ok.inj h)
      exact h₁
    | some b =>
      obtain ⟨d₂, hset, h⟩ := bind_eq_ok.mp h
      obtain ⟨w, -, h⟩ := bind_eq_ok.mp h
      obtain ⟨-, rfl⟩ := Prod.mk.inj (Except.ok.inj h)
      exact h₁.trans (fatSet_frame hset)
  · obtain ⟨w, -, h⟩ := bind_eq_ok.mp h
    obtain ⟨-, rfl⟩ := Prod.mk.inj (Except.ok.inj h)
    exact .refl d

theorem extendLoop_frame {n : Nat} {cur : UInt32} {r : Option UInt32} (h : extendLoop n d cur = .ok (r, d')) :
    OnlyTable d d' := by
  induction n generalizing d cur with
  | zero =>
    obtain ⟨-, rfl⟩ := Prod.mk.inj (Except.ok.inj h)
    exact .refl d
  | succ n ih =>
    obtain ⟨⟨b, d₁⟩, hn, h⟩ := bind_eq_ok.mp h
    have h₁ := nextBlock_frame hn
    cases b with
    | none =>
      obtain ⟨-, rfl⟩ := Prod.mk.inj (Except.ok.inj h)
      exact h₁
    | some b => exact h₁.trans (ih h)

theorem freeLoop_frame {fuel : Nat} {cur : UInt32} (h : freeLoop fuel d cur = .ok d') : OnlyTable d d' := by
  induction fuel generalizing d cur with
  | zero => cases h
  | succ fuel ih =>
    unfold freeLoop at h
    split at h
    · obtain ⟨v, -, h⟩ := bind_eq_ok.mp h
      obtain ⟨d₁, hset, h⟩ := bind_eq_ok.mp h
      have h₁ : OnlyTable d (d₁.setFree (d₁.sb.freeBlocks + 1)) := (fatSet_frame hset).trans ⟨rfl, rfl, rfl⟩
      exact h₁.trans (ih h)
    · obtain rfl := Except.ok.inj h
      exact .refl d

/-- One round of the writing loop: the block buffer, and what the write of it returned. -/
def writeRound (buffer : List UInt8) (size bo w : Nat) (disk : Disk) (cur : UInt32) (bb : Mem) : Mem × Int × Disk :=
  let start := if bo > 0 ∨ size - w < 512 then
    match ataReadSectors disk cur with
    | (none, disk) => (bb, disk)
    | (some sector, disk) => (ofSector sector, disk)
    else (bb, disk)
  let m := start.1.store bo (min (512 - bo) (size - w)) fun i => buffer.getD (w + i) 0
  (m, ataWriteSectors start.2 cur (toSector m))

theorem writeLoop_succ (d : TinyfsData) (buffer : List UInt8) {size bo w : Nat} (fuel : Nat) (disk : Disk)
    (cur : UInt32) (bb : Mem) (hw : w < size) :
    writeLoop buffer size (fuel + 1) d disk cur bo w bb =
      let round := writeRound buffer size bo w disk cur bb
      let w' := w + min (512 - bo) (size - w)
      if round.2.1 ≠ 0 then .ok (none, d, round.2.2)
      else if w' < size then
        nextBlock d cur >>= fun r => match r with
          | (none, d) => .ok (some w', d, round.2.2)
          | (some nxt, d) => writeLoop buffer size fuel d round.2.2 nxt 0 w' round.1
      else writeLoop buffer size fuel d round.2.2 cur 0 w' round.1 := by
  rw [writeLoop, if_pos hw]
  rfl

/-- The writing loop does not write more than it was asked to. -/
theorem writeLoop_frame {buffer : List UInt8} {size fuel : Nat} {disk disk' : Disk} {cur : UInt32} {bo w : Nat}
    {bb : Mem} {r : Option Nat} (hw : w ≤ size)
    (h : writeLoop buffer size fuel d disk cur bo w bb = .ok (r, d', disk')) :
    OnlyTable d d' ∧ ∀ k, r = some k → k ≤ size := by
  induction fuel generalizing d disk cur bo w bb with
  | zero =>
    obtain ⟨rfl, rfl, -⟩ : some w = r ∧ d = d' ∧ disk = disk' := by simpa [writeLoop] using h
    exact ⟨.refl d, fun k hk => by obtain rfl := Option.some.inj hk; exact hw⟩
  | succ fuel ih =>
    by_cases hlt : w < size
    · simp only [writeLoop_succ d buffer fuel disk cur bb hlt] at h
      generalize writeRound buffer size bo w disk cur bb = round at h
      split at h
      · obtain ⟨rfl, rfl, -⟩ : none = r ∧ d = d' ∧ round.2.2 = disk' := by simpa using h
        exact ⟨.refl d, fun k hk => by cases hk⟩
      · split at h
        · obtain ⟨⟨b, d₁⟩, hn, h⟩ := bind_eq_ok.mp h
          have h₁ := nextBlock_frame hn
          cases b with
          | none =>
            obtain ⟨rfl, rfl, -⟩ : some _ = r ∧ d₁ = d' ∧ round.2.2 = disk' := by simpa using h
            exact ⟨h₁, fun k hk => by obtain rfl := Option.some.inj hk; omega⟩
          | some b =>
            obtain ⟨h₂, hk⟩ := ih (by omega) h
            exact ⟨h₁.trans h₂, hk⟩
        · exact ih (by omega) h
    · rw [writeLoop, if_neg hlt] at h
      obtain ⟨rfl, rfl, -⟩ : some w = r ∧ d = d' ∧ disk = disk' := by simpa using h
      exact ⟨.refl d, fun k hk => by obtain rfl := Option.some.inj hk; exact hw⟩

end Loops

section Calls

variable {s s' : Tinyfs} {node node' : Node} {i : Fin 256}

/-- A read changes no table. -/
theorem tinyfsRead_frame {size offset : UInt32} {r : Int × List UInt8}
    (h : tinyfsRead s node size offset = .ok (r, s')) : s'.data = s.data := by
  unfold tinyfsRead at h
  split at h
  · obtain ⟨-, rfl⟩ := Prod.mk.inj (Except.ok.inj h)
    rfl
  · simp only at h
    split at h
    · obtain ⟨-, rfl⟩ := Prod.mk.inj (Except.ok.inj h)
      rfl
    · obtain ⟨cur, -, h⟩ := bind_eq_ok.mp h
      obtain ⟨⟨n, bytes, disk⟩, -, h⟩ := bind_eq_ok.mp h
      cases n <;> (obtain ⟨-, rfl⟩ := Prod.mk.inj (Except.ok.inj h); rfl)

theorem ensureFirstBlock_frame {d d' : TinyfsData} (h : ensureFirstBlock d i = .ok (some d')) :
    (∀ j, j ≠ i → d'.dirents.get j = d.dirents.get j) ∧
      ∃ fb, d'.dirents.get i = { d.dirents.get i with firstBlock := fb } := by
  unfold ensureFirstBlock at h
  split at h
  · obtain ⟨⟨b, d₁⟩, ha, h⟩ := bind_eq_ok.mp h
    have h₁ := allocateBlock_frame ha
    cases b with
    | none => cases Except.ok.inj h
    | some b =>
      obtain rfl := Option.some.inj (Except.ok.inj h)
      refine ⟨fun j hj => ?_, b, ?_⟩
      · rw [modifyDirent_of_ne _ _ hj, h₁.dirents]
      · rw [modifyDirent_self, h₁.dirents]
  · obtain rfl := Option.some.inj (Except.ok.inj h)
    exact ⟨fun _ _ => rfl, _, rfl⟩

/-- **A write** changes the size of its own entry only, and then that of its node in the same way. -/
theorem tinyfsWrite_frame {buffer : List UInt8} {offset : UInt32} {r : Int} (hn : node.dirent = some i)
    (h : tinyfsWrite s node buffer offset = .ok (r, node', s')) :
    (∀ j, j ≠ i → s'.data.dirents.get j = s.data.dirents.get j) ∧
      ((s'.data.dirents.get i).size = (s.data.dirents.get i).size ∧ node' = node ∨
        ∃ k ≤ (UInt32.ofNat buffer.length).toNat, (s.data.dirents.get i).size < offset + UInt32.ofNat k ∧
          (s'.data.dirents.get i).size = offset + UInt32.ofNat k ∧
          node' = { node with size := offset + UInt32.ofNat k }) := by
  simp only [tinyfsWrite, hn] at h
  obtain ⟨first, he, h⟩ := bind_eq_ok.mp h
  cases first with
  | none =>
    obtain ⟨-, rfl, rfl⟩ : -1 = r ∧ node = node' ∧ s = s' := by simpa using h
    exact ⟨fun _ _ => rfl, .inl ⟨rfl, rfl⟩⟩
  | some d =>
    obtain ⟨hother, fb, hself⟩ := ensureFirstBlock_frame he
    obtain ⟨⟨cur, d₁⟩, hx, h⟩ := bind_eq_ok.mp h
    have h₁ := extendLoop_frame hx
    cases cur with
    | none =>
      obtain ⟨-, rfl, rfl⟩ : 0 = r ∧ node = node' ∧ { s with data := d₁ } = s' := by simpa using h
      exact ⟨fun j hj => by rw [h₁.dirents, hother j hj], .inl ⟨by rw [h₁.dirents, hself], rfl⟩⟩
    | some cur =>
      obtain ⟨⟨n, d₂, disk⟩, hl, h⟩ := bind_eq_ok.mp h
      obtain ⟨h₂, hk⟩ := writeLoop_frame (Nat.zero_le _) hl
      have hdir : d₂.dirents = d.dirents := h₂.dirents.trans h₁.dirents
      cases n with
      | none =>
        obtain ⟨-, rfl, rfl⟩ : -1 = r ∧ node = node' ∧ (⟨d₂, disk⟩ : Tinyfs) = s' := by simpa using h
        exact ⟨fun j hj => by rw [hdir, hother j hj], .inl ⟨by rw [hdir, hself], rfl⟩⟩
      | some k =>
        obtain ⟨-, hfin⟩ := Prod.mk.inj (Except.ok.inj h)
        unfold finishWrite at hfin
        obtain ⟨rfl, rfl⟩ := Prod.mk.inj hfin
        have hsize : (d₂.dirents.get i).size = (s.data.dirents.get i).size := by rw [hdir, hself]
        by_cases hgrow : (d₂.dirents.get i).size < offset + UInt32.ofNat k
        · refine ⟨fun j hj => ?_, .inr ⟨k, hk k rfl, hsize ▸ hgrow, ?_, ?_⟩⟩
          · simp only [hgrow, if_true]
            rw [modifyDirent_of_ne _ _ hj, hdir, hother j hj]
          · simp only [hgrow, if_true, modifyDirent_self]
          · simp only [hgrow, if_true, modifyDirent_self]
        · refine ⟨fun j hj => ?_, .inl ⟨?_, ?_⟩⟩
          · simp only [hgrow, if_false]
            rw [hdir, hother j hj]
          · simp only [hgrow, if_false]
            exact hsize
          · simp only [hgrow, if_false]

/-- Entry `k` is left without blocks and without bytes, the others as they were. -/
structure Emptied (d d' : TinyfsData) (k : Fin 256) : Prop where
  other : ∀ j, j ≠ k → d'.dirents.get j = d.dirents.get j
  firstBlock : (d'.dirents.get k).firstBlock = 0
  size : (d'.dirents.get k).size = 0

/-- **A create** empties the entry it takes, also when the directory cannot be written. -/
theorem tinyfsCreateNode_frame (s : Tinyfs) (parent : Node) (name : CString) (type : FileType) :
    (tinyfsCreateNode s parent name type).2 = s ∨ ∃ k, firstFin 0 (isEntry s.data parent.inode name) = none ∧
      findFreeDirent s.data = some k ∧ (tinyfsCreateNode s parent name type).2.data.fat = s.data.fat ∧
      (tinyfsCreateNode s parent name type).2.data.sb = s.data.sb ∧
      Emptied s.data (tinyfsCreateNode s parent name type).2.data k := by
  unfold tinyfsCreateNode
  split
  · exact .inl rfl
  · split
    · exact .inl rfl
    · rename_i hnone
      cases hfree : findFreeDirent s.data with
      | none => exact .inl rfl
      | some k =>
        refine .inr ⟨k, Option.not_isSome_iff_eq_none.mp hnone, rfl, ?_⟩
        simp only
        split
        · refine ⟨rfl, rfl, fun j hj => ?_, ?_, ?_⟩
          · rw [modifyDirent_of_ne _ _ hj, modifyDirent_of_ne _ _ hj]
          · rw [modifyDirent_self, modifyDirent_self]
            rfl
          · rw [modifyDirent_self, modifyDirent_self]
            rfl
        · refine ⟨rfl, rfl, fun j hj => modifyDirent_of_ne _ _ hj, ?_, ?_⟩
          · rw [modifyDirent_self]
            rfl
          · rw [modifyDirent_self]
            rfl

/-- **An unlink** empties the entry it removes. -/
theorem tinyfsUnlink_frame {parent : Node} {name : CString} {r : Int}
    (h : tinyfsUnlink s parent name = .ok (r, s')) :
    s' = s ∨ ∃ k, firstFin 0 (isNamed s.data name) = some k ∧ Emptied s.data s'.data k := by
  unfold tinyfsUnlink at h
  split at h
  · exact .inl (Prod.mk.inj (Except.ok.inj h)).2.symm
  · split at h
    · exact .inl (Prod.mk.inj (Except.ok.inj h)).2.symm
    · rename_i k hk
      obtain ⟨d, disk, hdir, rfl⟩ : ∃ (d : TinyfsData) (disk : Disk), d.dirents = s.data.dirents ∧
          s' = ⟨d.modifyDirent k clearDirent, disk⟩ := by
        simp only at h
        split at h
        · obtain ⟨d, hd, h⟩ := bind_eq_ok.mp h
          exact ⟨d, _, (freeLoop_frame hd).dirents, (Prod.mk.inj (Except.ok.inj h)).2.symm⟩
        · exact ⟨s.data, _, rfl, (Prod.mk.inj (Except.ok.inj h)).2.symm⟩
      refine .inr ⟨k, hk, fun j hj => ?_, ?_, ?_⟩
      · rw [modifyDirent_of_ne _ _ hj, hdir]
      · rw [modifyDirent_self]
        rfl
      · rw [modifyDirent_self]
        rfl

end Calls

end AmqOs.Vfs
