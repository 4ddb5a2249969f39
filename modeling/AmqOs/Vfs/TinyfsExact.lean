import AmqOs.Vfs.TinyfsRun
import AmqOs.Vfs.TinyfsFiles

/-!
# What `tinyfs_read` and `tinyfs_write` return

- `tinyfsRead_exact_iff`: a read is exact, that is it ends at the end of the file and of the buffer, unless the sum
  `offset + size` wraps and the blocks of the file go on after its end;
- `tinyfsWrite_unchanged_iff`: a write that returns `0` or `-1` leaves the tables as they were exactly when the blocks
  of the file and the free ones together reach the block of the offset.
-/

set_option autoImplicit false

namespace AmqOs.Vfs

open AmqOs.Lib

/-! ## Reads -/

/-- The answer `r` and the stored bytes of a read: as many as the file has from the offset on, at most the size asked
for, and each of them is the byte of the file at its position. -/
structure ReadExact (s : Tinyfs) (i : Fin 256) (size offset : UInt32) (r : Int) (bytes : List UInt8) : Prop where
  count : r = if offset < (s.data.dirents.get i).size then
    ((min size.toNat ((s.data.dirents.get i).size.toNat - offset.toNat) : Nat) : Int) else 0
  inBuffer : bytes.length ≤ size.toNat
  fromFile : bytes = (List.range bytes.length).map fun q => byteAt s.disk (entryChain s.data i) (offset.toNat + q)
  inFile : ∀ q < bytes.length, offset.toNat + q < (s.data.dirents.get i).size.toNat

theorem le_readCount {fsize offset : UInt32} {n : Nat} (size : UInt32) (h : offset ≤ fsize) (hn : fsize.toNat ≤ 512 * n) :
    min size.toNat (fsize.toNat - offset.toNat) ≤ readCount fsize size offset n := by
  have hsub : (fsize - offset).toNat = fsize.toNat - offset.toNat := UInt32.toNat_sub_of_le _ _ h
  unfold readCount
  split <;> omega

theorem readCount_le (fsize size offset : UInt32) (n : Nat) (h : offset < fsize) :
    readCount fsize size offset n ≤ size.toNat := by
  have hoff := UInt32.lt_iff_toNat_lt.mp h
  have hs := size.toNat_lt
  unfold readCount
  split
  · rename_i hcut
    have hcut' := UInt32.lt_iff_toNat_lt.mp hcut
    rw [UInt32.toNat_add] at hcut'
    rw [UInt32.toNat_sub_of_le _ _ (UInt32.le_of_lt h)]
    omega
  · omega

/-- The request is cut at the end of the file, unless the sum wraps; then it is cut at the end of the chain. -/
theorem readCount_eq_iff {fsize size offset : UInt32} {n : Nat} (h : offset < fsize) (hf : fsize.toNat ≤ 512 * n)
    (hn : n ≤ 923) : readCount fsize size offset n = min size.toNat (fsize.toNat - offset.toNat) ↔
      offset.toNat + size.toNat < 2 ^ 32 ∨ fsize.toNat = 512 * n := by
  have hoff := UInt32.lt_iff_toNat_lt.mp h
  have hs := size.toNat_lt
  have hsub : (fsize - offset).toNat = fsize.toNat - offset.toNat := UInt32.toNat_sub_of_le _ _ (UInt32.le_of_lt h)
  unfold readCount
  by_cases hwrap : offset.toNat + size.toNat < 2 ^ 32
  · have hadd : (offset + size).toNat = offset.toNat + size.toNat := by
      rw [UInt32.toNat_add]
      omega
    split
    · rename_i hcut
      have hcut' := UInt32.lt_iff_toNat_lt.mp hcut
      omega
    · rename_i hcut
      have hcut' := mt UInt32.lt_iff_toNat_lt.mpr hcut
      omega
  · have hadd : (offset + size).toNat = offset.toNat + size.toNat - 2 ^ 32 := by
      rw [UInt32.toNat_add]
      omega
    have hcut : ¬ fsize < offset + size := by
      rw [UInt32.lt_iff_toNat_lt]
      omega
    rw [if_neg hcut]
    omega

section Reads

variable {s : Tinyfs} {i : Fin 256}

/-- **Reads are exact** on a well-formed filesystem, whatever the size and the offset, except when their sum wraps
and the last block of the file has bytes after its end. -/
theorem tinyfsRead_exact_iff (hs : WellFormed s.data) (hr : s.disk.Reliable) (hu : usedEntry s.data i) {node : Node}
    (hn : node.dirent = some i) (size offset : UInt32) :
    (∃ r bytes s', tinyfsRead s node size offset = .ok ((r, bytes), s') ∧ ReadExact s i size offset r bytes) ↔
      (s.data.dirents.get i).size ≤ offset ∨ offset.toNat + size.toNat < 2 ^ 32 ∨
        (s.data.dirents.get i).size.toNat = 512 * (entryChain s.data i).length := by
  obtain ⟨ch, h⟩ := hs
  have hchain := h.entryChain_eq hu
  by_cases hoff : offset < (s.data.dirents.get i).size
  · have hread := tinyfsRead_spec h hu hr hn size offset hoff
    have hfit := (h.chains.entry i hu).size
    have hlen := h.length_le hu
    have hoff' := UInt32.lt_iff_toNat_lt.mp hoff
    have hle : ¬ (s.data.dirents.get i).size ≤ offset := by
      rw [UInt32.le_iff_toNat_le]
      omega
    have hcount := @readCount_eq_iff _ size _ _ hoff hfit hlen
    have hbuf := readCount_le (s.data.dirents.get i).size size offset (ch i).length hoff
    rw [hchain]
    generalize readCount (s.data.dirents.get i).size size offset (ch i).length = n at hread hcount hbuf
    rw [or_iff_right hle, ← hcount]
    constructor
    · rintro ⟨r, bytes, s', he, hexact⟩
      rw [hread] at he
      obtain ⟨⟨rfl, rfl⟩, rfl⟩ : (_ = r ∧ _ = bytes) ∧ s = s' := by simpa using he
      have hfile := hexact.inFile
      simp only [List.length_map, List.length_range] at hfile
      have hmin : n ≤ min size.toNat ((s.data.dirents.get i).size.toNat - offset.toNat) := by
        by_contra hlt
        have := hfile ((s.data.dirents.get i).size.toNat - offset.toNat) (by omega)
        omega
      have hcnt := hexact.count
      rw [if_pos hoff, cInt_ofNat (by omega)] at hcnt
      exact Int.ofNat_inj.mp hcnt
    · intro hcnt
      refine ⟨_, _, _, hread, ⟨?_, by simpa using hbuf, by simp [hchain], fun q hq => ?_⟩⟩
      · rw [if_pos hoff, cInt_ofNat (by omega), hcnt]
      · simp only [List.length_map, List.length_range] at hq
        omega
  · have hle : (s.data.dirents.get i).size ≤ offset := by
      rw [UInt32.lt_iff_toNat_lt] at hoff
      rw [UInt32.le_iff_toNat_le]
      omega
    refine iff_of_true ⟨0, [], s, tinyfsRead_past hn size hle, ?_, by simp, rfl, by simp⟩ (.inl hle)
    rw [if_neg hoff]

end Reads

/-- Entry 1 has block 101, the other entries have none. -/
theorem inv_of_oneBlock {d : TinyfsData} (hl : Layout d.sb) (hfat : d.fat = fatPut freshFat 101 eof)
    (h1 : (d.dirents.get 1).firstBlock = 101 ∧ (d.dirents.get 1).size.toNat ≤ 512)
    (h : ∀ i : Fin 256, ¬ 1 = i.val → (d.dirents.get i).firstBlock = 0 ∧ (d.dirents.get i).size = 0) :
    Inv d (fun _ => True) fun i => if 1 = i.val then [101] else [] := by
  refine ⟨hl, fun i _ => ?_, fun i j _ _ hij => ?_⟩
  · have h101 : fatNext d.fat 101 = some eof.toNat := by
      unfold fatNext
      rw [hfat, show (fatPut freshFat 101 eof)[101]? = some eof from fatPut_self (by omega)]
      rfl
    by_cases hi : 1 = i.val
    · obtain rfl : i = 1 := Fin.ext hi.symm
      rw [if_pos hi]
      refine ⟨fun h0 => ?_, fun _ => ⟨by simp, ?_⟩, by simp, ?_⟩
      · rw [h1.1] at h0
        exact absurd h0 (by decide)
      · rw [h1.1]
        exact .cons (by decide) h101 .nil
      · simpa using h1.2
    · rw [if_neg hi]
      refine ⟨fun _ => rfl, fun h0 => absurd (h i hi).1 h0, by simp, ?_⟩
      rw [(h i hi).2]
      exact Nat.zero_le _
  · by_cases hi : 1 = i.val
    · have hj : ¬ 1 = j.val := fun hj => hij (Fin.ext (hi.symm.trans hj))
      rw [if_neg hj]
      exact List.disjoint_nil_right _
    · rw [if_neg hi]
      exact List.disjoint_nil_left _

/-- A filesystem with one file of two bytes, at entry 1 and block 101. -/
def shortFile : Tinyfs where
  data :=
    { sb := { formatSuperblock with freeBlocks := 922 }
      fat := fatPut freshFat 101 eof
      dirents := Vector.ofFn fun i =>
        if 1 = i.val then { emptyDirent with used := 1, firstBlock := 101, size := 2 } else emptyDirent
      device := Vector.replicate 32 0 }
  disk := blankDisk

theorem shortFile_get (i : Fin 256) : shortFile.data.dirents.get i =
    if 1 = i.val then { emptyDirent with used := 1, firstBlock := 101, size := 2 } else emptyDirent := by
  simp only [shortFile, get_eq, Vector.getElem_ofFn]

theorem shortFile_inv : Inv shortFile.data (fun _ => True) fun i => if 1 = i.val then [101] else [] := by
  refine inv_of_oneBlock ⟨⟨rfl, rfl, rfl⟩, rfl, rfl⟩ rfl ?_ fun i hi => ?_
  · rw [shortFile_get]
    exact ⟨rfl, by decide⟩
  · rw [shortFile_get, if_neg hi]
    exact ⟨rfl, rfl⟩

theorem shortFile_wellFormed : WellFormed shortFile.data := ⟨_, shortFile_inv.mono fun _ _ => trivial⟩

theorem shortFile_used : usedEntry shortFile.data 1 := by
  simp [usedEntry, shortFile_get]

/-- A read of `2^32 - 1` bytes at offset 1 of the file of two bytes returns the whole rest of its block. -/
theorem shortFile_read : WellFormed shortFile.data ∧ shortFile.disk.Reliable ∧ usedEntry shortFile.data 1 ∧
    (∃ bytes, tinyfsRead shortFile (nodeOf shortFile.data 1) 0xFFFFFFFF 1 = .ok ((511, bytes), shortFile)) ∧
    ¬ ∃ r bytes s', tinyfsRead shortFile (nodeOf shortFile.data 1) 0xFFFFFFFF 1 = .ok ((r, bytes), s') ∧
      ReadExact shortFile 1 0xFFFFFFFF 1 r bytes := by
  have hsize : (shortFile.data.dirents.get 1).size = 2 := by rw [shortFile_get]; rfl
  have hread := tinyfsRead_spec shortFile_inv (i := 1) trivial blankDisk_reliable
    (show (nodeOf shortFile.data 1).dirent = some 1 from rfl) 0xFFFFFFFF 1 (by rw [hsize]; decide)
  have hcount : readCount (shortFile.data.dirents.get 1).size 0xFFFFFFFF 1 1 = 511 := by
    rw [hsize]
    decide
  simp only [show (if 1 = (1 : Fin 256).val then [101] else []) = [101] from rfl, List.length_singleton,
    hcount] at hread
  refine ⟨shortFile_wellFormed, blankDisk_reliable, shortFile_used, ⟨_, hread⟩, ?_⟩
  rintro ⟨r, bytes, s', he, hexact⟩
  rw [hread] at he
  obtain ⟨⟨rfl, -⟩, -⟩ : (_ = r ∧ _ = bytes) ∧ shortFile = s' := by simpa using he
  have hc := hexact.count
  rw [hsize] at hc
  exact absurd hc (by decide)

theorem tinyfsRead_exact_shortFile : (∃ r bytes s', tinyfsRead shortFile (nodeOf shortFile.data 1) 1 1 =
      .ok ((r, bytes), s') ∧ ReadExact shortFile 1 1 1 r bytes) ↔
    (shortFile.data.dirents.get 1).size ≤ 1 ∨ (1 : UInt32).toNat + (1 : UInt32).toNat < 2 ^ 32 ∨
      (shortFile.data.dirents.get 1).size.toNat = 512 * (entryChain shortFile.data 1).length :=
  tinyfsRead_exact_iff shortFile_wellFormed blankDisk_reliable shortFile_used rfl 1 1

/-! ## Writes that fail -/

/-- A write that returns `0` or `-1` leaves the tables as they were. -/
def WriteUnchanged (s : Tinyfs) (node : Node) (buffer : List UInt8) (offset : UInt32) : Prop :=
  ∀ r node' s', tinyfsWrite s node buffer offset = .ok (r, node', s') → r ≤ 0 →
    s'.data.fat = s.data.fat ∧ s'.data.sb.freeBlocks = s.data.sb.freeBlocks ∧ s'.data.dirents = s.data.dirents

section Writes

variable {s s' : Tinyfs} {live : Fin 256 → Prop} {ch : Fin 256 → List Nat} {i : Fin 256}

/-- A write of something that gets to its offset stores something, and its result is positive. -/
theorem Stored.pos {buffer : List UInt8} {offset : UInt32} {new : List Nat} {w : Nat}
    (hst : Stored s live ch i buffer offset new w s') (hi : live i) (hb : UInt32.ofNat buffer.length ≠ 0) :
    0 < cInt (UInt32.ofNat w) := by
  have hlen : (ch i ++ new).length ≤ 923 := by simpa using hst.inv.length_le hi
  have hb' : (UInt32.ofNat buffer.length).toNat ≠ 0 := fun e => hb (UInt32.toNat_inj.mp e)
  have hreach := hst.reach
  have hfits := hst.fits
  have hcount := hst.count
  rw [cInt_ofNat (by omega)]
  omega

/-- **Failed writes**: on a filesystem with the invariant, a write of one byte or more that returns `0` or `-1` leaves
the tables as they were if and only if there is no free block or the blocks reach the offset. -/
theorem tinyfsWrite_unchanged_iff (h : Inv s.data live ch) (hr : s.disk.Reliable) {node : Node}
    (hn : ∀ i, node.dirent = some i → live i) {buffer : List UInt8} (hb : UInt32.ofNat buffer.length ≠ 0)
    (offset : UInt32) :
    WriteUnchanged s node buffer offset ↔ ∀ i, node.dirent = some i → Reaches s.data i offset := by
  cases hd : node.dirent with
  | none =>
    refine iff_of_true (fun r node' s' he _ => ?_) (by simp)
    obtain ⟨-, -, rfl⟩ : -1 = r ∧ node = node' ∧ s = s' := by simpa [tinyfsWrite, hd] using he
    exact ⟨rfl, rfl, rfl⟩
  | some i =>
    have hi := hn i hd
    rw [show (∀ j, some i = some j → Reaches s.data j offset) ↔ Reaches s.data i offset by simp]
    rcases tinyfsWrite_spec h hi hr hd buffer offset with ⟨-, hf, he⟩ | ⟨new, d', hg, hf, -, hlen, he⟩ |
      ⟨new, w, s₁, he, hst⟩
    · -- nothing is free
      refine iff_of_true (fun r node' s' he' _ => ?_) (.inl hf)
      obtain ⟨-, -, rfl⟩ : -1 = r ∧ node = node' ∧ s = s' := by simpa [he] using he'
      exact ⟨rfl, rfl, rfl⟩
    · -- the disk becomes full before the offset
      constructor
      · intro hsame
        obtain ⟨hfat, -⟩ := hsame _ _ _ he (le_refl _)
        have hfat' : d'.fat = s.data.fat := hfat
        exact .inl (by rw [← hfat', hf])
      · intro hreach r node' s' he' _
        obtain ⟨-, -, rfl⟩ : 0 = r ∧ node = node' ∧ { s with data := d' } = s' := by simpa [he] using he'
        rw [hg.same (hg.nil_of_reaches h hi hf hlen hreach)]
        exact ⟨rfl, rfl, rfl⟩
    · -- something is stored
      have hpos := hst.pos hi hb
      refine iff_of_true (fun r node' s' he' hle => ?_) (.inr ?_)
      · obtain ⟨hr', -⟩ : cInt (UInt32.ofNat w) = r ∧ _ := by simpa [he] using he'
        omega
      · have hreach := hst.reach
        have hcard := hst.card hi
        rw [List.length_append] at hreach
        rw [h.entryChain_eq hi]
        omega

end Writes

/-- A write of one byte just after the last position of the data area returns 0 and has taken every block. -/
theorem oneFile_write_takes : WellFormed oneFile.data ∧ oneFile.disk.Reliable ∧ usedEntry oneFile.data 1 ∧
    (∃ s, tinyfsWrite oneFile (nodeOf oneFile.data 1) [1] 472576 = .ok (0, nodeOf oneFile.data 1, s) ∧
      freeSet oneFile.data.fat ≠ ∅ ∧ freeSet s.data.fat = ∅) ∧
    ¬ WriteUnchanged oneFile (nodeOf oneFile.data 1) [1] 472576 := by
  obtain ⟨ch, h⟩ := oneFile_wellFormed
  have hfree : freeSet oneFile.data.fat ≠ ∅ := freeSet_fresh_ne
  obtain ⟨new, d', he, -, hf⟩ := tinyfsWrite_beyond h oneFile_used blankDisk_reliable
    (show (nodeOf oneFile.data 1).dirent = some 1 from rfl) hfree [1]
    (show 923 ≤ (472576 : UInt32).toNat / 512 by decide)
  refine ⟨⟨ch, h⟩, blankDisk_reliable, oneFile_used, ⟨_, he, hfree, hf⟩, fun hsame => ?_⟩
  obtain ⟨hfat, -⟩ := hsame _ _ _ he (le_refl _)
  have hfat' : d'.fat = oneFile.data.fat := hfat
  exact hfree (by rw [← hfat', hf])

theorem tinyfsWrite_unchanged_oneFile :
    WriteUnchanged oneFile (nodeOf oneFile.data 1) [1] 0 ↔
      ∀ i, (nodeOf oneFile.data 1).dirent = some i → Reaches oneFile.data i 0 := by
  obtain ⟨ch, h⟩ := oneFile_wellFormed
  refine tinyfsWrite_unchanged_iff h blankDisk_reliable (fun i hi => ?_) (by decide) 0
  obtain rfl := Option.some.inj hi
  exact oneFile_used

end AmqOs.Vfs
