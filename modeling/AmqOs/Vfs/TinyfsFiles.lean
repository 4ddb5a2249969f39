import AmqOs.Vfs.TinyfsOps

/-!
# Files

`contents s i` is what can be read of entry `i`: the answer of `tinyfs_read` for every size and offset. It depends on
the entry's size and on the sectors of its chain only (`contents_congr`), so an operation on one file leaves the
contents of the others (`Stored.contents_other`, `Removed.contents_other`). `write_then_read` relates a write with the
reads after it.
-/

set_option autoImplicit false

namespace AmqOs.Vfs

open AmqOs.Lib

/-- What `tinyfs_read` answers for entry `i`. -/
def contents (s : Tinyfs) (i : Fin 256) (size offset : UInt32) : Except Fault (Int × List UInt8) :=
  (tinyfsRead s (nodeOf s.data i) size offset).map Prod.fst

section Contents

variable {s s' : Tinyfs} {live live' : Fin 256 → Prop} {ch ch' : Fin 256 → List Nat} {i j : Fin 256}

theorem contents_spec (h : Inv s.data live ch) (hi : live i) (hr : s.disk.Reliable) (size offset : UInt32)
    (hoff : offset < (s.data.dirents.get i).size) :
    let n := readCount (s.data.dirents.get i).size size offset (ch i).length
    contents s i size offset =
      .ok (cInt (UInt32.ofNat n), (List.range n).map fun q => byteAt s.disk (ch i) (offset.toNat + q)) := by
  intro n
  have hread := tinyfsRead_spec h hi hr (show (nodeOf s.data i).dirent = some i from rfl) size offset hoff
  simp only [contents, hread, Except.map]
  rfl

theorem contents_past (size : UInt32) {offset : UInt32} (hoff : (s.data.dirents.get i).size ≤ offset) :
    contents s i size offset = .ok (0, []) := by
  have hread := tinyfsRead_past (s := s) (show (nodeOf s.data i).dirent = some i from rfl) size hoff
  simp only [contents, hread, Except.map]

/-- The same size, as many blocks and the same bytes in them: the same contents. -/
theorem contents_of_bytes (h : Inv s.data live ch) (hi : live i) (hr : s.disk.Reliable) (h' : Inv s'.data live' ch')
    (hi' : live' i) (hr' : s'.disk.Reliable) (hsize : (s'.data.dirents.get i).size = (s.data.dirents.get i).size)
    (hlen : (ch' i).length = (ch i).length) (hbytes : ∀ p, byteAt s'.disk (ch' i) p = byteAt s.disk (ch i) p) :
    contents s' i = contents s i := by
  funext size offset
  by_cases hoff : offset < (s.data.dirents.get i).size
  · rw [contents_spec h hi hr size offset hoff, contents_spec h' hi' hr' size offset (hsize ▸ hoff), hsize, hlen]
    simp only [hbytes]
  · have hle : (s.data.dirents.get i).size ≤ offset := by
      rw [UInt32.lt_iff_toNat_lt] at hoff
      rw [UInt32.le_iff_toNat_le]
      omega
    rw [contents_past size hle, contents_past size (hsize ▸ hle)]

/-- The same size, the same chain and the same sectors: the same contents. -/
theorem contents_congr (h : Inv s.data live ch) (hi : live i) (hr : s.disk.Reliable) (h' : Inv s'.data live' ch')
    (hi' : live' i) (hr' : s'.disk.Reliable) (hsize : (s'.data.dirents.get i).size = (s.data.dirents.get i).size)
    (hch : ch' i = ch i) (hsec : ∀ b ∈ ch i, s'.disk.sectors b = s.disk.sectors b) : contents s' i = contents s i :=
  contents_of_bytes h hi hr h' hi' hr' hsize (by rw [hch]) fun p => by rw [hch, byteAt_congr hsec]

/-- A write through one entry stores in no block of another. -/
theorem Stored.not_mem {buffer : List UInt8} {offset : UInt32} {new : List Nat} {w b : Nat}
    (hst : Stored s live ch i buffer offset new w s') (h : Inv s.data live ch) (hi : live i) (hj : live j) (hne : j ≠ i)
    (hb : b ∈ ch j) : b ∉ ch i ++ new := fun hm => by
  rcases List.mem_append.mp hm with hm | hm
  · exact h.chains.disjoint i j hi hj (Ne.symm hne) hm hb
  · exact h.not_free hj hb (hst.fresh b hm)

/-- A write through one entry leaves the contents of the others. -/
theorem Stored.contents_other {buffer : List UInt8} {offset : UInt32} {new : List Nat} {w : Nat}
    (hst : Stored s live ch i buffer offset new w s') (h : Inv s.data live ch) (hi : live i) (hr : s.disk.Reliable)
    (hj : live j) (hne : j ≠ i) : contents s' j = contents s j := by
  exact contents_congr h hj hr hst.inv hj hst.reliable (by rw [hst.other j hne]) (Function.update_of_ne hne _ _)
    fun b hb => hst.outside b (h.range hj hb).1 (hst.not_mem h hi hj hne hb)

/-- Removing an entry leaves the contents of the others. -/
theorem Removed.contents_other (hrm : Removed s live ch i s') (h : Inv s.data live ch) (hr : s.disk.Reliable)
    (hj : live j) (hne : j ≠ i) : contents s' j = contents s j :=
  contents_congr h hj hr hrm.inv hj hrm.flushed.reliable (by rw [hrm.freed.other j hne])
    (Function.update_of_ne hne _ _) fun b hb => hrm.flushed.outside b (h.range hj hb).1

/-- Lengthening a chain without writing leaves the contents of the others. -/
theorem Grown.contents_other {new : List Nat} {d' : TinyfsData} (hg : Grown s.data live ch i new d')
    (h : Inv s.data live ch) (hr : s.disk.Reliable) (hj : live j) (hne : j ≠ i) :
    contents { s with data := d' } j = contents s j :=
  contents_congr h hj hr hg.inv hj hr (by rw [hg.other j hne]) (Function.update_of_ne hne _ _) fun _ _ => rfl

/-- Two reads of a file agree on a byte below the file's size when the two chains do. -/
theorem contents_byte (h : Inv s.data live ch) (hi : live i) (hr : s.disk.Reliable) {size offset : UInt32} {q : Nat}
    (hq : q < size.toNat) (hoff : offset.toNat + q < (s.data.dirents.get i).size.toNat) :
    ∃ r l, contents s i size offset = .ok (r, l) ∧ l[q]? = some (byteAt s.disk (ch i) (offset.toNat + q)) := by
  have hlt : offset < (s.data.dirents.get i).size := UInt32.lt_iff_toNat_lt.mpr (by omega)
  refine ⟨_, _, contents_spec h hi hr size offset hlt, ?_⟩
  have hsize := (h.chains.entry i hi).size
  have hcount : q < readCount (s.data.dirents.get i).size size offset (ch i).length := by
    unfold readCount
    split
    · rename_i hcut
      rw [UInt32.toNat_sub_of_le _ _ (UInt32.le_of_lt hlt)]
      omega
    · omega
  simp [hcount]

/-- A read of no bytes. -/
theorem contents_zero (h : Inv s.data live ch) (hi : live i) (hr : s.disk.Reliable) (offset : UInt32) :
    contents s i 0 offset = .ok (0, []) := by
  by_cases hoff : offset < (s.data.dirents.get i).size
  · have hcount : readCount (s.data.dirents.get i).size 0 offset (ch i).length = 0 := by
      have hnot : ¬ (s.data.dirents.get i).size < offset := by
        rw [UInt32.lt_iff_toNat_lt] at hoff ⊢
        omega
      simp [readCount, hnot]
    rw [contents_spec h hi hr 0 offset hoff, hcount]
    rfl
  · refine contents_past 0 ?_
    rw [UInt32.lt_iff_toNat_lt] at hoff
    rw [UInt32.le_iff_toNat_le]
    omega

/-- A read changes nothing. -/
theorem tinyfsRead_of_contents (h : Inv s.data live ch) (hi : live i) (hr : s.disk.Reliable) {node : Node}
    (hn : node.dirent = some i) {size offset : UInt32} {v : Int × List UInt8} (hv : contents s i size offset = .ok v) :
    tinyfsRead s node size offset = .ok (v, s) := by
  by_cases hoff : offset < (s.data.dirents.get i).size
  · rw [contents_spec h hi hr size offset hoff] at hv
    rw [tinyfsRead_spec h hi hr hn size offset hoff, ← Except.ok.inj hv]
  · have hle : (s.data.dirents.get i).size ≤ offset := by
      rw [UInt32.lt_iff_toNat_lt] at hoff
      rw [UInt32.le_iff_toNat_le]
      omega
    rw [contents_past size hle] at hv
    rw [tinyfsRead_past hn size hle, ← Except.ok.inj hv]

theorem cInt_ofNat {k : Nat} (hk : k < 2 ^ 31) : cInt (UInt32.ofNat k) = k := by
  have hn : (UInt32.ofNat k).toBitVec.toNat = k := by
    rw [UInt32.toNat_toBitVec, UInt32.toNat_ofNat']
    omega
  unfold cInt
  rw [BitVec.toInt_eq_toNat_of_lt (by omega), hn]

theorem map_getD_range (l : List UInt8) {k : Nat} (hk : k ≤ l.length) :
    (List.range k).map (fun q => l.getD q 0) = l.take k := by
  refine List.ext_getElem (by simp [hk]) fun q h1 h2 => ?_
  simp only [List.length_map, List.length_range] at h1
  simp [List.getElem?_eq_getElem (show q < l.length by omega)]

/-- The bytes written are read back. -/
theorem Stored.reads {buffer : List UInt8} {offset : UInt32} {new : List Nat} {w : Nat}
    (hst : Stored s live ch i buffer offset new w s') (hi : live i) (hlen : buffer.length < 2 ^ 31) :
    contents s' i (UInt32.ofNat w) offset = .ok ((w : Int), buffer.take w) := by
  have hb : (UInt32.ofNat buffer.length).toNat = buffer.length := by rw [UInt32.toNat_ofNat']; omega
  have hw : w ≤ buffer.length := by
    have hcount := hst.count
    omega
  have hwn : (UInt32.ofNat w).toNat = w := by rw [UInt32.toNat_ofNat']; omega
  by_cases h0 : w = 0
  · subst h0
    exact contents_zero hst.inv hi hst.reliable offset
  · obtain ⟨fb, n, hself, hn⟩ := hst.self
    have hfits := hst.fits
    have hlen' : (ch i ++ new).length ≤ 923 := by simpa using hst.inv.length_le hi
    have hsz : (s'.data.dirents.get i).size = n := by rw [hself]
    have hoff : offset < (s'.data.dirents.get i).size := UInt32.lt_iff_toNat_lt.mpr (by rw [hsz]; omega)
    have hend : (offset + UInt32.ofNat w).toNat = offset.toNat + w := by
      rw [UInt32.toNat_add, hwn]
      omega
    have hcut : ¬ (s'.data.dirents.get i).size < offset + UInt32.ofNat w := by
      rw [UInt32.lt_iff_toNat_lt, hend, hsz]
      omega
    have hcount : readCount (s'.data.dirents.get i).size (UInt32.ofNat w) offset (ch i ++ new).length = w := by
      simp only [readCount, hcut, if_false, hwn]
      omega
    rw [contents_spec hst.inv hi hst.reliable _ offset hoff, Function.update_self, hcount, cInt_ofNat (by omega),
      ← map_getD_range buffer hw]
    congr 2
    refine List.map_congr_left fun q hq => ?_
    have hq' := List.mem_range.mp hq
    rw [hst.bytes, if_pos (by omega), Nat.add_sub_cancel_left]

/-- What a write of `buffer` at `offset` that returned `k` means for a reader. -/
structure WriteEffect (s : Tinyfs) (i : Fin 256) (buffer : List UInt8) (offset : UInt32) (k : Nat) (s' : Tinyfs) :
    Prop where
  count : k ≤ buffer.length
  size : (s'.data.dirents.get i).size.toNat = max (s.data.dirents.get i).size.toNat (offset.toNat + k)
  reads : contents s' i (UInt32.ofNat k) offset = .ok ((k : Int), buffer.take k)
  kept : ∀ (size pos : UInt32) (q : Nat), q < size.toNat → pos.toNat + q < (s.data.dirents.get i).size.toNat →
    pos.toNat + q < offset.toNat ∨ offset.toNat + k ≤ pos.toNat + q →
    ∃ r l r' l' b, contents s i size pos = .ok (r, l) ∧ contents s' i size pos = .ok (r', l') ∧
      l[q]? = some b ∧ l'[q]? = some b
  other : ∀ j, j ≠ i → usedEntry s.data j →
    s'.data.dirents.get j = s.data.dirents.get j ∧ contents s' j = contents s j

/-- **Writing and reading agree**: on a well-formed filesystem, after a write at an offset within the file that
returned `k`, the file has the bytes written at `[offset, offset + k)`, its old bytes elsewhere, and every other file
is as before. -/
theorem write_then_read (hs : WellFormed s.data) (hr : s.disk.Reliable) {node : Node} (hn : node.dirent = some i)
    (hu : usedEntry s.data i) {buffer : List UInt8} (hlen : buffer.length < 2 ^ 31) {offset : UInt32}
    (hoff : offset ≤ (s.data.dirents.get i).size) :
    ∃ r node' s', tinyfsWrite s node buffer offset = .ok (r, node', s') ∧
      (0 ≤ r → ∃ k : Nat, r = k ∧ WriteEffect s i buffer offset k s' ∧
        tinyfsRead s' node' (UInt32.ofNat k) offset = .ok (((k : Int), buffer.take k), s')) := by
  obtain ⟨ch, h⟩ := hs
  have hsize := (h.chains.entry i hu).size
  have hoff' := UInt32.le_iff_toNat_le.mp hoff
  rcases tinyfsWrite_spec h hu hr hn buffer offset with ⟨-, -, he⟩ | ⟨new, d', hg, -, -, -, he⟩ | ⟨new, w, s', he, hst⟩
  · exact ⟨_, _, _, he, fun h0 => absurd h0 (by decide)⟩
  · -- nothing was written: the file has its old bytes and perhaps some more blocks
    have hread := contents_zero (s := { s with data := d' }) hg.inv hu hr offset
    refine ⟨_, _, _, he, fun _ => ⟨0, rfl,
      ⟨Nat.zero_le _, ?_, hread, fun size pos q hq hpos _ => ?_, fun j hj huj => ?_⟩,
      tinyfsRead_of_contents (s := { s with data := d' }) hg.inv hu hr hn hread⟩⟩
    · obtain ⟨fb, hself⟩ := hg.self
      simp only [hself]
      omega
    · obtain ⟨fb, hself⟩ := hg.self
      obtain ⟨r, l, h1, h2⟩ := contents_byte h hu hr hq hpos
      obtain ⟨r', l', h1', h2'⟩ :=
        contents_byte (s := { s with data := d' }) hg.inv hu hr hq (by simpa [hself] using hpos)
      refine ⟨r, l, r', l', _, h1, h1', h2, ?_⟩
      rw [h2', Function.update_self, byteAt_append (by omega)]
    · exact ⟨hg.other j hj, hg.contents_other h hr huj hj⟩
  · have hb : (UInt32.ofNat buffer.length).toNat = buffer.length := by rw [UInt32.toNat_ofNat']; omega
    have hw : w ≤ buffer.length := by
      have hcount := hst.count
      omega
    have hread := hst.reads hu hlen
    have hn' : (nodeAfter s i node offset w).dirent = some i := by
      unfold nodeAfter
      split <;> exact hn
    obtain ⟨fb, n, hself, hnsize⟩ := hst.self
    refine ⟨_, _, _, he, fun _ => ⟨w, cInt_ofNat (by omega), ⟨hw, by rw [hself]; exact hnsize, hread,
      fun size pos q hq hpos hout => ?_, fun j hj huj => ⟨hst.other j hj, hst.contents_other h hu hr huj hj⟩⟩,
      tinyfsRead_of_contents hst.inv hu hst.reliable hn' hread⟩⟩
    obtain ⟨r, l, h1, h2⟩ := contents_byte h hu hr hq hpos
    obtain ⟨r', l', h1', h2'⟩ := contents_byte hst.inv hu hst.reliable hq
      (show pos.toNat + q < (s'.data.dirents.get i).size.toNat by simp only [hself]; omega)
    refine ⟨r, l, r', l', _, h1, h1', h2, ?_⟩
    rw [h2', Function.update_self, hst.bytes, if_neg (by omega), byteAt_append (by omega)]

end Contents

/-- A filesystem with one file, at entry 1. -/
def oneFile : Tinyfs :=
  ⟨⟨formatSuperblock, freshFat, Vector.ofFn fun i => if 1 = i.val then { emptyDirent with used := 1 } else emptyDirent,
    Vector.replicate 32 0⟩, blankDisk⟩

theorem oneFile_get (i : Fin 256) :
    oneFile.data.dirents.get i = if 1 = i.val then { emptyDirent with used := 1 } else emptyDirent := by
  simp only [oneFile, get_eq, Vector.getElem_ofFn]

theorem oneFile_inv (live : Fin 256 → Prop) : Inv oneFile.data live fun _ => [] := by
  refine inv_of_empty _ formatSuperblock_layout fun i => ?_
  rw [oneFile_get]
  split <;> exact ⟨rfl, rfl⟩

theorem oneFile_wellFormed : WellFormed oneFile.data := ⟨_, oneFile_inv _⟩

theorem oneFile_used : usedEntry oneFile.data 1 := by
  simp [usedEntry, oneFile_get]

theorem write_then_read_oneFile : WellFormed oneFile.data ∧ usedEntry oneFile.data 1 ∧
    ∃ r node' s', tinyfsWrite oneFile (nodeOf oneFile.data 1) [1, 2, 3] 0 = .ok (r, node', s') ∧
      (0 ≤ r → ∃ k : Nat, r = k ∧ WriteEffect oneFile 1 [1, 2, 3] 0 k s' ∧
        tinyfsRead s' node' (UInt32.ofNat k) 0 = .ok (((k : Int), [1, 2, 3].take k), s')) := by
  have hu := oneFile_used
  exact ⟨oneFile_wellFormed, hu, write_then_read oneFile_wellFormed blankDisk_reliable rfl hu (by decide)
    (UInt32.le_iff_toNat_le.mpr (Nat.zero_le _))⟩

end AmqOs.Vfs
