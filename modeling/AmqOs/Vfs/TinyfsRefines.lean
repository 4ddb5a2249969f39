import AmqOs.Vfs.TinyfsStore
import AmqOs.Vfs.TinyfsExact

/-!
# TinyFS implements the store

On a disk that never fails, every call of TinyFS is one that the store allows: `create_allows`, `write_allows`,
`unlink_allows`, `read_allows`, `remount_allows` for one call, `tinyfs_refines_store` for any run from a fresh
filesystem.
-/

set_option autoImplicit false

namespace AmqOs.Vfs

open AmqOs.Lib

/-! ## Looking up -/

section Lookups

variable (s : Session)

theorem store_isEntry (inode : UInt32) (name : CString) : s.store.isEntry inode name = isEntry s.fs.data inode name := by
  funext i
  rw [Bool.eq_iff_iff, isEntry_iff]
  simp [Store.isEntry, Session.store, slotOf, usedEntry, and_assoc]

theorem store_isNamed (name : CString) : s.store.isNamed name = isNamed s.fs.data name := by
  funext i
  rw [Bool.eq_iff_iff, isNamed_iff]
  simp [Store.isNamed, Session.store, slotOf, usedEntry]

theorem store_listing (inode : UInt32) : s.store.listing inode = dirEntries s.fs.data inode := by
  unfold Store.listing dirEntries
  congr 1
  funext i
  rw [Bool.eq_iff_iff]
  simp [inDirectory, Session.store, slotOf]

theorem store_freeSlot : s.store.freeSlot = findFreeDirent s.fs.data := by
  unfold Store.freeSlot findFreeDirent
  congr 1
  funext i
  rw [Bool.eq_iff_iff]
  simp [Session.store, slotOf]

theorem nodeOf_handle (i : Fin 256) : (nodeOf s.fs.data i).handle = s.store.handleOf i := by
  by_cases h : (s.fs.data.dirents.get i).isDirectory = 0 <;>
    simp [Node.handle, nodeOf, Store.handleOf, Session.store, slotOf, h]

theorem store_add (node : Option Node) : (s.add node).store = s.store.hold (node.map Node.handle) := by
  cases node <;> simp [Session.add, Session.store, Store.hold]

theorem store_handles (k : Nat) : s.store.handles[k]? = s.nodes[k]?.map Node.handle := by
  simp [Session.store]

/-- A lookup gives the handle of the slot it finds. -/
theorem tinyfsFinddir_handle (mem : Bool) (node : Node) (name : CString) :
    (tinyfsFinddir mem s.fs.data node name).map Node.handle = if node.handle.directory && mem then
      (firstFin 0 (s.store.isEntry node.handle.inode name)).map s.store.handleOf else none := by
  have hdir : node.handle.directory = decide (node.type = .directory) := rfl
  have hinode : node.handle.inode = node.inode := rfl
  unfold tinyfsFinddir
  rw [store_isEntry, hdir, hinode]
  by_cases hd : node.type = .directory
  · cases firstFin 0 (isEntry s.fs.data node.inode name) <;> cases mem <;> simp [hd, nodeOf_handle]
  · simp [hd]

theorem tinyfsReaddir_handle (mem : Bool) (node : Node) (index : UInt32) :
    (tinyfsReaddir mem s.fs.data node index).map Node.handle = if node.handle.directory && mem then
      (s.store.listing node.handle.inode)[index.toNat]?.map s.store.handleOf else none := by
  have hdir : node.handle.directory = decide (node.type = .directory) := rfl
  have hinode : node.handle.inode = node.inode := rfl
  unfold tinyfsReaddir
  rw [store_listing, readdirLoop_eq, hdir, hinode]
  by_cases hd : node.type = .directory
  · cases (dirEntries s.fs.data node.inode)[index.toNat]? <;> cases mem <;> simp [hd, nodeOf_handle]
  · simp [hd]

end Lookups

theorem SessionInv.add {s : Session} (h : SessionInv s) (node : Option Node) : SessionInv (s.add node) :=
  ⟨h.inv, h.counted, h.reliable⟩

@[simp] theorem cname_clearDirent (e : Dirent) : (clearDirent e).cname = [] :=
  CString.ofBytes_eq (s := []) (fun _ h => absurd h (Nat.not_lt_zero _)) (by simp [clearDirent])

/-- A read ends with the blocks of the file at the latest. -/
theorem readCount_le_chain {fsize size offset : UInt32} {n : Nat} : readCount fsize size offset n ≤ 512 * n := by
  unfold readCount
  omega

/-- A stretch of a file. -/
theorem drop_take_range {α : Type} (f : Nat → α) (n offset size : Nat) :
    (((List.range n).map f).drop offset).take size =
      (List.range (min size (n - offset))).map fun q => f (offset + q) := by
  refine List.ext_getElem (by simp) fun q h1 h2 => ?_
  simp

/-- The tables that a mount reads back keep the chains. -/
theorem Inv.congr {d d' : TinyfsData} {live : Fin 256 → Prop} {ch : Fin 256 → List Nat} (h : Inv d live ch)
    (hsb : d'.sb = d.sb) (hfat : d'.fat = d.fat) (hdir : d'.dirents = d.dirents) : Inv d' live ch := by
  refine ⟨by rw [hsb]; exact h.layout, fun i hi => (h.chains.entry i hi).congr (by rw [hdir]) fun x _ => by rw [hfat],
    h.chains.disjoint⟩

/-! ## Files -/

section Files

variable {s s' : Session} {live live' : Fin 256 → Prop} {ch ch' : Fin 256 → List Nat} {i j : Fin 256}

theorem fileBytes_eq {fs : Tinyfs} (h : Inv fs.data live ch) (hi : live i) :
    fileBytes fs i = (List.range (fs.data.dirents.get i).size.toNat).map (byteAt fs.disk (ch i)) := by
  rw [fileBytes, h.entryChain_eq hi]

/-- The same entry with the same bytes. -/
theorem slotOf_congr {fs : Tinyfs} (fs' : Tinyfs) (h : Inv fs.data live ch) (hi : live i) (h' : Inv fs'.data live' ch')
    (hi' : live' i) (he : fs'.data.dirents.get i = fs.data.dirents.get i) (hch : ch' i = ch i)
    (hsec : ∀ b ∈ ch i, fs'.disk.sectors b = fs.disk.sectors b) : slotOf fs' i = slotOf fs i := by
  unfold slotOf
  rw [fileBytes_eq h hi, fileBytes_eq h' hi', he, hch]
  congr 1
  exact List.map_congr_left fun p _ => byteAt_congr hsec

/-- A store that differs in one slot and the free blocks. -/
theorem store_eq (s s' : Session) {e : Slot} (hi : slotOf s'.fs i = e) (hj : ∀ j, j ≠ i → slotOf s'.fs j = slotOf s.fs j)
    (hh : s'.nodes.map Node.handle = s.nodes.map Node.handle) :
    s'.store = (s.store.put i e).withFree s'.fs.data.sb.freeBlocks.toNat := by
  have hslots : slotOf s'.fs = Function.update (slotOf s.fs) i e := by
    funext j
    by_cases hji : j = i
    · rw [hji, Function.update_self, hi]
    · rw [Function.update_of_ne hji, hj j hji]
  unfold Session.store
  rw [hslots, hh]
  rfl

end Files

/-! ## One call -/

section Calls

variable {s : Session} {ch : Fin 256 → List Nat}

theorem create_allows (h : SessionInv s) {k : Nat} {node : Node} (hn : s.nodes[k]? = some node) (name : CString)
    (type : FileType) :
    ∃ r s', tinyfsStep s (.create k name type) = .ok (r, s') ∧ SessionInv s' ∧
      s.store.Creates node.handle name type r s'.store := by
  obtain ⟨⟨ch, hinv⟩, hc, hr⟩ := h
  rcases tinyfsCreateNode_spec hinv.layout.toPlaced hr node name type with ⟨hwhy, he⟩ | ⟨i, fs, he, hcr⟩
  · refine ⟨some (-1), s, by simp [tinyfsStep, hn, he], ⟨⟨ch, hinv⟩, hc, hr⟩, .inl ⟨rfl, rfl, ?_⟩⟩
    rw [store_isEntry, store_freeSlot]
    rcases hwhy with hd | hex | hfull
    · exact .inl (by simp [Node.handle, hd])
    · exact .inr (.inl hex)
    · exact .inr (.inr hfull)
  · have hinv' : Inv fs.data (fun _ => True) (Function.update ch i []) := hcr.inv hinv fun _ _ _ => trivial
    refine ⟨some 0, { s with fs }, by simp [tinyfsStep, hn, he], ⟨⟨_, hinv'⟩, hcr.counted hc, hcr.reliable⟩,
      .inr ⟨rfl, by simp [Node.handle, hcr.isDir], ?_, i, ?_, ?_⟩⟩
    · rw [store_isEntry]
      exact hcr.absent
    · rw [store_freeSlot]
      exact hcr.slot
    · have hslot : slotOf fs i = ⟨true, name.take 31, type = .directory, node.inode, []⟩ := by
        have hname := hcr.cname
        unfold slotOf
        rw [fileBytes_eq hinv' trivial, hname, hcr.self]
        cases type <;> rfl
      have hstore := store_eq s { s with fs } hslot (fun j hj => slotOf_congr fs hinv trivial hinv' trivial
        (hcr.other hj) (Function.update_of_ne hj _ _) fun b hb => hcr.outside b (.inr (hinv.range trivial hb).1)) rfl
      rw [hstore, hcr.sb]
      rfl

/-- The bytes of the new blocks and of the old ones, cut at the new size. -/
theorem Stored.writtenOver {fs fs' : Tinyfs} {i : Fin 256} {buffer : List UInt8} {offset : UInt32} {new : List Nat}
    {w : Nat} (h : Inv fs.data (fun _ => True) ch) (hst : Stored fs (fun _ => True) ch i buffer offset new w fs') :
    WrittenOver (fileBytes fs i) (buffer.take (UInt32.ofNat buffer.length).toNat) offset.toNat w (fileBytes fs' i) := by
  obtain ⟨fb, n, hself, hn⟩ := hst.self
  have hcount := hst.count
  have hsize := (h.chains.entry i trivial).size
  have hold : fileBytes fs i = (List.range (fs.data.dirents.get i).size.toNat).map (byteAt fs.disk (ch i)) :=
    fileBytes_eq h trivial
  have hnew : fileBytes fs' i = (List.range n.toNat).map (byteAt fs'.disk (ch i ++ new)) := by
    rw [fileBytes_eq hst.inv trivial, hself, Function.update_self]
  have hlen : (UInt32.ofNat buffer.length).toNat ≤ buffer.length := by
    rw [UInt32.toNat_ofNat']
    exact Nat.mod_le _ _
  rw [hold, hnew]
  refine ⟨?_, ?_, fun p h1 h2 => ?_, fun p hp hout => ?_⟩
  · rw [List.length_take]
    omega
  · simp only [List.length_map, List.length_range]
    exact hn
  · rw [List.getElem?_map, List.getElem?_range (by omega), Option.map_some, hst.bytes, if_pos ⟨h1, h2⟩,
      List.getElem?_take_of_lt (by omega), List.getD_eq_getElem?_getD, List.getElem?_eq_getElem (by omega)]
    rfl
  · simp only [List.length_map, List.length_range] at hp
    rw [List.getElem?_map, List.getElem?_range (by omega), List.getElem?_map, List.getElem?_range hp, Option.map_some,
      Option.map_some, hst.bytes, if_neg (by omega), byteAt_append (by omega)]

theorem nodeAfter_handle (fs : Tinyfs) (i : Fin 256) (node : Node) (offset : UInt32) (w : Nat) :
    (nodeAfter fs i node offset w).handle = node.handle := by
  unfold nodeAfter
  split <;> rfl

/-- Replacing a node by one with the same handle. -/
theorem map_handle_set {nodes : List Node} {k : Nat} {node node' : Node} (hn : nodes[k]? = some node)
    (hh : node'.handle = node.handle) : (nodes.set k node').map Node.handle = nodes.map Node.handle := by
  rw [List.map_set, hh]
  refine List.ext_getElem? fun j => ?_
  rw [List.getElem?_set]
  split
  · rename_i hj
    subst hj
    split <;> simp_all
  · rfl

theorem write_allows (h : SessionInv s) {k : Nat} {node : Node} (hn : s.nodes[k]? = some node) {i : Fin 256}
    (hd : node.dirent = some i) (buffer : List UInt8) (offset : UInt32) :
    ∃ r s', tinyfsStep s (.write k buffer offset) = .ok (r, s') ∧ SessionInv s' ∧
      s.store.Writes i (buffer.take (UInt32.ofNat buffer.length).toNat) offset.toNat r s'.store := by
  obtain ⟨⟨ch, hinv⟩, hc, hr⟩ := h
  have hsize := (hinv.chains.entry i trivial).size
  rcases tinyfsWrite_spec hinv trivial hr hd buffer offset with ⟨hnil, hf, he⟩ | ⟨new, d', hg, hf, -, hlen, he⟩ |
    ⟨new, w, fs, he, hst⟩
  · refine ⟨some (-1), ⟨s.fs, s.nodes.set k node⟩, by simp [tinyfsStep, hn, he], ⟨⟨ch, hinv⟩, hc, hr⟩,
      .inl ⟨rfl, ?_, ?_, ?_⟩⟩
    · unfold Session.store
      rw [map_handle_set hn rfl]
    · show s.fs.data.sb.freeBlocks.toNat = 0
      rw [hc, hf, Finset.card_empty]
    · show fileBytes s.fs i = []
      rw [hnil] at hsize
      rw [fileBytes, show (s.fs.data.dirents.get i).size.toNat = 0 by simpa using hsize]
      rfl
  · -- the chain is longer than before, but the file has its old bytes
    have hfree := hg.card trivial
    rw [hf, Finset.card_empty] at hfree
    rw [List.length_append] at hlen
    have hc' := hg.counted trivial hc
    have hslots : slotOf { s.fs with data := d' } = slotOf s.fs := by
      funext j
      by_cases hj : j = i
      · subst hj
        obtain ⟨fb, hself⟩ := hg.self
        have hbytes : fileBytes { s.fs with data := d' } j = fileBytes s.fs j := by
          have hnew : fileBytes { s.fs with data := d' } j = _ := fileBytes_eq hg.inv trivial
          rw [fileBytes_eq hinv trivial, hnew, Function.update_self, hself]
          refine List.map_congr_left fun p hp => ?_
          have hlt : p < (s.fs.data.dirents.get j).size.toNat := List.mem_range.mp hp
          exact byteAt_append (by omega)
        unfold slotOf
        rw [hbytes, hself]
        rfl
      · exact slotOf_congr { s.fs with data := d' } hinv trivial hg.inv trivial (hg.other j hj)
          (Function.update_of_ne hj _ _) fun _ _ => rfl
    refine ⟨some 0, ⟨{ s.fs with data := d' }, s.nodes.set k node⟩, by simp [tinyfsStep, hn, he],
      ⟨⟨_, hg.inv⟩, hc', hr⟩, .inr (.inl ⟨rfl, ?_, ?_⟩)⟩
    · unfold Session.store Store.withFree
      rw [map_handle_set hn rfl, hslots, hc', hf, Finset.card_empty]
    · show 512 * s.fs.data.sb.freeBlocks.toNat ≤ offset.toNat
      rw [hc]
      omega
  · have hw := hst.fits
    have hlen : (ch i ++ new).length ≤ 923 := by
      have hle := hst.inv.length_le (i := i) trivial
      rwa [Function.update_self] at hle
    have hfree := hst.card trivial
    have hc' := hst.counted hc
    rw [List.length_append] at hw hlen
    refine ⟨_, ⟨fs, s.nodes.set k (nodeAfter s.fs i node offset w)⟩,
      by simp only [tinyfsStep, hn, he, ok_bind, cInt_ofNat (show w < 2 ^ 31 by omega)],
      ⟨⟨_, hst.inv⟩, hc', hst.reliable⟩, .inr (.inr ⟨w, fileBytes fs i, fs.data.sb.freeBlocks.toNat, rfl,
        hst.writtenOver hinv, ?_, fun hlt => ?_, ?_⟩)⟩
    · show fs.data.sb.freeBlocks.toNat ≤ s.fs.data.sb.freeBlocks.toNat
      rw [hc', hc]
      omega
    · have hcount := hst.count
      rw [List.length_take] at hlt ⊢
      have hfull : freeSet fs.data.fat = ∅ ∧ offset.toNat + w = 512 * (ch i ++ new).length := by
        rcases hcount with h1 | ⟨-, h2, h3⟩
        · omega
        · exact ⟨h2, h3⟩
      refine ⟨by rw [hc', hfull.1, Finset.card_empty], ?_⟩
      show 512 * s.fs.data.sb.freeBlocks.toNat < _
      have h2 := hfull.2
      rw [hfull.1, Finset.card_empty] at hfree
      rw [List.length_append] at h2
      rw [hc]
      omega
    · have hslot : slotOf fs i = { slotOf s.fs i with bytes := fileBytes fs i } := by
        obtain ⟨fb, n, hself, -⟩ := hst.self
        unfold slotOf
        rw [hself]
        rfl
      exact store_eq s ⟨fs, s.nodes.set k (nodeAfter s.fs i node offset w)⟩ hslot (fun j hj =>
        slotOf_congr fs hinv trivial hst.inv trivial (hst.other j hj) (Function.update_of_ne hj _ _) fun b hb =>
          hst.outside b (hinv.range trivial hb).1 (hst.not_mem hinv trivial trivial hj hb))
        (map_handle_set hn (nodeAfter_handle _ _ _ _ _))

theorem unlink_allows (h : SessionInv s) {k : Nat} {node : Node} (hn : s.nodes[k]? = some node) (name : CString) :
    ∃ r s', tinyfsStep s (.unlink k name) = .ok (r, s') ∧ SessionInv s' ∧
      s.store.Removes node.handle name r s'.store := by
  obtain ⟨⟨ch, hinv⟩, hc, hr⟩ := h
  rcases tinyfsUnlink_spec hinv hr node name fun _ _ => trivial with ⟨hwhy, he⟩ | ⟨hd, i, fs, hf, he, hrm⟩
  · refine ⟨some (-1), s, by simp [tinyfsStep, hn, he], ⟨⟨ch, hinv⟩, hc, hr⟩, .inl ⟨rfl, rfl, ?_⟩⟩
    rw [store_isNamed]
    exact hwhy.imp_left fun hd => by simp [Node.handle, hd]
  · have hc' := hrm.freed.counted hinv trivial hc
    have hcard := hrm.freed.card hinv trivial
    have hsize := (hinv.chains.entry i trivial).size
    refine ⟨some 0, { s with fs }, by simp [tinyfsStep, hn, he], ⟨⟨_, hrm.inv⟩, hc', hrm.flushed.reliable⟩,
      .inr ⟨rfl, by simp [Node.handle, hd], i, fs.data.sb.freeBlocks.toNat, ?_, ?_, ?_⟩⟩
    · rw [store_isNamed]
      exact hf
    · show s.fs.data.sb.freeBlocks.toNat + ((fileBytes s.fs i).length + 511) / 512 ≤ _
      rw [hc, hc', fileBytes, List.length_map, List.length_range]
      omega
    · have hslot : slotOf fs i = { slotOf s.fs i with used := false, name := [], bytes := [] } := by
        unfold slotOf
        rw [fileBytes_eq hrm.inv trivial, hrm.freed.self, cname_clearDirent]
        rfl
      exact store_eq s { s with fs } hslot (fun j hj => slotOf_congr fs hinv trivial hrm.inv trivial
        (hrm.freed.other j hj) (Function.update_of_ne hj _ _) fun b hb =>
          hrm.flushed.outside b (hinv.range trivial hb).1) rfl

/-- A read ends where the file does, or where its blocks do when the end of the request is beyond 32 bits. -/
theorem read_allows (h : SessionInv s) {k : Nat} {node : Node} (hn : s.nodes[k]? = some node) {i : Fin 256}
    (hd : node.dirent = some i) (raw : TinyfsData) (size offset : UInt32) :
    ∃ r bytes, storeStep raw s (.read k size offset) = .ok (.data r bytes, s) ∧
      s.store.Reads i size.toNat offset.toNat r bytes := by
  obtain ⟨⟨ch, hinv⟩, hc, hr⟩ := h
  have hsize := (hinv.chains.entry i trivial).size
  have hlen := hinv.length_le (i := i) trivial
  have hfile : (s.store.slots i).bytes =
      (List.range (s.fs.data.dirents.get i).size.toNat).map (byteAt s.fs.disk (ch i)) := fileBytes_eq hinv trivial
  by_cases hoff : offset < (s.fs.data.dirents.get i).size
  · have hread := tinyfsRead_spec hinv trivial hr hd size offset hoff
    have hle := le_readCount size (UInt32.le_of_lt hoff) hsize
    have hiff := @readCount_eq_iff _ size _ _ hoff hsize hlen
    have hmax := @readCount_le_chain (s.fs.data.dirents.get i).size size offset (ch i).length
    generalize readCount (s.fs.data.dirents.get i).size size offset (ch i).length = n at hread hle hiff hmax
    refine ⟨_, _, by simp only [storeStep, hn, hread, ok_bind]; rfl, ?_, ?_⟩
    · rw [cInt_ofNat (by omega)]
      simp
    · refine ⟨(List.range (n - min size.toNat ((s.fs.data.dirents.get i).size.toNat - offset.toNat))).map fun q =>
        byteAt s.fs.disk (ch i) (offset.toNat +
          (min size.toNat ((s.fs.data.dirents.get i).size.toNat - offset.toNat) + q)), ?_, fun hfit => ?_⟩
      · rw [hfile, drop_take_range]
        conv_lhs => rw [← Nat.add_sub_of_le hle, List.range_add, List.map_append, List.map_map]
        rfl
      · rw [hiff.mpr (.inl hfit), Nat.sub_self]
        rfl
  · have hle : (s.fs.data.dirents.get i).size ≤ offset := by
      rw [UInt32.lt_iff_toNat_lt] at hoff
      rw [UInt32.le_iff_toNat_le]
      omega
    refine ⟨0, [], by simp only [storeStep, hn, tinyfsRead_past hd size hle, ok_bind], rfl, [], ?_, fun _ => rfl⟩
    rw [hfile, List.drop_eq_nil_of_le]
    · simp
    · rw [List.length_map, List.length_range]
      exact UInt32.le_iff_toNat_le.mp hle

/-- An unmount and a mount bring back every slot. -/
theorem remount_allows (h : SessionInv s) (raw : TinyfsData) (device : CString) :
    ∃ s', s.remount raw device = (.number (some 0), s') ∧ SessionInv s' ∧ s'.store = { s.store with handles := [] } := by
  obtain ⟨⟨ch, hinv⟩, hc, hr⟩ := h
  obtain ⟨disk, hu, hfl⟩ : ∃ disk, tinyfsUnmount (some s.fs.data) s.fs.disk = (0, none, disk) ∧
      Flushed s.fs.data s.fs.disk disk := ⟨_, rfl, unmounted_flushed hinv.layout.toPlaced hr⟩
  obtain ⟨d, hm, hsb, hfat, hdir⟩ := mount_of_onDisk hinv.layout.toPlaced hfl.reliable hfl.onDisk raw device
  have hinv' : Inv d (fun _ => True) ch := hinv.congr hsb hfat hdir
  refine ⟨⟨⟨d, disk⟩, []⟩, ?_, ⟨⟨ch, hinv'⟩, ?_, hfl.reliable⟩, ?_⟩
  · unfold Session.remount
    rw [hu]
    dsimp only
    rw [hm]
  · unfold Counted at hc ⊢
    rw [hsb, hfat, hc]
  · have hslots : slotOf ⟨d, disk⟩ = slotOf s.fs := by
      funext i
      exact slotOf_congr ⟨d, disk⟩ hinv trivial hinv' trivial (by rw [hdir]) rfl fun b hb =>
        hfl.outside b (hinv.range trivial hb).1
    unfold Session.store
    rw [hslots, hsb]
    rfl

end Calls

/-! ## Every call, every run -/

/-- **One call**: what TinyFS answers and leaves is allowed by the store. -/
theorem storeStep_allows (raw : TinyfsData) {s : Session} (h : SessionInv s) (op : StoreOp) :
    ∃ r s', storeStep raw s op = .ok (r, s') ∧ SessionInv s' ∧ s.store.Allows op r s'.store := by
  cases op with
  | remount device =>
    obtain ⟨s', he, hs', hstore⟩ := remount_allows h raw device
    exact ⟨_, s', by simp only [storeStep, he], hs', rfl, hstore⟩
  | read k size offset =>
    cases hn : s.nodes[k]? with
    | none => exact ⟨.number none, s, by simp [storeStep, hn], h, rfl, by simp [store_handles, hn]⟩
    | some node =>
      cases hd : node.dirent with
      | none =>
        refine ⟨.data 0 [], s, by simp [storeStep, hn, tinyfsRead, hd], h, rfl, ?_⟩
        simp [store_handles, hn, Node.handle, hd]
      | some i =>
        obtain ⟨r, bytes, he, hreads⟩ := read_allows h hn hd raw size offset
        refine ⟨_, s, he, h, rfl, ?_⟩
        simp only [store_handles, hn, Option.map_some, Node.handle, hd]
        exact ⟨r, bytes, rfl, hreads⟩
  | call op =>
    suffices hcall : ∃ r s', tinyfsStep s op = .ok (r, s') ∧ SessionInv s' ∧
        s.store.Allows (.call op) (.number r) s'.store by
      obtain ⟨r, s', he, hs', hallows⟩ := hcall
      exact ⟨.number r, s', by simp [storeStep, he], hs', hallows⟩
    cases op with
    | getRoot mem =>
      refine ⟨_, _, rfl, h.add _, rfl, ?_⟩
      rw [store_add]
      cases mem <;> rfl
    | finddir mem k name =>
      refine ⟨_, _, rfl, h.add _, rfl, ?_⟩
      rw [store_add, store_handles, Option.map_bind, Option.bind_map]
      congr 2
      funext node
      exact tinyfsFinddir_handle s mem node name
    | readdir mem k index =>
      refine ⟨_, _, rfl, h.add _, rfl, ?_⟩
      rw [store_add, store_handles, Option.map_bind, Option.bind_map]
      congr 2
      funext node
      exact tinyfsReaddir_handle s mem node index
    | create k name type =>
      cases hn : s.nodes[k]? with
      | none => exact ⟨none, s, by simp [tinyfsStep, hn], h, by simp [Store.Allows, store_handles, hn]⟩
      | some node =>
        obtain ⟨r, s', he, hs', hcr⟩ := create_allows h hn name type
        exact ⟨r, s', he, hs', by simpa [Store.Allows, store_handles, hn] using hcr⟩
    | write k buffer offset =>
      cases hn : s.nodes[k]? with
      | none => exact ⟨none, s, by simp [tinyfsStep, hn], h, by simp [Store.Allows, store_handles, hn]⟩
      | some node =>
        cases hd : node.dirent with
        | none =>
          refine ⟨some (-1), ⟨s.fs, s.nodes.set k node⟩, by simp [tinyfsStep, hn, tinyfsWrite, hd], ⟨h.inv, h.counted,
            h.reliable⟩, ?_⟩
          simp only [Store.Allows, store_handles, hn, Option.map_some, Node.handle, hd]
          refine ⟨trivial, ?_⟩
          unfold Session.store
          rw [map_handle_set hn rfl]
        | some i =>
          obtain ⟨r, s', he, hs', hw⟩ := write_allows h hn hd buffer offset
          refine ⟨r, s', he, hs', ?_⟩
          simp only [Store.Allows, store_handles, hn, Option.map_some, Node.handle, hd]
          exact ⟨r, rfl, hw⟩
    | unlink k name =>
      cases hn : s.nodes[k]? with
      | none => exact ⟨none, s, by simp [tinyfsStep, hn], h, by simp [Store.Allows, store_handles, hn]⟩
      | some node =>
        obtain ⟨r, s', he, hs', hrm⟩ := unlink_allows h hn name
        exact ⟨r, s', he, hs', by simpa [Store.Allows, store_handles, hn] using hrm⟩

theorem Fresh.store {fs : Tinyfs} (h : Fresh fs) : Session.store ⟨fs, []⟩ = Store.empty := by
  have hslots : slotOf fs = fun _ => ⟨false, [], false, 0, []⟩ := by
    funext i
    unfold slotOf fileBytes
    rw [h.dirents, freshDirents_get]
    rfl
  have hfree : fs.data.sb.freeBlocks.toNat = 923 := by
    rw [h.sb]
    rfl
  unfold Session.store
  rw [hslots, hfree]
  rfl

/-- **TinyFS is a store**: whatever is called on a fresh filesystem, reads and remounts among it, the answers are those
of the store, and so are the files in the end. -/
theorem tinyfs_refines_store {disk : Disk} (hr : disk.Reliable) (raw : TinyfsData) (device : CString) {fs : Tinyfs}
    (hfs : formatAndMount raw device disk = some fs) (ops : List StoreOp) :
    ∃ answers s, runFrom (storeStep raw) ⟨fs, []⟩ ops = .ok (answers, s) ∧
      Traces Store.Allows Store.empty ops answers s.store := by
  obtain ⟨fs', hfs', hfresh, -⟩ := formatAndMount_fresh hr raw device
  obtain rfl : fs' = fs := Option.some.inj (hfs'.symm.trans hfs)
  obtain ⟨answers, s, hrun, -, htrace⟩ := runFrom_refines Session.store SessionInv
    (fun _ op h => storeStep_allows raw h op) hfresh.session ops
  rw [hfresh.store] at htrace
  exact ⟨answers, s, hrun, htrace⟩

/-- Make a file, write it, unmount, mount, read it. -/
theorem tinyfs_refines_store_blank : ∃ fs answers s, formatAndMount blankData [] blankDisk = some fs ∧
    runFrom (storeStep blankData) ⟨fs, []⟩ [.call (.getRoot true), .call (.create 0 [] .regular),
      .call (.finddir true 0 []), .call (.write 1 [7] 600), .remount [], .call (.getRoot true),
      .call (.finddir true 0 []), .read 1 1 600] = .ok (answers, s) ∧
    Traces Store.Allows Store.empty [.call (.getRoot true), .call (.create 0 [] .regular),
      .call (.finddir true 0 []), .call (.write 1 [7] 600), .remount [], .call (.getRoot true),
      .call (.finddir true 0 []), .read 1 1 600] answers s.store := by
  obtain ⟨fs, hfs, -⟩ := formatAndMount_fresh blankDisk_reliable blankData []
  obtain ⟨answers, s, hrun, htrace⟩ := tinyfs_refines_store blankDisk_reliable blankData [] hfs _
  exact ⟨fs, answers, s, hfs, hrun, htrace⟩

end AmqOs.Vfs
