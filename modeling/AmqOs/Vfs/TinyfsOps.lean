import AmqOs.Vfs.TinyfsWrite

/-!
# The operations of TinyFS

One spec lemma for each operation, over a state with the invariant and a reliable disk:

- `tinyfsRead_spec`: the bytes of the chain at the positions asked for, and nothing changes;
- `tinyfsWrite_spec`: the disk is full before anything happens, or becomes full while the chain is extended, or the
  bytes are stored (`Stored`);
- `tinyfsCreateNode_spec`, `tinyfsUnlink_spec`: refused, or one entry is set up (`Created`) or removed (`Removed`).
-/

set_option autoImplicit false

namespace AmqOs.Vfs

open AmqOs.Lib

section Ops

variable {s : Tinyfs} {live : Fin 256 → Prop} {ch : Fin 256 → List Nat} {i : Fin 256}

/-! ## Reading -/

/-- The number of bytes a read of `size` bytes at `offset` returns, for a file of `fsize` bytes in `n` blocks: the
request is cut at the end of the file, unless `offset + size` wraps, and always at the end of the chain. -/
def readCount (fsize size offset : UInt32) (n : Nat) : Nat :=
  min (if fsize < offset + size then fsize - offset else size).toNat (512 * n - offset.toNat)

/-- **Reading.** -/
theorem tinyfsRead_spec (h : Inv s.data live ch) (hi : live i) (hr : s.disk.Reliable) {node : Node}
    (hn : node.dirent = some i) (size offset : UInt32) (hoff : offset < (s.data.dirents.get i).size) :
    let n := readCount (s.data.dirents.get i).size size offset (ch i).length
    tinyfsRead s node size offset =
      .ok ((cInt (UInt32.ofNat n), (List.range n).map fun q => byteAt s.disk (ch i) (offset.toNat + q)), s) := by
  intro n
  have hsize := (h.chains.entry i hi).size
  have hoff' : offset.toNat < (s.data.dirents.get i).size.toNat := UInt32.lt_iff_toNat_lt.mp hoff
  have hpos : 0 < (ch i).length := by omega
  have hne : ch i ≠ [] := List.length_pos_iff.mp hpos
  have hfirst : (ch i)[0]? = some (s.data.dirents.get i).firstBlock.toNat := by
    rw [List.getElem?_eq_getElem hpos, (h.fatChain hi hne).2.getElem_zero hpos]
  obtain ⟨cur, hwalk, hcur⟩ := readWalk_spec h hi hfirst (offset.toNat / 512) (by omega)
  have hloop : ∀ size : UInt32, n = min size.toNat (512 * (ch i).length - offset.toNat) →
      readLoop s.data size.toNat size.toNat cur (offset.toNat % 512) [] s.disk =
        .ok (some n, (List.range n).map fun q => byteAt s.disk (ch i) (offset.toNat + q), s.disk) := fun size ht =>
    readLoop_spec h hi hr ht (r := 0) (by omega) (le_refl _) fun _ => .inr ⟨hcur, by omega, Nat.mod_lt _ (by omega)⟩
  have hnot : ¬ (s.data.dirents.get i).size ≤ offset := by
    rw [UInt32.le_iff_toNat_le]
    omega
  simp only [tinyfsRead, hn, hnot, if_false, hwalk, ok_bind, hloop _ rfl]

theorem tinyfsRead_past {node : Node} (hn : node.dirent = some i) (size : UInt32) {offset : UInt32}
    (hoff : (s.data.dirents.get i).size ≤ offset) : tinyfsRead s node size offset = .ok ((0, []), s) := by
  simp [tinyfsRead, hn, hoff]

/-! ## Writing -/

/-- What a write of `buffer` at `offset` through entry `i` has done when `w` of its bytes are stored. -/
structure Stored (s : Tinyfs) (live : Fin 256 → Prop) (ch : Fin 256 → List Nat) (i : Fin 256) (buffer : List UInt8)
    (offset : UInt32) (new : List Nat) (w : Nat) (s' : Tinyfs) : Prop where
  inv : Inv s'.data live (Function.update ch i (ch i ++ new))
  fresh : ∀ b ∈ new, b ∈ freeSet s.data.fat
  free : freeSet s'.data.fat = freeSet s.data.fat \ new.toFinset
  counted : Counted s.data → Counted s'.data
  self : ∃ fb n, s'.data.dirents.get i = { s.data.dirents.get i with firstBlock := fb, size := n } ∧
    n.toNat = max (s.data.dirents.get i).size.toNat (offset.toNat + w)
  other : ∀ j, j ≠ i → s'.data.dirents.get j = s.data.dirents.get j
  reach : offset.toNat / 512 < (ch i ++ new).length
  fits : offset.toNat + w ≤ 512 * (ch i ++ new).length
  count : w = (UInt32.ofNat buffer.length).toNat ∨ w < (UInt32.ofNat buffer.length).toNat ∧
    freeSet s'.data.fat = ∅ ∧ offset.toNat + w = 512 * (ch i ++ new).length
  reliable : s'.disk.Reliable
  onDisk : OnDisk s'.data s'.disk
  outside : ∀ l, 101 ≤ l → l ∉ ch i ++ new → s'.disk.sectors l = s.disk.sectors l
  bytes : ∀ p, byteAt s'.disk (ch i ++ new) p =
    if offset.toNat ≤ p ∧ p < offset.toNat + w then buffer.getD (p - offset.toNat) 0
    else byteAt s.disk (ch i ++ new) p

theorem Stored.card {buffer : List UInt8} {offset : UInt32} {new : List Nat} {w : Nat} {s' : Tinyfs}
    (h : Stored s live ch i buffer offset new w s') (hi : live i) :
    (freeSet s'.data.fat).card + new.length = (freeSet s.data.fat).card :=
  card_freeSet_taken (by simpa using h.inv.nodup hi) h.fresh h.free

/-- The node after a write: its size follows that of the entry when the file grows. -/
def nodeAfter (s : Tinyfs) (i : Fin 256) (node : Node) (offset : UInt32) (w : Nat) : Node :=
  if (s.data.dirents.get i).size < offset + UInt32.ofNat w then { node with size := offset + UInt32.ofNat w } else node

/-- The offset of the end of a write does not wrap. -/
theorem toNat_end {offset : UInt32} {w n : Nat} (hf : offset.toNat + w ≤ 512 * n) (hn : n ≤ 923) :
    (offset + UInt32.ofNat w).toNat = offset.toNat + w := by
  rw [UInt32.toNat_add, UInt32.toNat_ofNat']
  omega

/-- The size of entry `i` is raised. -/
theorem Inv.resize {d : TinyfsData} (h : Inv d live ch) (hi : live i) {n : UInt32}
    (hn : n.toNat ≤ 512 * (ch i).length) : Inv (d.modifyDirent i fun e => { e with size := n }) live ch := by
  refine ⟨h.layout, ?_⟩
  have hrep : Chains (d.modifyDirent i fun e => { e with size := n }) live (Function.update ch i (ch i)) := by
    refine h.chains.replace (fun _ _ hj => hj) (fun j hj => modifyDirent_of_ne _ _ hj) (fun _ _ _ _ _ => rfl)
      (fun _ => ?_) fun j hji hj => h.chains.disjoint i j hi hj (Ne.symm hji)
    have he := h.chains.entry i hi
    exact ⟨by simpa using he.empty, by simpa using he.chain, he.range, by simpa using hn⟩
  simpa using hrep

/-- The tables after the update of the size at the end of a write. -/
theorem Grown.resized {d d₁ : TinyfsData} {offset : UInt32} {new : List Nat} {w : Nat} (hi : live i)
    (hg : Grown d live ch i new d₁) (hfits : offset.toNat + w ≤ 512 * (ch i ++ new).length) :
    ∃ d' fb n, d' = (if (d₁.dirents.get i).size < offset + UInt32.ofNat w then
        d₁.modifyDirent i fun e => { e with size := offset + UInt32.ofNat w } else d₁) ∧
      d'.fat = d₁.fat ∧ d'.sb = d₁.sb ∧ d'.dirents.get i = { d.dirents.get i with firstBlock := fb, size := n } ∧
      n.toNat = max (d.dirents.get i).size.toNat (offset.toNat + w) ∧ (∀ j, j ≠ i → d'.dirents.get j = d.dirents.get j) ∧
      Inv d' live (Function.update ch i (ch i ++ new)) := by
  obtain ⟨fb, hself⟩ := hg.self
  have hszn : (d₁.dirents.get i).size.toNat = (d.dirents.get i).size.toNat := by rw [hself]
  have hend := toNat_end hfits (by simpa using hg.inv.length_le hi)
  by_cases hgrow : (d₁.dirents.get i).size < offset + UInt32.ofNat w
  · have hlt := UInt32.lt_iff_toNat_lt.mp hgrow
    rw [if_pos hgrow]
    refine ⟨_, fb, offset + UInt32.ofNat w, rfl, rfl, rfl, by rw [modifyDirent_self, hself], by omega, fun j hj => ?_,
      hg.inv.resize hi ?_⟩
    · rw [modifyDirent_of_ne _ _ hj, hg.other j hj]
    · rw [Function.update_self]
      omega
  · have hle : ¬ (d.dirents.get i).size.toNat < offset.toNat + w := fun hlt =>
      hgrow (UInt32.lt_iff_toNat_lt.mpr (by omega))
    rw [if_neg hgrow]
    exact ⟨_, fb, _, rfl, rfl, rfl, hself, by omega, hg.other, hg.inv⟩

/-- The end of a write. -/
theorem finishWrite_spec {buffer : List UInt8} {offset : UInt32} {new : List Nat} {d₁ : TinyfsData} {w : Nat}
    {disk₁ : Disk} (node : Node) (hi : live i) (hg : Grown s.data live ch i new d₁)
    (hw : Written buffer offset.toNat 0 w s.disk (ch i ++ new) disk₁)
    (hreach : offset.toNat / 512 < (ch i ++ new).length)
    (hcount : w = (UInt32.ofNat buffer.length).toNat ∨ w < (UInt32.ofNat buffer.length).toNat ∧
      freeSet d₁.fat = ∅ ∧ offset.toNat + w = 512 * (ch i ++ new).length) :
    ∃ s', finishWrite d₁ disk₁ node i offset (UInt32.ofNat w) = (nodeAfter s i node offset w, s') ∧
      Stored s live ch i buffer offset new w s' := by
  obtain ⟨fb₁, hself⟩ := hg.self
  have hsz : (d₁.dirents.get i).size = (s.data.dirents.get i).size := by rw [hself]
  obtain ⟨d', fb, n, hd', hfat, hsb, hentry, hn, hother, hinv⟩ := hg.resized hi hw.fits
  have hfl := flush_write (d := d') hinv.layout.toPlaced hw.reliable
  generalize hdisk : (writeSuperblock d' (writeFat d' (writeDirectory d' disk₁).2).2).2 = disk' at hfl
  have hfin : finishWrite d₁ disk₁ node i offset (UInt32.ofNat w) = (nodeAfter s i node offset w, ⟨d', disk'⟩) := by
    have hnode : (if (d₁.dirents.get i).size < offset + UInt32.ofNat w
        then { node with size := (d'.dirents.get i).size } else node) = nodeAfter s i node offset w := by
      rw [nodeAfter, ← hsz]
      split
      · rename_i hgrow
        simp only [hd', hgrow, if_true, modifyDirent_self]
      · rfl
    simp only [finishWrite, ← hd', hdisk, hnode]
  refine ⟨⟨d', disk'⟩, hfin, hinv, hg.fresh, hfat ▸ hg.free, fun hc => ?_, ⟨fb, n, hentry, hn⟩, hother, hreach, hw.fits,
    hfat ▸ hcount, hfl.reliable, hfl.onDisk, fun l hl hlc => ?_, fun p => ?_⟩
  · have hc₁ := hg.counted hi hc
    unfold Counted at hc₁ ⊢
    rw [hfat, hsb]
    exact hc₁
  · exact (hfl.outside l hl).trans (hw.outside l hlc)
  · have hout : ∀ b ∈ ch i ++ new, 101 ≤ b := fun b hb => (hinv.range hi (by simpa using hb)).1
    rw [byteAt_congr fun b hb => hfl.outside b (hout b hb), hw.bytes p]
    simp only [Nat.add_zero]

/-- **Writing**: refused with a full disk, cut short by a full disk while the chain is extended, or done. -/
theorem tinyfsWrite_spec (h : Inv s.data live ch) (hi : live i) (hr : s.disk.Reliable) {node : Node}
    (hn : node.dirent = some i) (buffer : List UInt8) (offset : UInt32) :
    (ch i = [] ∧ freeSet s.data.fat = ∅ ∧ tinyfsWrite s node buffer offset = .ok (-1, node, s)) ∨
    (∃ new d', Grown s.data live ch i new d' ∧ freeSet d'.fat = ∅ ∧ ch i ++ new ≠ [] ∧
      (ch i ++ new).length ≤ offset.toNat / 512 ∧
      tinyfsWrite s node buffer offset = .ok (0, node, { s with data := d' })) ∨
    ∃ new w s', tinyfsWrite s node buffer offset =
        .ok (cInt (UInt32.ofNat w), nodeAfter s i node offset w, s') ∧
      Stored s live ch i buffer offset new w s' := by
  rcases ensureFirstBlock_spec h hi with ⟨he, hnil, hf⟩ | ⟨new₁, d₁, he, hg₁, hfirst, hlen₁⟩
  · exact .inl ⟨hnil, hf, by simp [tinyfsWrite, hn, he]⟩
  · right
    have hfirst' : (Function.update ch i (ch i ++ new₁) i)[0]? = some (d₁.dirents.get i).firstBlock.toNat := by
      simpa using hfirst
    obtain ⟨new₂, d₂, hg₂, hext⟩ := extendLoop_spec hg₁.inv hi hfirst' (offset.toNat / 512)
    have hg := hg₁.trans hg₂
    simp only [Function.update_self, List.append_assoc, Nat.zero_add] at hext
    rcases hext with ⟨cur, hx, hcur, -⟩ | ⟨hx, hf, hlen⟩
    · right
      have hreach := (List.getElem?_eq_some_iff.mp hcur).1
      obtain ⟨new₃, d₃, disk₃, w, hl, hg₃, hw, hcount⟩ := writeLoop_spec buffer offset.toNat hi (w := 0) zeroBuffer
        hg.inv hr (j := offset.toNat / 512) (by simpa using hcur) (Nat.mod_lt offset.toNat (show 512 > 0 by omega))
        (fun _ => by omega) (Nat.zero_le _) (by simp only [Function.update_self]; omega)
        (show (UInt32.ofNat buffer.length).toNat - 0 ≤ (UInt32.ofNat buffer.length).toNat by omega)
      have hg' := hg.trans hg₃
      simp only [Function.update_self, List.append_assoc] at hw hcount
      obtain ⟨s', hfin, hst⟩ := finishWrite_spec node hi hg' (by simpa using hw)
        (by simp only [List.length_append] at hreach ⊢; omega) (by simpa using hcount)
      refine ⟨_, w, s', ?_, hst⟩
      simp only [tinyfsWrite, hn, he, ok_bind, hx, hl, hfin]
    · left
      refine ⟨new₁ ++ new₂, d₂, hg, hf, ?_, by simpa using hlen, by simp [tinyfsWrite, hn, he, hx]⟩
      have hpos := (List.getElem?_eq_some_iff.mp hfirst).1
      intro e
      rw [← List.append_assoc] at e
      simp only [(List.append_eq_nil_iff.mp e).1, List.length_nil] at hpos
      omega

/-! ## Creating -/

/-- Entry `i` gets no blocks, the others keep theirs. -/
theorem Inv.emptied {d d' : TinyfsData} {live' : Fin 256 → Prop} (h : Inv d live ch)
    (hl : ∀ j, j ≠ i → live' j → live j) (hsb : d'.sb = d.sb) (hfat : d'.fat = d.fat)
    (hself : (d'.dirents.get i).firstBlock = 0 ∧ (d'.dirents.get i).size = 0)
    (hother : ∀ j, j ≠ i → d'.dirents.get j = d.dirents.get j) : Inv d' live' (Function.update ch i []) := by
  refine ⟨hsb ▸ h.layout, h.chains.replace hl hother (fun _ _ _ x _ => by rw [hfat]) (fun _ => ?_)
    fun _ _ _ => List.disjoint_nil_left _⟩
  refine ⟨fun _ => rfl, fun h0 => absurd hself.1 h0, by simp, ?_⟩
  rw [hself.2]
  exact Nat.zero_le _

/-- What a successful create has done. -/
structure Created (s : Tinyfs) (parent : Node) (name : CString) (type : FileType) (i : Fin 256) (s' : Tinyfs) :
    Prop where
  isDir : parent.type = .directory
  absent : ∀ j, isEntry s.data parent.inode name j = false
  slot : findFreeDirent s.data = some i
  data : s'.data = s.data.modifyDirent i fun e => createDirent e name type parent.inode
  reliable : s'.disk.Reliable
  inside : ∀ k < 90, s'.disk.sectors (11 + k) = toSector (dirBuffer s'.data.dirents k)
  outside : ∀ l, l < 11 ∨ 101 ≤ l → s'.disk.sectors l = s.disk.sectors l

/-- **Creating**: refused, or the first free entry is set up. -/
theorem tinyfsCreateNode_spec (hp : Placed s.data.sb) (hr : s.disk.Reliable) (parent : Node) (name : CString)
    (type : FileType) :
    ((parent.type ≠ .directory ∨ (∃ j, isEntry s.data parent.inode name j = true) ∨
        findFreeDirent s.data = none) ∧ tinyfsCreateNode s parent name type = (-1, s)) ∨
      ∃ i s', tinyfsCreateNode s parent name type = (0, s') ∧ Created s parent name type i s' := by
  by_cases hd : parent.type = .directory
  · cases hfound : firstFin 0 (isEntry s.data parent.inode name) with
    | some j =>
      left
      have hj := (firstFin_eq_some.mp hfound).2.1
      exact ⟨.inr (.inl ⟨j, hj⟩), by simp [tinyfsCreateNode, hd, hfound]⟩
    | none =>
      have habs : ∀ j, isEntry s.data parent.inode name j = false := fun j =>
        firstFin_eq_none.mp hfound j (Nat.zero_le _)
      cases hslot : findFreeDirent s.data with
      | none => exact .inl ⟨.inr (.inr rfl), by simp [tinyfsCreateNode, hd, hfound, hslot]⟩
      | some i =>
        right
        obtain ⟨disk', he, hw⟩ := writeDirectory_spec
          (d := s.data.modifyDirent i fun e => createDirent e name type parent.inode) hp hr
        refine ⟨i, ⟨s.data.modifyDirent i fun e => createDirent e name type parent.inode, disk'⟩,
          by simp [tinyfsCreateNode, hd, hfound, hslot, he], hd, habs, hslot, rfl, hw.reliable, hw.inside,
          fun l hl => hw.outside l fun k hk => by omega⟩
  · exact .inl ⟨.inl hd, by simp [tinyfsCreateNode, hd]⟩

theorem findFreeDirent_some {d : TinyfsData} (h : findFreeDirent d = some i) :
    1 ≤ i.val ∧ (d.dirents.get i).used = 0 ∧ ∀ j : Fin 256, 1 ≤ j.val → j < i → usedEntry d j := by
  obtain ⟨h1, h2, h3⟩ := firstFin_eq_some.mp h
  refine ⟨h1, by simpa using h2, fun j hj hji => ?_⟩
  have h4 := h3 j hj hji
  simpa [usedEntry] using h4

theorem findFreeDirent_none {d : TinyfsData} (h : findFreeDirent d = none) (j : Fin 256) (hj : 1 ≤ j.val) :
    usedEntry d j := by
  have h1 := firstFin_eq_none.mp h j hj
  simpa [usedEntry] using h1

namespace Created

variable {s' : Tinyfs} {parent : Node} {name : CString} {type : FileType}

theorem self (h : Created s parent name type i s') :
    s'.data.dirents.get i = createDirent (s.data.dirents.get i) name type parent.inode := by
  rw [h.data, modifyDirent_self]

theorem other (h : Created s parent name type i s') {j : Fin 256} (hj : j ≠ i) :
    s'.data.dirents.get j = s.data.dirents.get j := by
  rw [h.data, modifyDirent_of_ne _ _ hj]

theorem fat (h : Created s parent name type i s') : s'.data.fat = s.data.fat := by rw [h.data, modifyDirent_fat]

theorem sb (h : Created s parent name type i s') : s'.data.sb = s.data.sb := by rw [h.data, modifyDirent_sb]

/-- Only the directory is written back. -/
theorem onDisk {d : TinyfsData} (h : Created s parent name type i s') (ho : OnDisk d s.disk) :
    OnDisk { d with dirents := s'.data.dirents } s'.disk :=
  ⟨by rw [h.outside 0 (by omega)]; exact ho.sb, fun k hk => by rw [h.outside _ (by omega)]; exact ho.fat k hk, h.inside⟩

theorem used_iff (h : Created s parent name type i s') (j : Fin 256) :
    usedEntry s'.data j ↔ j = i ∨ usedEntry s.data j := by
  by_cases hj : j = i
  · subst hj
    simp [usedEntry, h.self, createDirent]
  · simp [usedEntry, h.other hj, hj]

theorem counted (h : Created s parent name type i s') (hc : Counted s.data) : Counted s'.data := by
  unfold Counted
  rw [h.fat, h.sb]
  exact hc

/-- The new entry has no blocks, the others keep theirs. -/
theorem inv {live' : Fin 256 → Prop} (h : Created s parent name type i s') (hinv : Inv s.data live ch)
    (hl : ∀ j, j ≠ i → live' j → live j) : Inv s'.data live' (Function.update ch i []) :=
  hinv.emptied hl h.sb h.fat (by rw [h.self]; exact ⟨rfl, rfl⟩) fun _ hj => h.other hj

end Created

/-! ## Removing -/

/-- What a successful unlink has done. -/
structure Removed (s : Tinyfs) (live : Fin 256 → Prop) (ch : Fin 256 → List Nat) (i : Fin 256) (s' : Tinyfs) :
    Prop where
  freed : Freed s.data ch i s'.data
  inv : Inv s'.data live (Function.update ch i [])
  flushed : Flushed s'.data s.disk s'.disk

/-- **Removing**: refused, or the first entry with the name goes. -/
theorem tinyfsUnlink_spec (h : Inv s.data live ch) (hr : s.disk.Reliable) (parent : Node) (name : CString)
    (hlive : ∀ i, isNamed s.data name i = true → live i) :
    ((parent.type ≠ .directory ∨ firstFin 0 (isNamed s.data name) = none) ∧
        tinyfsUnlink s parent name = .ok (-1, s)) ∨
      (parent.type = .directory ∧ ∃ i s', firstFin 0 (isNamed s.data name) = some i ∧
        tinyfsUnlink s parent name = .ok (0, s') ∧ Removed s live ch i s') := by
  by_cases hd : parent.type = .directory
  · cases hf : firstFin 0 (isNamed s.data name) with
    | none => exact .inl ⟨.inr rfl, by simp [tinyfsUnlink, hd, hf]⟩
    | some i =>
      obtain ⟨d₁, h1, hfreed, hinv⟩ := free_spec h (hlive i (firstFin_eq_some.mp hf).2.1)
      have hfl := flush_unlink hinv.layout.toPlaced hr
      have he := tinyfsUnlink_eq hd hf h1
      generalize (writeSuperblock (d₁.modifyDirent i clearDirent) (writeDirectory (d₁.modifyDirent i clearDirent)
        (writeFat (d₁.modifyDirent i clearDirent) s.disk).2).2).2 = disk' at he hfl
      exact .inr ⟨hd, i, _, rfl, he, hfreed, hinv, hfl⟩
  · exact .inl ⟨.inl hd, by simp [tinyfsUnlink, hd]⟩

theorem cname_length_le (e : Dirent) : e.cname.length ≤ 32 := by
  have h := CString.length_ofBytes_le e.name.toList
  simpa [Dirent.cname] using h

theorem isNamed_iff {d : TinyfsData} {name : CString} :
    isNamed d name i = true ↔ usedEntry d i ∧ (d.dirents.get i).cname = name := by
  simp [isNamed, usedEntry, CString.strcmp_eq_zero]

theorem isEntry_iff {d : TinyfsData} {inode : UInt32} {name : CString} :
    isEntry d inode name i = true ↔ usedEntry d i ∧ (d.dirents.get i).parentInode = inode ∧
      (d.dirents.get i).cname = name := by
  simp [isEntry, usedEntry, CString.strcmp_eq_zero, and_assoc]

namespace Removed

variable {s' : Tinyfs}

theorem used_iff (h : Removed s live ch i s') (j : Fin 256) :
    usedEntry s'.data j ↔ j ≠ i ∧ usedEntry s.data j := by
  by_cases hj : j = i
  · subst hj
    simp [usedEntry, h.freed.self, clearDirent]
  · simp [usedEntry, h.freed.other j hj, hj]

end Removed

end Ops

end AmqOs.Vfs
