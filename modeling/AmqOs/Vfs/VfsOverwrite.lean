import AmqOs.Vfs.VfsChunks

/-!
# Writing a file from its start

`Overwritten v … B new v'` says what writes of the bytes `B`, piece by piece from the start of a file on, have done: the file
begins with `B` and goes on as before, and it has the blocks `new` in addition. Every write keeps it, also an empty one and
one for which the disk is too small (`Overwritten.write`). `ReadsBack` is what a reader finds who opens the file again
(`readsBack_iff`).
-/

set_option autoImplicit false

namespace AmqOs.Vfs

open AmqOs.Lib

/-- What writes of `B` from the start of entry `i` through descriptor `j` have done. -/
structure Overwritten (v : VfsState) (live : Fin 256 → Prop) (ch : Fin 256 → List Nat) (j i : Fin 256) (B : List UInt8)
    (new : List Nat) (v' : VfsState) : Prop where
  inv : Inv v'.fs.data live (Function.update ch i (ch i ++ new))
  fresh : ∀ b ∈ new, b ∈ freeSet v.fs.data.fat
  free : freeSet v'.fs.data.fat = freeSet v.fs.data.fat \ new.toFinset
  reliable : v'.fs.disk.Reliable
  opened : OpenOn v' j i
  position : (v'.fdTable.get j).position.toNat = B.length
  self : ∃ fb n, v'.fs.data.dirents.get i = { v.fs.data.dirents.get i with firstBlock := fb, size := n } ∧
    n.toNat = max (v.fs.data.dirents.get i).size.toNat B.length
  other : ∀ k, k ≠ i → v'.fs.data.dirents.get k = v.fs.data.dirents.get k
  readable : ∀ k, k ≠ i → live k → contents v'.fs k = contents v.fs k
  fds : ∀ k, k ≠ j → v'.fdTable.get k = v.fdTable.get k
  root : v'.rootNode = v.rootNode
  bytes : ∀ p < B.length, byteAt v'.fs.disk (ch i ++ new) p = B.getD p 0
  rest : ∀ p, B.length ≤ p → p < (v.fs.data.dirents.get i).size.toNat →
    byteAt v'.fs.disk (ch i ++ new) p = byteAt v.fs.disk (ch i) p

/-- What opening the path and reading one byte more than `bytes` returns. -/
def ReadsBack (v : VfsState) (path : CString) (bytes : List UInt8) : Prop :=
  ∃ fd v₁ v₂, vfsOpen (fun _ => true) v path = .ok (fd, v₁) ∧
    vfsRead v₁ fd (UInt32.ofNat (bytes.length + 1)) = .ok (((bytes.length : Int), bytes), v₂)

section Overwrite

variable {v v₁ : VfsState} {live : Fin 256 → Prop} {ch : Fin 256 → List Nat} {j i : Fin 256} {B : List UInt8}
  {new : List Nat}

theorem Overwritten.start (h : Inv v.fs.data live ch) (hr : v.fs.disk.Reliable) (ho : OpenOn v j i)
    (hpos : (v.fdTable.get j).position = 0) : Overwritten v live ch j i [] [] v where
  inv := by rwa [List.append_nil, Function.update_eq_self]
  fresh := fun b hb => absurd hb List.not_mem_nil
  free := by simp
  reliable := hr
  opened := ho
  position := by rw [hpos]; rfl
  self := ⟨(v.fs.data.dirents.get i).firstBlock, (v.fs.data.dirents.get i).size, rfl, by
    rw [List.length_nil, Nat.max_zero]⟩
  other := fun _ _ => rfl
  readable := fun _ _ _ => rfl
  fds := fun _ _ => rfl
  root := rfl
  bytes := fun p hp => absurd hp (Nat.not_lt_zero p)
  rest := fun p _ _ => by rw [List.append_nil]

theorem Overwritten.size (h : Overwritten v live ch j i B new v₁) :
    (v₁.fs.data.dirents.get i).size.toNat = max (v.fs.data.dirents.get i).size.toNat B.length := by
  obtain ⟨fb, n, he, hn⟩ := h.self
  rw [he]
  exact hn

/-- What is written and what was there before lies in the blocks of the file. -/
theorem Overwritten.fits (h : Overwritten v live ch j i B new v₁) (hi : live i) :
    max (v.fs.data.dirents.get i).size.toNat B.length ≤ 512 * (ch i ++ new).length := by
  have hsize := (h.inv.chains.entry i hi).size
  rwa [Function.update_self, h.size] at hsize

theorem Overwritten.card (h : Overwritten v live ch j i B new v₁) (hi : live i) :
    (freeSet v₁.fs.data.fat).card + new.length = (freeSet v.fs.data.fat).card :=
  card_freeSet_taken (by simpa using h.inv.nodup hi) h.fresh h.free

/-- The bytes `P` have been stored after `B`, in the blocks `new'` in addition. -/
theorem Overwritten.step (h : Overwritten v live ch j i B new v₁) (hi : live i) {P : List UInt8} {new' : List Nat}
    {fs : Tinyfs} {f : FileDescriptor} (hinv : Inv fs.data live (Function.update ch i (ch i ++ (new ++ new'))))
    (hfresh : ∀ b ∈ new', b ∈ freeSet v₁.fs.data.fat)
    (hfree : freeSet fs.data.fat = freeSet v₁.fs.data.fat \ new'.toFinset) (hrel : fs.disk.Reliable)
    (hself : ∃ fb n, fs.data.dirents.get i = { v₁.fs.data.dirents.get i with firstBlock := fb, size := n } ∧
      n.toNat = max (v₁.fs.data.dirents.get i).size.toNat (B.length + P.length))
    (hother : ∀ k, k ≠ i → fs.data.dirents.get k = v₁.fs.data.dirents.get k)
    (hcont : ∀ k, k ≠ i → live k → contents fs k = contents v₁.fs k)
    (hbytes : ∀ p, byteAt fs.disk (ch i ++ new ++ new') p =
      if B.length ≤ p ∧ p < B.length + P.length then P.getD (p - B.length) 0
      else byteAt v₁.fs.disk (ch i ++ new ++ new') p)
    (hused : f.used = true) (hnode : ∃ node, f.node = some node ∧ node.dirent = some i)
    (hpos : f.position.toNat = B.length + P.length) :
    Overwritten v live ch j i (B ++ P) (new ++ new') ({ v₁ with fs }.setFd j f) := by
  have hfits := h.fits hi
  have hold : ∀ p < max (v.fs.data.dirents.get i).size.toNat B.length, byteAt v₁.fs.disk (ch i ++ new ++ new') p =
      byteAt v₁.fs.disk (ch i ++ new) p := fun p hp => byteAt_append (lt_of_lt_of_le hp hfits)
  refine ⟨hinv, fun b hb => ?fresh, ?free, hrel, ?opened, ?position, ?self, fun k hk => ?other, fun k hk hl => ?readable,
    fun k hk => ?fds, h.root, fun p hp => ?bytes, fun p hp hsize => ?rest⟩
  case fresh =>
    rcases List.mem_append.mp hb with hb | hb
    · exact h.fresh b hb
    · have hb' := hfresh b hb
      rw [h.free] at hb'
      exact (Finset.mem_sdiff.mp hb').1
  case free =>
    show freeSet fs.data.fat = _
    rw [hfree, h.free, List.toFinset_append, sdiff_sdiff_left]
    rfl
  case opened =>
    refine ⟨?_, ?_⟩
    · rw [setFd_get, if_pos rfl, hused]
    · rw [setFd_get, if_pos rfl]
      exact hnode
  case position => rw [setFd_get, if_pos rfl, hpos, List.length_append]
  case self =>
    obtain ⟨fb, n, he, hn⟩ := hself
    obtain ⟨fb₁, n₁, he₁, hn₁⟩ := h.self
    refine ⟨fb, n, ?_, ?_⟩
    · show fs.data.dirents.get i = _
      rw [he, he₁]
    · rw [hn, h.size, List.length_append]
      omega
  case other => exact (hother k hk).trans (h.other k hk)
  case readable => exact (hcont k hk hl).trans (h.readable k hk hl)
  case fds =>
    rw [setFd_get, if_neg (Ne.symm hk)]
    exact h.fds k hk
  case bytes =>
    rw [List.length_append] at hp
    show byteAt fs.disk _ p = _
    rw [← List.append_assoc, hbytes]
    split
    · rw [List.getD_append_right _ _ _ _ (by omega)]
    · rw [hold p (by omega), h.bytes p (by omega), List.getD_append _ _ _ _ (by omega)]
  case rest =>
    rw [List.length_append] at hp
    show byteAt fs.disk _ p = _
    rw [← List.append_assoc, hbytes, if_neg (by omega), hold p (by omega), h.rest p (by omega) hsize]

/-- **A write**: it stores the beginning of the piece, and all of it if there are enough blocks. -/
theorem Overwritten.write (h : Overwritten v live ch j i B new v₁) (hi : live i) {piece : List UInt8}
    (hlen : piece.length < 2 ^ 31) :
    ∃ r w new' v₂, vfsWrite v₁ j.val piece = .ok (r, v₂) ∧
      Overwritten v live ch j i (B ++ piece.take w) (new ++ new') v₂ ∧ w ≤ piece.length ∧ (r = w ∨ r = -1 ∧ w = 0) ∧
      (B.length + piece.length ≤ 512 * ((ch i).length + (freeSet v.fs.data.fat).card) → w = piece.length) := by
  obtain ⟨hused, node, hnode, hd⟩ := h.opened
  have hpos := h.position
  have hfits := h.fits hi
  have hcard := h.card hi
  have hblocks : (ch i ++ new).length = (ch i).length + new.length := List.length_append
  have hchain : Function.update ch i (ch i ++ new) i = ch i ++ new := Function.update_self ..
  have hupdate : ∀ new' : List Nat, Function.update (Function.update ch i (ch i ++ new)) i (ch i ++ new ++ new') =
      Function.update ch i (ch i ++ (new ++ new')) := fun new' => by rw [Function.update_idem, List.append_assoc]
  have hpiece : (UInt32.ofNat piece.length).toNat = piece.length := by rw [UInt32.toNat_ofNat']; omega
  rcases tinyfsWrite_spec h.inv hi h.reliable hd piece (v₁.fdTable.get j).position with
    ⟨hnil, hf, he⟩ | ⟨new', d', hg, hf, -, hlast, he⟩ | ⟨new', w, s', he, hst⟩
  · -- Refused: the file has no blocks and there are none.
    rw [hchain] at hnil
    rw [hf, Finset.card_empty] at hcard
    have hsame : v₁.setFd j ({ v₁.fdTable.get j with node := some node }.advance (-1)) = v₁ := by
      rw [FileDescriptor.advance, if_neg (by decide), ← hnode]
      exact setFd_self v₁ j
    refine ⟨-1, 0, [], v₁, ?_, by simpa using h, Nat.zero_le _, .inr ⟨rfl, rfl⟩, fun hroom => ?_⟩
    · simp only [vfsWrite, usedFd_of_used hused, hnode, he, ok_bind]
      exact congrArg (fun v => Except.ok ((-1 : Int), v)) hsame
    · rw [hnil, List.length_nil] at hblocks
      omega
  · -- The blocks run out before the position is reached.
    have hlast' := hlast
    rw [hchain] at hlast'
    have hfull := hg.length_full hi hf
    rw [hchain] at hfull
    have hsame : { v₁.fdTable.get j with node := some node }.advance 0 = v₁.fdTable.get j := by
      rw [FileDescriptor.advance, if_neg (by decide), ← hnode]
    have hginv := hg.inv
    rw [hchain, hupdate] at hginv
    refine ⟨0, 0, new', { v₁ with fs := { v₁.fs with data := d' } }.setFd j (v₁.fdTable.get j), ?_, ?_, Nat.zero_le _,
      .inl rfl, fun hroom => by omega⟩
    · simp only [vfsWrite, usedFd_of_used hused, hnode, he, ok_bind, hsame]
    · refine h.step hi hginv hg.fresh hg.free h.reliable ?_ hg.other
        (fun k hk hl => hg.contents_other h.inv h.reliable hl hk) (fun p => ?_) hused ⟨node, hnode, hd⟩ ?_
      · obtain ⟨fb, hfb⟩ := hg.self
        refine ⟨fb, (v₁.fs.data.dirents.get i).size, hfb, ?_⟩
        rw [h.size, List.take_zero, List.length_nil]
        omega
      · rw [if_neg (by rw [List.take_zero, List.length_nil]; omega)]
      · rw [hpos, List.take_zero, List.length_nil, Nat.add_zero]
  · have hw : w ≤ piece.length := by
      have hcount := hst.count
      omega
    have htake : (piece.take w).length = w := List.length_take_of_le hw
    have hstinv := hst.inv
    have hstfits := hst.fits
    have hbytes := hst.bytes
    have hblocks' := hstinv.length_le hi
    rw [hchain, hupdate] at hstinv
    rw [Function.update_self] at hblocks'
    rw [hchain] at hstfits hbytes hblocks'
    have hcast : cInt (UInt32.ofNat w) = w := cInt_ofNat (by omega)
    refine ⟨w, w, new', { v₁ with fs := s' }.setFd j ({ v₁.fdTable.get j with
      node := some (nodeAfter v₁.fs i node (v₁.fdTable.get j).position w) }.advance w), ?_, ?_, hw, .inl rfl, fun hroom => ?_⟩
    · simp only [vfsWrite, usedFd_of_used hused, hnode, he, ok_bind, hcast]
    · refine h.step hi hstinv hst.fresh hst.free hst.reliable ?_ hst.other
        (fun k hk hl => hst.contents_other h.inv hi h.reliable hl hk) (fun p => ?_) ?_ ?_ ?_
      · rw [htake, ← hpos]
        exact hst.self
      · rw [hbytes, hpos, htake]
        split
        · rename_i hp
          rw [List.getD_eq_getElem?_getD, List.getD_eq_getElem?_getD, List.getElem?_take_of_lt (by omega)]
        · rfl
      · rw [advance_used]
        exact hused
      · rw [advance_node]
        refine ⟨_, rfl, ?_⟩
        unfold nodeAfter
        split <;> exact hd
      · rw [htake, ← hpos]
        exact advance_position _ (by show (v₁.fdTable.get j).position.toNat + w < _; omega)
    · rcases hst.count with hc | ⟨hc, hf, hend⟩
      · omega
      · have hcard' := hst.card hi
        rw [hf, Finset.card_empty] at hcard'
        rw [hchain, List.length_append] at hend
        omega

/-- A write for which there are enough blocks. -/
theorem Overwritten.writeAll (h : Overwritten v live ch j i B new v₁) (hi : live i) (piece : List UInt8)
    (hroom : B.length + piece.length ≤ 512 * ((ch i).length + (freeSet v.fs.data.fat).card)) :
    ∃ r new' v₂, vfsWrite v₁ j.val piece = .ok (r, v₂) ∧ Overwritten v live ch j i (B ++ piece) (new ++ new') v₂ := by
  have hchain := h.inv.length_le hi
  rw [Function.update_self, List.length_append] at hchain
  have hfree : (freeSet v.fs.data.fat).card ≤ 923 := card_freeSet_le
  obtain ⟨r, w, new', v₂, he, h₂, -, -, hall⟩ := h.write hi (show piece.length < 2 ^ 31 by omega)
  obtain rfl := hall hroom
  rw [List.take_length] at h₂
  exact ⟨r, new', v₂, he, h₂⟩

end Overwrite

/-! ## Opening the file again -/

/-- The entries agree up to their blocks and sizes. -/
def SameNames (d d' : TinyfsData) : Prop :=
  ∀ k, ∃ fb n, d'.dirents.get k = { d.dirents.get k with firstBlock := fb, size := n }

section Again

variable {d d' : TinyfsData}

theorem SameNames.isEntry_eq (h : SameNames d d') (inode : UInt32) (name : CString) :
    isEntry d' inode name = isEntry d inode name := by
  funext k
  obtain ⟨fb, n, hk⟩ := h k
  simp only [isEntry, hk]
  rfl

theorem SameNames.type_eq (h : SameNames d d') (k : Fin 256) : (nodeOf d' k).type = (nodeOf d k).type := by
  obtain ⟨fb, n, hk⟩ := h k
  simp only [nodeOf, hk]

/-- Resolving does not depend on blocks and sizes. -/
theorem SameNames.resolveLoop (h : SameNames d d') {mem : Nat → Bool} {n : Nat} {ts : List CString} {m : Node}
    (hm : resolveLoop mem d n ts rootNode = some m) :
    ∃ m', Vfs.resolveLoop mem d' n ts rootNode = some m' ∧ m'.type = m.type ∧ m'.inode = m.inode ∧ m'.dirent = m.dirent := by
  induction ts using List.reverseRecOn generalizing m with
  | nil =>
    obtain rfl := Option.some.inj hm
    exact ⟨rootNode, rfl, rfl, rfl, rfl⟩
  | append_singleton ts t ih =>
    obtain ⟨parent, hparent, hfind⟩ := resolveLoop_snoc.mp hm
    obtain ⟨hmem, hdir, k, hk, rfl⟩ := vfsFinddir_eq_some.mp hfind
    obtain ⟨parent', hparent', htype, hinode, -⟩ := ih hparent
    refine ⟨nodeOf d' k, resolveLoop_snoc.mpr ⟨parent', hparent', vfsFinddir_eq_some.mpr ⟨hmem, htype.trans hdir, k, ?_, rfl⟩⟩,
      h.type_eq k, rfl, rfl⟩
    rw [hinode, h.isEntry_eq]
    exact hk

theorem resolve_sameNames {v w : VfsState} (hv : v.rootNode = some rootNode) (hw : w.rootNode = v.rootNode)
    (h : SameNames v.fs.data w.fs.data) {mem : Nat → Bool} {path : CString} {node : Node}
    (hres : vfsResolvePath mem v path = .ok (some node)) :
    ∃ node', vfsResolvePath (fun _ => true) w path = .ok (some node') ∧ node'.type = node.type ∧
      node'.dirent = node.dirent := by
  have hw : w.rootNode = some rootNode := hw.trans hv
  by_cases hp : path.head? = some slash
  · by_cases hc : (components path).length ≤ 32
    · rw [vfsResolvePath_eq hv mem hp hc] at hres
      obtain ⟨m', hm', htype, -, hdirent⟩ := h.resolveLoop (resolveLoop_mem (Except.ok.inj hres))
      exact ⟨m', by rw [vfsResolvePath_eq hw _ hp hc, hm'], htype, hdirent⟩
    · rw [vfsResolvePath_fault hv mem hp hc] at hres
      cases hres
  · have h1 : path ≠ [slash] := by
      rintro rfl
      exact hp rfl
    simp [vfsResolvePath, hv, h1, hp] at hres

/-- A read from the start of a file. -/
theorem readLength_zero {fsize size : UInt32} {blocks : Nat} (hf : fsize.toNat ≤ 512 * blocks) (hb : blocks ≤ 923) :
    readLength fsize blocks 0 size = min size.toNat fsize.toNat := by
  unfold readLength
  split
  · rename_i hlt
    have hs := size.toNat_lt
    rw [(readCount_eq_iff hlt hf hb).mpr (.inl (by rw [UInt32.toNat_zero]; omega)), UInt32.toNat_zero, Nat.sub_zero]
  · rename_i hlt
    rw [UInt32.lt_iff_toNat_lt, UInt32.toNat_zero] at hlt
    omega

section Opened

variable {v : VfsState} {live : Fin 256 → Prop} {ch : Fin 256 → List Nat} {i fd : Fin 256} {path : CString} {node : Node}

theorem vfsOpen_ok {mem : Nat → Bool} (hres : vfsResolvePath mem v path = .ok (some node)) (hfd : allocateFd v = some fd) :
    vfsOpen mem v path = .ok ((fd.val : Int), v.setFd fd ⟨true, some node, 0⟩) := by
  simp only [vfsOpen, hres, ok_bind, hfd]

theorem opened_get (v : VfsState) (fd : Fin 256) (node : Node) :
    (v.setFd fd ⟨true, some node, 0⟩).fdTable.get fd = ⟨true, some node, 0⟩ := by rw [setFd_get, if_pos rfl]

theorem opened_openOn (v : VfsState) (fd : Fin 256) (hn : node.dirent = some i) :
    OpenOn (v.setFd fd ⟨true, some node, 0⟩) fd i := ⟨by rw [opened_get], node, by rw [opened_get], hn⟩

/-- The first read through a new descriptor. -/
theorem vfsRead_opened (h : Inv v.fs.data live ch) (hi : live i) (hr : v.fs.disk.Reliable) (hn : node.dirent = some i)
    (fd : Fin 256) (size : UInt32) {k : Nat} (hk : min size.toNat (v.fs.data.dirents.get i).size.toNat = k) :
    vfsRead (v.setFd fd ⟨true, some node, 0⟩) fd.val size = .ok (((k : Int), (List.range k).map (byteAt v.fs.disk (ch i))),
      (v.setFd fd ⟨true, some node, 0⟩).setFd fd (FileDescriptor.advance ⟨true, some node, 0⟩ k)) := by
  have hread := vfsRead_ok (v := v.setFd fd ⟨true, some node, 0⟩) h hi hr (opened_openOn v fd hn) size
  rw [opened_get] at hread
  have hlen : readLength ((v.setFd fd ⟨true, some node, 0⟩).fs.data.dirents.get i).size (ch i).length 0 size = k :=
    (readLength_zero (h.chains.entry i hi).size (h.length_le hi)).trans hk
  simp only [hlen, UInt32.toNat_zero, Nat.zero_add] at hread
  exact hread

/-- The first write through a new descriptor, when there are enough blocks. -/
theorem vfsWrite_opened (h : Inv v.fs.data live ch) (hi : live i) (hr : v.fs.disk.Reliable) (hn : node.dirent = some i)
    (fd : Fin 256) (bytes : List UInt8)
    (hroom : bytes.length ≤ 512 * ((ch i).length + (freeSet v.fs.data.fat).card)) :
    ∃ r new v₂, vfsWrite (v.setFd fd ⟨true, some node, 0⟩) fd.val bytes = .ok (r, v₂) ∧
      Overwritten (v.setFd fd ⟨true, some node, 0⟩) live ch fd i bytes new v₂ := by
  have hstart := Overwritten.start (v := v.setFd fd ⟨true, some node, 0⟩) h hr (opened_openOn v fd hn)
    (by rw [opened_get])
  obtain ⟨r, new, v₂, he, hw⟩ := hstart.writeAll hi bytes (by rw [List.length_nil, Nat.zero_add]; exact hroom)
  exact ⟨r, new, v₂, he, hw⟩

/-- A descriptor that is closed can be given out again. -/
theorem allocateFd_setFd (v : VfsState) {j : Fin 256} (hj : 3 ≤ j.val) : ∃ fd, allocateFd (v.setFd j ⟨false, none, 0⟩) = some fd := by
  rw [← Option.ne_none_iff_exists']
  intro hnone
  have hused := firstFin_eq_none.mp hnone j hj
  rw [setFd_get, if_pos rfl] at hused
  cases hused

/-- What a reader finds: the size of the file and its bytes. -/
theorem readsBack_iff {bytes : List UInt8} (h : Inv v.fs.data live ch) (hi : live i) (hr : v.fs.disk.Reliable)
    (hres : vfsResolvePath (fun _ => true) v path = .ok (some node)) (hn : node.dirent = some i)
    (hfd : allocateFd v = some fd) (hlen : bytes.length < 2 ^ 31) :
    ReadsBack v path bytes ↔ (v.fs.data.dirents.get i).size.toNat = bytes.length ∧
      ∀ p < bytes.length, byteAt v.fs.disk (ch i) p = bytes.getD p 0 := by
  have hopen := vfsOpen_ok hres hfd
  have hsz : (UInt32.ofNat (bytes.length + 1)).toNat = bytes.length + 1 := by rw [UInt32.toNat_ofNat']; omega
  obtain ⟨k, hk⟩ : ∃ k, min (bytes.length + 1) (v.fs.data.dirents.get i).size.toNat = k := ⟨_, rfl⟩
  have hread := vfsRead_opened (k := k) h hi hr hn fd (UInt32.ofNat (bytes.length + 1)) (by rw [hsz]; exact hk)
  constructor
  · rintro ⟨fd', v₁', v₂', hopen', hread'⟩
    rw [hopen] at hopen'
    obtain ⟨rfl, rfl⟩ := Prod.mk.inj (Except.ok.inj hopen')
    rw [hread] at hread'
    obtain ⟨hcount, hbytes⟩ := Prod.mk.inj (Prod.mk.inj (Except.ok.inj hread')).1
    have hcount : k = bytes.length := by exact_mod_cast hcount
    refine ⟨by omega, fun p hp => ?_⟩
    have hp' := congrArg (fun l => l.getD p 0) hbytes
    simpa [hcount, hp] using hp'
  · rintro ⟨hsize', hbytes⟩
    obtain rfl : k = bytes.length := by omega
    have hall : (List.range bytes.length).map (byteAt v.fs.disk (ch i)) = bytes := by
      refine List.ext_getElem (by rw [List.length_map, List.length_range]) fun p h1 h2 => ?_
      rw [List.getElem_map, List.getElem_range, hbytes p h2, List.getD_eq_getElem _ _ h2]
    rw [hall] at hread
    exact ⟨_, _, _, hopen, hread⟩

end Opened

theorem Overwritten.sameNames {v v' : VfsState} {live : Fin 256 → Prop} {ch : Fin 256 → List Nat} {j i : Fin 256}
    {B : List UInt8} {new : List Nat} (h : Overwritten v live ch j i B new v') : SameNames v.fs.data v'.fs.data := by
  intro k
  by_cases hk : k = i
  · subst hk
    obtain ⟨fb, n, he, -⟩ := h.self
    exact ⟨fb, n, he⟩
  · exact ⟨_, _, h.other k hk⟩

/-- What a reader finds who opens the file when the descriptor is closed. -/
theorem Overwritten.readsBack_iff {v v' : VfsState} {live : Fin 256 → Prop} {ch : Fin 256 → List Nat} {j i : Fin 256}
    {B : List UInt8} {new : List Nat} (h : Overwritten v live ch j i B new v') (hi : live i) (hv : v.rootNode = some rootNode)
    {mem : Nat → Bool} {path : CString} {node : Node} (hres : vfsResolvePath mem v path = .ok (some node))
    (hn : node.dirent = some i) (hj : 3 ≤ j.val) {bytes : List UInt8} (hlen : bytes.length < 2 ^ 31) :
    ReadsBack (vfsClose v' j.val).2 path bytes ↔
      max (v.fs.data.dirents.get i).size.toNat B.length = bytes.length ∧
        ∀ p < bytes.length, byteAt v'.fs.disk (ch i ++ new) p = bytes.getD p 0 := by
  have hclose : (vfsClose v' j.val).2 = v'.setFd j ⟨false, none, 0⟩ := by
    simp only [vfsClose, usedFd_of_used h.opened.1]
  obtain ⟨node', hres', -, hn'⟩ := resolve_sameNames (w := v'.setFd j ⟨false, none, 0⟩) hv h.root h.sameNames hres
  obtain ⟨fd, hfd⟩ := allocateFd_setFd v' hj
  rw [hclose, Vfs.readsBack_iff (v := v'.setFd j ⟨false, none, 0⟩) h.inv hi h.reliable hres' (hn'.trans hn) hfd hlen,
    ← h.size, Function.update_self]
  rfl

end Again

/-! ## A file with some bytes -/

def entryA (size : Nat) : Dirent :=
  { createDirent emptyDirent nameA .regular 0 with firstBlock := 101, size := UInt32.ofNat size }

/-- The file `/a` at entry 1, with its bytes in block 101. -/
def fileA (bytes : List UInt8) : Tinyfs where
  data :=
    { sb := { formatSuperblock with freeBlocks := 922 }
      fat := fatPut freshFat 101 eof
      dirents := Vector.ofFn fun i => if 1 = i.val then entryA bytes.length else emptyDirent
      device := Vector.replicate 32 0 }
  disk := blankDisk.put 101 (Vector.ofFn fun p => bytes.getD p 0)

section FileA

variable (bytes : List UInt8)

theorem fileA_get (i : Fin 256) :
    (fileA bytes).data.dirents.get i = if 1 = i.val then entryA bytes.length else emptyDirent := by
  simp only [fileA, get_eq, Vector.getElem_ofFn]

theorem fileA_entry : (fileA bytes).data.dirents.get 1 = entryA bytes.length := by
  rw [fileA_get]
  rfl

theorem fileA_used (i : Fin 256) : usedEntry (fileA bytes).data i ↔ i = 1 := by
  rw [usedEntry, fileA_get]
  by_cases hi : 1 = i.val
  · rw [if_pos hi]
    exact iff_of_true (show (1 : UInt8) ≠ 0 by decide) (Fin.ext hi.symm)
  · rw [if_neg hi]
    exact iff_of_false (fun h => h rfl) fun h => hi (by rw [h]; rfl)

theorem fileA_cname : ((fileA bytes).data.dirents.get 1).cname = nameA := by
  rw [fileA_entry]
  exact cname_createDirent emptyDirent nameA .regular 0

variable {bytes}

theorem fileA_size (h : bytes.length ≤ 512) : ((fileA bytes).data.dirents.get 1).size.toNat = bytes.length := by
  rw [fileA_entry, entryA, UInt32.toNat_ofNat']
  omega

theorem fileA_inv (h : bytes.length ≤ 512) :
    Inv (fileA bytes).data (fun _ => True) fun i => if 1 = i.val then [101] else [] := by
  refine inv_of_oneBlock ⟨⟨rfl, rfl, rfl⟩, rfl, rfl⟩ rfl ⟨?_, ?_⟩ fun i hi => ?_
  · rw [fileA_entry]
    rfl
  · rw [fileA_size h]
    exact h
  · rw [fileA_get, if_neg hi]
    exact ⟨rfl, rfl⟩

theorem fileA_mountInv (h : bytes.length ≤ 512) : MountInv (vfsMounted (fileA bytes)) :=
  ⟨rfl, ⟨_, (fileA_inv h).mono fun _ _ => trivial⟩, blankDisk_reliable⟩

theorem fileA_chain (h : bytes.length ≤ 512) : entryChain (fileA bytes).data 1 = [101] :=
  (fileA_inv h).entryChain_eq (i := 1) trivial

theorem fileA_byteAt {p : Nat} (hp : p < 512) : byteAt (fileA bytes).disk [101] p = bytes.getD p 0 := by
  rw [byteAt_eq (b := 101) (by rw [Nat.div_eq_of_lt hp]; rfl), fileA, Disk.put_sectors_self, Nat.mod_eq_of_lt hp,
    ofSector_apply hp, get_eq, Vector.getElem_ofFn]

/-- The path `/a` leads to the file. -/
theorem fileA_resolves (bytes : List UInt8) : vfsResolvePath (fun _ => true) (vfsMounted (fileA bytes)) pathA.val =
    .ok (some (nodeOf (fileA bytes).data 1)) := by
  have hfind : vfsFinddir true (fileA bytes).data rootNode nameA = some (nodeOf (fileA bytes).data 1) := by
    refine vfsFinddir_eq_some.mpr ⟨rfl, rfl, 1, firstFin_of_unique (Nat.zero_le _) (isEntry_iff.mpr
      ⟨(fileA_used bytes 1).mpr rfl, ?_, fileA_cname bytes⟩) fun k hk => (fileA_used bytes k).mp (isEntry_iff.mp hk).1, rfl⟩
    rw [fileA_entry]
    rfl
  rw [pathA.resolve rfl (fun _ => true) (show pathA.val = [] ++ slash :: nameA from rfl) (by decide) (fun h => absurd rfl h)
    (by decide)]
  exact congrArg Except.ok (resolveLoop_snoc.mpr ⟨rootNode, rfl, hfind⟩)

theorem fileA_readsBack (h : bytes.length ≤ 512) : ReadsBack (vfsMounted (fileA bytes)) pathA.val bytes := by
  refine (readsBack_iff (v := vfsMounted (fileA bytes)) (fileA_inv h) trivial blankDisk_reliable (fileA_resolves bytes) rfl
    (allocateFd_closed rfl) (by omega)).mpr ⟨fileA_size h, fun p hp => ?_⟩
  exact fileA_byteAt (lt_of_lt_of_le hp h)

end FileA

end AmqOs.Vfs
