import AmqOs.Editor.EditorResave
import AmqOs.Vfs.VfsKept

/-!
# A save that fails

`editor_save_file` removes the old file before it creates and writes the new one. When a later step fails, the old file is gone
already; `failedSave_keeps` says what is kept then, on any disk.
-/

set_option autoImplicit false

namespace AmqOs.Editor

open AmqOs.Lib AmqOs.Vfs

section Steps

variable {mem : SaveMemory} {cwd : CwdPath} {ed ed' : EditorState} {v v' : VfsState}

/-- Entry `j` is the one that `vfs_unlink` removes: the first one of the table with the name. -/
def Removes (mem : SaveMemory) (cwd : CwdPath) (ed : EditorState) (v : VfsState) (j : Fin 256) : Prop :=
  mem.buffer = true ∧ ∃ path parent name, editorPath cwd ed.filename = .ok path ∧
    parentLookup mem.unlink v path = .ok (some (parent, name)) ∧ firstFin 0 (isNamed v.fs.data name) = some j

/-- Entry `j` is the one that `vfs_open` opens for the text. -/
def Reopens (mem : SaveMemory) (cwd : CwdPath) (ed : EditorState) (v : VfsState) (j : Fin 256) : Prop :=
  mem.buffer = true ∧ ∃ path r₁ v₁ r₂ v₂ node fd, editorPath cwd ed.filename = .ok path ∧
    vfsUnlink mem.unlink v path = .ok (r₁, v₁) ∧ vfsCreate mem.create v₁ path = .ok (r₂, v₂) ∧
    vfsResolvePath mem.openFile v₂ path = .ok (some node) ∧ node.dirent = some j ∧ allocateFd v₂ = some fd

/-- File `j` begins with `bytes` and goes on as before. -/
structure BeginsWith (s s' : Tinyfs) (j : Fin 256) (bytes : List UInt8) : Prop where
  entry : ∃ fb n, s'.data.dirents.get j = { s.data.dirents.get j with firstBlock := fb, size := n } ∧
    n.toNat = max (s.data.dirents.get j).size.toNat bytes.length
  start : ∀ p < bytes.length, byteAt s'.disk (entryChain s'.data j) p = bytes.getD p 0
  rest : ∀ p, bytes.length ≤ p → p < (s.data.dirents.get j).size.toNat →
    byteAt s'.disk (entryChain s'.data j) p = byteAt s.disk (entryChain s.data j) p

theorem joinLoop_length {k i : Nat} {buffer bytes : List UInt8} (hlen : buffer.length ≤ maxLines * maxLineLength)
    (h : joinLoop ed i k buffer = some bytes) : bytes.length ≤ maxLines * maxLineLength := by
  have hpush : ∀ {buffer piece out : List UInt8}, pushBytes buffer piece = some out →
      out.length ≤ maxLines * maxLineLength := by
    intro buffer piece out hp
    unfold pushBytes at hp
    split at hp
    · exact Option.some.inj hp ▸ ‹_›
    · cases hp
  induction k generalizing i buffer with
  | zero => exact Option.some.inj h ▸ hlen
  | succ k ih =>
    obtain ⟨line, -, h⟩ := Option.bind_eq_some_iff.mp h
    obtain ⟨b₁, h₁, h⟩ := Option.bind_eq_some_iff.mp h
    split at h
    · obtain ⟨b₂, h₂, h⟩ := Option.bind_eq_some_iff.mp h
      exact ih (hpush h₂) h
    · exact ih (hpush h₁) h

/-- An entry that is gone after `vfs_unlink` is the one it removes. -/
theorem removes_of_unlink (hmem : mem.buffer = true) {path : CString} (hpath : editorPath cwd ed.filename = .ok path)
    {r : Int} (hu : vfsUnlink mem.unlink v path = .ok (r, v')) {j : Fin 256} (hj : usedEntry v.fs.data j)
    (hgone : ¬ usedEntry v'.fs.data j) : Removes mem cwd ed v j := by
  rw [vfsUnlink_eq_lookup] at hu
  obtain ⟨found, hl, hu⟩ := bind_eq_ok.mp hu
  cases found with
  | none =>
    obtain ⟨-, rfl⟩ := Prod.mk.inj (Except.ok.inj hu)
    exact absurd hj hgone
  | some found =>
    obtain ⟨⟨r', fs⟩, ht, hu⟩ := bind_eq_ok.mp hu
    obtain ⟨-, rfl⟩ := Prod.mk.inj (Except.ok.inj hu)
    rcases tinyfsUnlink_frame ht with rfl | ⟨k, hk, he⟩
    · exact absurd hj hgone
    · obtain rfl : j = k := by
        by_contra hjk
        exact hgone (by rwa [usedEntry, he.other j hjk])
      exact ⟨hmem, path, found.1, found.2, hpath, hl, hk⟩

/-- What a write has done to the file that was opened. -/
theorem BeginsWith.of_overwritten {live : Fin 256 → Prop} {ch : Fin 256 → List Nat} {fd j : Fin 256} {bytes : List UInt8}
    {new : List Nat} (h : Overwritten v live ch fd j bytes new v') (hinv : Inv v.fs.data live ch) (hj : live j) :
    BeginsWith v.fs v'.fs j bytes := by
  have hchain : entryChain v'.fs.data j = ch j ++ new := by rw [h.inv.entryChain_eq hj, Function.update_self]
  refine ⟨h.self, fun p hp => ?_, fun p hp hsize => ?_⟩
  · rw [hchain, h.bytes p hp]
  · rw [hchain, hinv.entryChain_eq hj, h.rest p hp hsize]

theorem BeginsWith.of_kept {s s₁ s' : Tinyfs} {j : Fin 256} {bytes : List UInt8} (hk : Kept s s₁ j)
    (h : BeginsWith s₁ s' j bytes) : BeginsWith s s' j bytes := by
  obtain ⟨hentry, hbytes, hrest⟩ := h
  rw [hk.entry] at hentry hrest
  refine ⟨hentry, hbytes, fun p hp hsize => ?_⟩
  rw [hrest p hp hsize, hk.chain, byteAt_congr hk.sectors]

theorem editorSaveFile_unopened {v₁ v₂ v₃ : VfsState} {path : CString} {bytes : List UInt8} {r₁ r₂ fd : Int}
    (hmem : mem.buffer = true) (hpath : editorPath cwd ed.filename = .ok path)
    (hjoin : joinLoop ed 0 ed.lineCount [] = some bytes) (hu : vfsUnlink mem.unlink v path = .ok (r₁, v₁))
    (hc : vfsCreate mem.create v₁ path = .ok (r₂, v₂)) (ho : vfsOpen mem.openFile v₂ path = .ok (fd, v₃)) (hneg : fd < 0) :
    editorSaveFile mem cwd ed v = .ok (-1, ed, v₃) := by
  have hno : ¬ ¬ mem.buffer = true := not_not.mpr hmem
  simp only [editorSaveFile, hpath, ok_bind, if_neg hno, checked, hjoin, hu, hc, ho, if_pos hneg]

/-- **A write that is cut short**: the file begins with what was written. -/
theorem beginsWith_of_write (hw : WellFormed v.fs.data) (hr : v.fs.disk.Reliable) {fd j : Fin 256} {node : Node}
    (hn : node.dirent = some j) (hj : usedEntry v.fs.data j) {bytes : List UInt8}
    (hlen : bytes.length ≤ maxLines * maxLineLength) {written : Int}
    (hwrite : vfsWrite (v.setFd fd ⟨true, some node, 0⟩) fd.val bytes = .ok (written, v'))
    (hshort : written ≠ bytes.length) :
    ∃ w, (w = 0 ∨ w < bytes.length) ∧ BeginsWith v.fs v'.fs j (bytes.take w) := by
  obtain ⟨ch, hinv⟩ := hw
  have hstart := Overwritten.start (v := v.setFd fd ⟨true, some node, 0⟩) hinv hr (opened_openOn v fd hn)
    (by rw [opened_get])
  obtain ⟨r, w, new, v'', he, how, hle, hres, -⟩ := hstart.write hj (show bytes.length < 2 ^ 31 from
    lt_of_le_of_lt hlen (by decide))
  rw [hwrite] at he
  obtain ⟨rfl, rfl⟩ := Prod.mk.inj (Except.ok.inj he)
  have hbegins := BeginsWith.of_overwritten how hinv hj
  refine ⟨w, ?_, hbegins⟩
  rcases hres with rfl | ⟨-, h0⟩
  · exact .inr (lt_of_le_of_ne hle fun h => hshort (by rw [h]))
  · exact .inl h0

/-- **A failed save**: the text stays in the editor. Without a buffer nothing changes; otherwise every file is kept but the one
that was removed and the one that was opened, and on a reliable disk the latter begins with a part of the text. -/
theorem failedSave_keeps (hv : v.rootNode = some rootNode) (hw : WellFormed v.fs.data)
    (hfail : editorSaveFile mem cwd ed v = .ok (-1, ed', v')) : ed' = ed ∧ (mem.buffer = false → v' = v) ∧
      ∀ j, usedEntry v.fs.data j → Kept v.fs v'.fs j ∨ Removes mem cwd ed v j ∨ Reopens mem cwd ed v j ∧
        (v.fs.disk.Reliable → ∃ bytes w, joinLoop ed 0 ed.lineCount [] = some bytes ∧ (w = 0 ∨ w < bytes.length) ∧
          BeginsWith v.fs v'.fs j (bytes.take w)) := by
  obtain ⟨path, hpath, h⟩ := bind_eq_ok.mp hfail
  by_cases hmem : mem.buffer = true
  · rw [if_neg (not_not.mpr hmem)] at h
    obtain ⟨bytes, hjoin, hunlink⟩ := bind_eq_ok.mp h
    obtain ⟨⟨r₁, v₁⟩, hu, hcreate⟩ := bind_eq_ok.mp hunlink
    obtain ⟨⟨r₂, v₂⟩, hc, hopen⟩ := bind_eq_ok.mp hcreate
    obtain ⟨⟨fd, v₃⟩, ho, hrest⟩ := bind_eq_ok.mp hopen
    clear h hunlink hcreate hopen
    have hbytes : joinLoop ed 0 ed.lineCount [] = some bytes := by
      unfold checked at hjoin
      split at hjoin
      · rename_i he
        rw [he, Except.ok.inj hjoin]
      · cases hjoin
    obtain ⟨hw₁, hroot₁, hr₁, hkept₁⟩ := vfsUnlink_kept hw hu
    obtain ⟨hw₂, hroot₂, hr₂, hkept₂⟩ := vfsCreate_kept hw₁ hc
    -- what is there after the unlink is there after the create
    have hkept : ∀ j, usedEntry v.fs.data j → Kept v.fs v₂.fs j ∨ Removes mem cwd ed v j := fun j hj => by
      by_cases hj₁ : usedEntry v₁.fs.data j
      · exact .inl ((hkept₁ j hj hj₁).trans (hkept₂ j hj₁))
      · exact .inr (removes_of_unlink hmem hpath hu hj hj₁)
    rcases vfsOpen_cases ho with ⟨hneg, rfl⟩ | ⟨f, node, hres, hfd, rfl, rfl⟩
    · simp only [if_pos hneg] at hrest
      obtain ⟨rfl, rfl⟩ : ed = ed' ∧ v₃ = v' := by simpa using hrest
      exact ⟨rfl, fun hno => absurd hmem (by rw [hno]; decide), fun j hj => (hkept j hj).imp_right .inl⟩
    · have hpos : ¬ (f.val : Int) < 0 := by omega
      simp only [if_neg hpos] at hrest
      obtain ⟨⟨written, v₄⟩, hwrite, hclose⟩ := bind_eq_ok.mp hrest
      by_cases hshort : written = bytes.length
      · simp [hshort] at hclose
      · simp only [if_pos hshort] at hclose
        obtain ⟨rfl, rfl⟩ : ed = ed' ∧ (vfsClose v₄ f.val).2 = v' := by simpa [hshort] using hclose
        rw [vfsClose_fs]
        refine ⟨rfl, fun hno => absurd hmem (by rw [hno]; decide), fun j hj => ?_⟩
        rcases hkept j hj with hk | hrem
        · by_cases hn : node.dirent = some j
          · refine .inr (.inr ⟨⟨hmem, path, r₁, v₁, r₂, v₂, node, f, hpath, hu, hc, hres, hn, hfd⟩, fun hr => ?_⟩)
            obtain ⟨w, hlt, hbegins⟩ := beginsWith_of_write hw₂ (hr₂ (hr₁ hr)) hn (hk.used.mpr hj)
              (joinLoop_length (Nat.zero_le _) hbytes) hwrite hshort
            exact ⟨bytes, w, hbytes, hlt, hbegins.of_kept hk⟩
          · refine .inl (hk.trans (vfsWrite_kept hw₂ bytes (fun i hi => ?_) hwrite j (hk.used.mpr hj) hn))
            rcases vfsResolvePath_some ((hroot₂.trans hroot₁).trans hv) hres with rfl | ⟨k, rfl, hused⟩
            · cases hi
            · exact Option.some.inj hi ▸ hused
        · exact .inr (.inl hrem)
  · rw [if_pos hmem] at h
    obtain ⟨-, rfl, rfl⟩ : (-1 : Int) = -1 ∧ ed = ed' ∧ v = v' := by simpa using h
    exact ⟨rfl, fun _ => rfl, fun j _ => .inl (.refl _ j)⟩

end Steps

/-! ### No node for the last call -/

/-- `kmalloc` has memory for the buffer and for two nodes. -/
def twoNodes : SaveMemory := ⟨true, fun _ => true, fun _ => true, fun _ => false⟩

theorem editorOnA_shows : editorOnA.Shows ⟨[[]], 0, 0⟩ := by
  have h : (EditorState.ofDoc 10 0 ⟨[[]], 0, 0⟩).Shows ⟨[[]], 0, 0⟩ :=
    EditorState.shows_ofDoc ⟨by decide, Nat.one_pos, Nat.zero_le _, by simp⟩
  exact h

/-- The file is removed and created, and cannot be opened. -/
theorem twoNodes_fails {bytes : List UInt8} (hlen : bytes.length ≤ 512) :
    ∃ v' k, editorSaveFile twoNodes .root editorOnA (vfsMounted (fileA bytes)) = .ok (-1, editorOnA, v') ∧ MountInv v' ∧
      Names v' pathA.val k ∧ (v'.fs.data.dirents.get k).size = 0 ∧ ∃ fd, allocateFd v' = some fd := by
  have hm := fileA_mountInv hlen
  have hfile := fileA_names bytes
  obtain ⟨fs₁, fs₂, k, hunlink, hcreate, hre⟩ := recreate hm hfile (by decide)
    (congrArg Dirent.isDirectory (fileA_entry bytes)) ((congrArg List.length (fileA_cname bytes)).trans_le (by decide))
    (fun k hk _ => (fileA_used bytes k).mp hk) ⟨1, le_refl _, .inl rfl⟩
  obtain ⟨ch, hinv, -⟩ := hre.inv
  have hm₂ : MountInv ⟨fs₂, some rootNode, closedTable⟩ := ⟨rfl, ⟨ch, hinv⟩, hre.reliable⟩
  have hopen : vfsOpen (fun _ => false) ⟨fs₂, some rootNode, closedTable⟩ pathA.val =
      .ok (-1, ⟨fs₂, some rootNode, closedTable⟩) := by
    rcases vfsOpen_spec (v := ⟨fs₂, some rootNode, closedTable⟩) rfl (fun _ => false) (fun _ => pathA.components_le) with
      ho | ⟨fd, node, hres, -, -⟩
    · exact ho
    · rw [pathA.resolve rfl (fun _ => false) (show pathA.val = [] ++ slash :: nameA from rfl) (by decide)
        (fun h => absurd rfl h) (by decide)] at hres
      obtain ⟨parent, -, hfind⟩ := resolveLoop_snoc.mp (Except.ok.inj hres)
      exact absurd (vfsFinddir_eq_some.mp hfind).1 (by decide)
  refine ⟨⟨fs₂, some rootNode, closedTable⟩, k, ?_, hm₂, ⟨_, hre.resolves, rfl⟩, hre.size, _, allocateFd_closed rfl⟩
  have hjoin : joinLoop editorOnA 0 editorOnA.lineCount [] = some [] := by
    exact joinLoop_all editorOnA_shows.shows rfl (by decide)
  have hpath : editorPath .root editorOnA.filename = .ok pathA.val := rfl
  exact editorSaveFile_unopened (show twoNodes.buffer = true from rfl) hpath hjoin hunlink hcreate hopen (by decide)

/-- The two bytes of a file are lost. -/
theorem failedSave_loses : editorOnA.Valid ∧ MountInv (vfsMounted (fileA [97, 98])) ∧
    ReadsBack (vfsMounted (fileA [97, 98])) pathA.val [97, 98] ∧
    ∃ v', editorSaveFile twoNodes .root editorOnA (vfsMounted (fileA [97, 98])) = .ok (-1, editorOnA, v') ∧
      ¬ ReadsBack v' pathA.val [97, 98] := by
  have hlen : ([97, 98] : List UInt8).length ≤ 512 := by decide
  obtain ⟨v', k, hfail, hm, hk, hsize, fd, hfd⟩ := twoNodes_fails hlen
  refine ⟨editorOnA_shows.valid, fileA_mountInv hlen, fileA_readsBack hlen, v', hfail, fun hread => ?_⟩
  obtain ⟨ch, hinv⟩ := hm.wellFormed
  have h := ((readsBack_iff hinv (hk.used hm.root) hm.reliable (hk.node hm.root) rfl hfd (by decide)).mp hread).1
  rw [hsize] at h
  exact absurd h (by decide)

theorem failedSave_keeps_fileA : ∃ v', editorSaveFile twoNodes .root editorOnA (vfsMounted (fileA [97, 98])) =
      .ok (-1, editorOnA, v') ∧
    (twoNodes.buffer = false → v' = vfsMounted (fileA [97, 98])) ∧
    ∀ j, usedEntry (vfsMounted (fileA [97, 98])).fs.data j → Kept (vfsMounted (fileA [97, 98])).fs v'.fs j ∨
      Removes twoNodes .root editorOnA (vfsMounted (fileA [97, 98])) j ∨
      Reopens twoNodes .root editorOnA (vfsMounted (fileA [97, 98])) j ∧
        ((vfsMounted (fileA [97, 98])).fs.disk.Reliable → ∃ bytes w,
          joinLoop editorOnA 0 editorOnA.lineCount [] = some bytes ∧ (w = 0 ∨ w < bytes.length) ∧
          BeginsWith (vfsMounted (fileA [97, 98])).fs v'.fs j (bytes.take w)) := by
  have hlen : ([97, 98] : List UInt8).length ≤ 512 := by decide
  obtain ⟨v', k, hfail, -⟩ := twoNodes_fails hlen
  exact ⟨v', hfail, (failedSave_keeps rfl (fileA_mountInv hlen).wellFormed hfail).2⟩

end AmqOs.Editor
