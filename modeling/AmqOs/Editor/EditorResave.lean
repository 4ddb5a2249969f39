import AmqOs.Editor.EditorLoad

/-!
# Opening a file and saving it

`editor_load_file` and then `editor_save_file`, without a key between them. A file with lines that fit the editor comes back
as the first 2047 bytes of it without a newline at their end; `resave_iff` says when that is the file.
-/

set_option autoImplicit false

namespace AmqOs.Editor

open AmqOs.Lib AmqOs.Vfs

/-- Every `kmalloc` call gives memory. -/
def SaveMemory.enough : SaveMemory := ⟨true, fun _ => true, fun _ => true, fun _ => true⟩

/-- After loading and saving, the file at `path` reads as `bytes`. -/
def Resaves (cwd : CwdPath) (ed : EditorState) (v : VfsState) (path : CString) (bytes : List UInt8) : Prop :=
  ∃ r₁ ed₁ v₁ r₂ ed₂ v₂, editorLoadFile (fun _ => true) cwd ed v = .ok (r₁, ed₁, v₁) ∧
    editorSaveFile .enough cwd ed₁ v₁ = .ok (r₂, ed₂, v₂) ∧ ReadsBack v₂ path bytes

/-- Entry `i` is a regular file that the editor's path leads to. Its name ends within the entry, as `tinyfs_create_node` stores
it, and is used only once; it has lines that fit the editor and no carriage return. There is an entry for the new file. -/
structure EditableFile (cwd : CwdPath) (ed : EditorState) (v : VfsState) (path : CString) (i : Fin 256) (text : CString) :
    Prop where
  mounted : MountInv v
  path_eq : editorPath cwd ed.filename = .ok path
  names : Names v path i
  regular : (v.fs.data.dirents.get i).isDirectory = 0
  name_le : (v.fs.data.dirents.get i).cname.length ≤ 31
  unique : ∀ k, usedEntry v.fs.data k → (v.fs.data.dirents.get k).cname = (v.fs.data.dirents.get i).cname → k = i
  slot : ∃ k : Fin 256, 1 ≤ k.val ∧ (k = i ∨ ¬ usedEntry v.fs.data k)
  lines_le : (textLines newlineChar text).length ≤ maxLines
  widths_le : ∀ s ∈ textLines newlineChar text, s.length ≤ maxLineLength - 1
  noReturn : returnChar ∉ text
  reads : ReadsBack v path (text.map Subtype.val)

/-- The state after a call of the loader: the editor has the lines `ls`, and the descriptors are as free as before. -/
structure Loaded (ed : EditorState) (v : VfsState) (ed₁ : EditorState) (v₁ : VfsState) (ls : List CString) : Prop where
  shows : Shows ed₁.lines ls
  count : ed₁.lineCount = ls.length
  filename : ed₁.filename = ed.filename
  fs : v₁.fs = v.fs
  root : v₁.rootNode = v.rootNode
  free : ∃ fd, allocateFd v₁ = some fd

section Loaded

variable {ed ed₁ : EditorState} {v v₁ : VfsState} {ls : List CString} {path : CString} {i : Fin 256}

theorem Loaded.mountInv (h : Loaded ed v ed₁ v₁ ls) (hm : MountInv v) : MountInv v₁ :=
  ⟨h.root.trans hm.root, h.fs ▸ hm.wellFormed, h.fs ▸ hm.reliable⟩

theorem Loaded.names (h : Loaded ed v ed₁ v₁ ls) (hi : Names v path i) : Names v₁ path i := by
  obtain ⟨node, hres, hn⟩ := hi
  exact ⟨node, (vfsResolvePath_dirents h.root (congrArg (·.data.dirents) h.fs) _ _).trans hres, hn⟩

theorem Loaded.readsBack (h : Loaded ed v ed₁ v₁ ls) (hm : MountInv v) (hi : Names v path i) {bytes : List UInt8}
    (hlen : bytes.length < 2 ^ 31) (hread : ReadsBack v path bytes) : ReadsBack v₁ path bytes := by
  obtain ⟨ch, hinv⟩ := hm.wellFormed
  obtain ⟨fd, hfd⟩ := hread.opened hm.root hi
  obtain ⟨fd₁, hfd₁⟩ := h.free
  have hm₁ := h.mountInv hm
  have hold := (readsBack_iff hinv (hi.used hm.root) hm.reliable (hi.node hm.root) rfl hfd hlen).mp hread
  have hinv₁ : Inv v₁.fs.data (usedEntry v.fs.data) ch := by rwa [h.fs]
  refine (readsBack_iff hinv₁ (hi.used hm.root) hm₁.reliable ((h.names hi).node hm₁.root) rfl hfd₁ hlen).mpr ?_
  rw [h.fs]
  exact hold

end Loaded

section Load

theorem editorPath_length {cwd : CwdPath} {filename full : CString} (h : editorPath cwd filename = .ok full) :
    full.length < 256 := by
  by_cases hlen : (if filename.head? = some slash then filename else cwd.withSlash ++ filename).length < 256
  · rw [editorPath, if_pos hlen] at h
    exact Except.ok.inj h ▸ hlen
  · rw [editorPath, if_neg hlen] at h
    cases h

variable {ed : EditorState} {cwd : CwdPath} {v : VfsState} {i : Fin 256} {full text : CString}

theorem EditableFile.fits (h : EditableFile cwd ed v full i text) :
    PiecesFit maxLines (maxLineLength - 1) (piecesFrom newlineChar [] text) := piecesFit_of_lines h.lines_le h.widths_le

theorem EditableFile.length_lt (h : EditableFile cwd ed v full i text) : (text.map Subtype.val).length < 2 ^ 31 := by
  rw [List.length_map]
  exact lt_of_le_of_lt h.fits.length_le (by decide)

theorem EditableFile.shortPath (h : EditableFile cwd ed v full i text) : ∃ path : ShortPath, path.val = full :=
  ⟨⟨full, Nat.le_of_lt_succ (editorPath_length h.path_eq), (h.names.fits h.mounted.root).2⟩, rfl⟩

theorem clearLines_shows (lines : Rows maxLines maxLineLength) : Shows (clearLines lines) [[]] := by
  intro k s hk
  obtain ⟨hk', hs⟩ := List.getElem?_eq_some_iff.mp hk
  rw [List.length_singleton] at hk'
  obtain rfl : k = 0 := by omega
  obtain rfl : s = [] := hs.symm
  refine ⟨(lines[0]).set 0 0, by simp [clearLines], by decide, fun x hx => ?_⟩
  obtain rfl : x = 0 := Nat.le_zero.mp hx
  simp [byte]

/-- **Loading**: the lines are those of the first 2047 bytes. -/
theorem editorLoadFile_spec (hm : MountInv v) (hfull : editorPath cwd ed.filename = .ok full) (hi : Names v full i)
    (hcr : returnChar ∉ text) (hfit : PiecesFit maxLines (maxLineLength - 1) (piecesFrom newlineChar [] text))
    (htext : ReadsBack v full (text.map Subtype.val)) :
    ∃ r ed₁ v₁ ls, editorLoadFile (fun _ => true) cwd ed v = .ok (r, ed₁, v₁) ∧ Loaded ed v ed₁ v₁ ls ∧
      joinLines ls = (dropFinal newlineChar (text.take 2047)).map Subtype.val := by
  obtain ⟨ch, hinv⟩ := hm.wellFormed
  have hu := hi.used hm.root
  obtain ⟨fd, hfd⟩ := htext.opened hm.root hi
  have hlen : (text.map Subtype.val).length < 2 ^ 31 := by
    rw [List.length_map]
    exact lt_of_le_of_lt hfit.length_le (by decide)
  obtain ⟨hsize, hbytes⟩ := (readsBack_iff hinv hu hm.reliable (hi.node hm.root) rfl hfd hlen).mp htext
  rw [List.length_map] at hsize
  -- the bytes that are read
  have hread := vfsRead_opened hinv hu hm.reliable (show (nodeOf v.fs.data i).dirent = some i from rfl) fd (2048 - 1)
    (k := min 2047 text.length) (by rw [hsize]; rfl)
  have hbuffer : (List.range (min 2047 text.length)).map (byteAt v.fs.disk (ch i)) =
      (text.take 2047).map Subtype.val := by
    calc (List.range (min 2047 text.length)).map (byteAt v.fs.disk (ch i))
        = (List.range (min 2047 text.length)).map fun p => (text.map Subtype.val).getD p 0 :=
          List.map_congr_left fun p hp => hbytes p (by rw [List.length_map]; have := List.mem_range.mp hp; omega)
      _ = (text.map Subtype.val).take (min 2047 text.length) :=
          map_getD_range _ (by rw [List.length_map]; exact min_le_right _ _)
      _ = (text.take 2047).map Subtype.val := by
        rw [← List.map_take, ← List.take_eq_take_min]
  rw [hbuffer] at hread
  -- the descriptor is closed again
  obtain ⟨v₁, hv₁⟩ : ∃ v₁, v₁ = (v.setFd fd ⟨true, some (nodeOf v.fs.data i), 0⟩).setFd fd
      (FileDescriptor.advance ⟨true, some (nodeOf v.fs.data i), 0⟩ (min 2047 text.length : Nat)) := ⟨_, rfl⟩
  have hclose : (vfsClose v₁ fd.val).2 = v₁.setFd fd ⟨false, none, 0⟩ := by
    have hused : (v₁.fdTable.get fd).used = true := by rw [hv₁, setFd_get, if_pos rfl, advance_used]
    simp only [vfsClose, usedFd_of_used hused]
  have hfree := allocateFd_setFd v₁ (firstFin_eq_some.mp hfd).1
  rw [← hv₁] at hread
  have hpos : ¬ (fd.val : Int) < 0 := by omega
  have hfs : (v₁.setFd fd ⟨false, none, 0⟩).fs = v.fs := by rw [hv₁]; rfl
  have hroot : (v₁.setFd fd ⟨false, none, 0⟩).rootNode = v.rootNode := by rw [hv₁]; rfl
  by_cases hnil : text = []
  · refine ⟨-1, { ed with lines := clearLines ed.lines, lineCount := 1 }, _, [[]], ?_,
      ⟨clearLines_shows ed.lines, rfl, rfl, hfs, hroot, hfree⟩, ?_⟩
    · have hzero : ((min 2047 text.length : Nat) : Int) ≤ 0 := by rw [hnil]; rfl
      simp only [editorLoadFile, hfull, ok_bind, vfsOpen_ok (hi.node hm.root) hfd, if_neg hpos, hread, if_pos hzero, hclose]
    · rw [hnil]
      rfl
  · obtain ⟨lines, ls, hlines, hs, hjoin⟩ := loadLines_spec (clearLines ed.lines) (x := text.take 2047) (text.drop 2047)
      (fun h => hcr (List.mem_of_mem_take h)) (by rwa [List.take_append_drop])
    have hsome : ¬ ((min 2047 text.length : Nat) : Int) ≤ 0 := by
      have := List.length_pos_iff.mpr hnil
      omega
    refine ⟨0, { ed with lines, lineCount := ls.length, modified := false }, _, ls, ?_,
      ⟨hs, rfl, rfl, hfs, hroot, hfree⟩, hjoin⟩
    simp only [editorLoadFile, hfull, ok_bind, vfsOpen_ok (hi.node hm.root) hfd, if_neg hpos, hread, if_neg hsome, hclose,
      hlines, checked]

end Load

/-! ## Saving -/

section Save

variable {mem : SaveMemory} {ed : EditorState} {cwd : CwdPath} {v v₁ v₂ v₃ v₄ : VfsState} {full : CString} {fd : Fin 256}
  {bytes : List UInt8} {r₁ r₂ written : Int}

theorem joinLoop_all {ls : List CString} (hs : Shows ed.lines ls) (hcount : ed.lineCount = ls.length)
    (hlen : (joinLines ls).length ≤ maxLines * maxLineLength) : joinLoop ed 0 ed.lineCount [] = some (joinLines ls) := by
  have hjoin := joinLoop_spec ed hs hcount (List.drop_zero (l := ls)) (show ([] ++ joinLines ls).length ≤ _ from hlen)
  rwa [← hcount, List.nil_append] at hjoin

/-- A save that gets as far as its write. -/
theorem editorSaveFile_eq (hmem : mem.buffer = true) (hfull : editorPath cwd ed.filename = .ok full)
    (hjoin : joinLoop ed 0 ed.lineCount [] = some bytes) (hu : vfsUnlink mem.unlink v full = .ok (r₁, v₁))
    (hc : vfsCreate mem.create v₁ full = .ok (r₂, v₂)) (ho : vfsOpen mem.openFile v₂ full = .ok ((fd.val : Int), v₃))
    (hw : vfsWrite v₃ fd.val bytes = .ok (written, v₄)) :
    editorSaveFile mem cwd ed v = .ok (if written ≠ (bytes.length : Int) then (-1, ed, (vfsClose v₄ fd.val).2)
      else (0, { ed with modified := false }, (vfsClose v₄ fd.val).2)) := by
  have hpos : ¬ (fd.val : Int) < 0 := by omega
  have hno : ¬ ¬ mem.buffer = true := not_not.mpr hmem
  simp only [editorSaveFile, hfull, ok_bind, if_neg hno, checked, hjoin, hu, hc, ho, if_neg hpos, hw]
  split <;> rfl

/-- The file after a save: the bytes at the start of what `vfs_open` found. -/
theorem editorSaveFile_writes (hmem : mem.buffer = true) (hfull : editorPath cwd ed.filename = .ok full)
    (hjoin : joinLoop ed 0 ed.lineCount [] = some bytes) (hu : vfsUnlink mem.unlink v full = .ok (r₁, v₁))
    (hc : vfsCreate mem.create v₁ full = .ok (r₂, v₂)) {live : Fin 256 → Prop} {ch : Fin 256 → List Nat} {k : Fin 256}
    (hinv : Inv v₂.fs.data live ch) (hk : live k) (hr : v₂.fs.disk.Reliable) (hroot : v₂.rootNode = some rootNode)
    {node : Node} (hres : vfsResolvePath mem.openFile v₂ full = .ok (some node)) (hn : node.dirent = some k)
    (hfd : allocateFd v₂ = some fd) (hroom : bytes.length ≤ 512 * ((ch k).length + (freeSet v₂.fs.data.fat).card)) :
    ∃ r ed' new w, editorSaveFile mem cwd ed v = .ok (r, ed', (vfsClose w fd.val).2) ∧
      Overwritten (v₂.setFd fd ⟨true, some node, 0⟩) live ch fd k bytes new w ∧
      ∀ text : List UInt8, text.length < 2 ^ 31 → (ReadsBack (vfsClose w fd.val).2 full text ↔
        max (v₂.fs.data.dirents.get k).size.toNat bytes.length = text.length ∧
          ∀ p < text.length, byteAt w.fs.disk (ch k ++ new) p = text.getD p 0) := by
  obtain ⟨written, new, w, hw, how⟩ := vfsWrite_opened hinv hk hr hn fd bytes hroom
  have hsave := editorSaveFile_eq hmem hfull hjoin hu hc (vfsOpen_ok hres hfd) hw
  have hresw : vfsResolvePath mem.openFile (v₂.setFd fd ⟨true, some node, 0⟩) full = .ok (some node) :=
    (vfsResolvePath_dirents rfl rfl _ _).trans hres
  have hback : ∀ text : List UInt8, text.length < 2 ^ 31 → (ReadsBack (vfsClose w fd.val).2 full text ↔ _) :=
    fun text hlen => how.readsBack_iff hk hroot hresw hn (firstFin_eq_some.mp hfd).1 hlen
  split at hsave
  · exact ⟨_, _, new, w, hsave, how, hback⟩
  · exact ⟨_, _, new, w, hsave, how, hback⟩

end Save

/-! ## Both -/

section Resave

variable {ed : EditorState} {cwd : CwdPath} {v : VfsState} {i : Fin 256} {full text : CString}

/-- A path with a slash at its end: the file is not removed but written from its start on, with a beginning of itself. -/
theorem resave_inPlace (hm : MountInv v) {path : ShortPath} (hfull : editorPath cwd ed.filename = .ok path.val)
    (hi : Names v path.val i) (hlast : path.val.getLast? = some slash)
    (hreg : (v.fs.data.dirents.get i).isDirectory = 0) (hfd : ∃ fd, allocateFd v = some fd) {bytes : List UInt8}
    (hjoin : joinLoop ed 0 ed.lineCount [] = some bytes) {text : List UInt8} (hlen : text.length < 2 ^ 31)
    (htext : ReadsBack v path.val text) (hbytes : bytes <+: text) :
    ∃ r ed' v', editorSaveFile .enough cwd ed v = .ok (r, ed', v') ∧ ReadsBack v' path.val text := by
  obtain ⟨ch, hinv⟩ := hm.wellFormed
  have hu := hi.used hm.root
  obtain ⟨fd, hfd⟩ := hfd
  obtain ⟨hunlink, hcreate⟩ := hi.refused hm.root hlast hreg
  obtain ⟨hsize, hold⟩ := (readsBack_iff hinv hu hm.reliable (hi.node hm.root) rfl hfd hlen).mp htext
  have hle := hbytes.length_le
  have hfits := (hinv.chains.entry i hu).size
  obtain ⟨r, ed', new, w, hsave, how, hback⟩ := editorSaveFile_writes (show SaveMemory.enough.buffer = true from rfl) hfull
    hjoin hunlink hcreate hinv hu hm.reliable hm.root (hi.node hm.root) (show (nodeOf v.fs.data i).dirent = some i from rfl)
    hfd (by omega)
  refine ⟨r, ed', _, hsave, (hback text hlen).mpr ⟨by rw [hsize]; exact max_eq_left hle, fun p hp => ?_⟩⟩
  by_cases hpb : p < bytes.length
  · obtain ⟨rest, rfl⟩ := hbytes
    rw [how.bytes p hpb, List.getD_append _ _ _ _ hpb]
  · exact (how.rest p (by omega) (by rw [← hsize] at hp; exact hp)).trans (hold p hp)

/-- A path with a name at its end: the file is created anew. -/
theorem resave_anew (hm : MountInv v) {path : ShortPath} (hfull : editorPath cwd ed.filename = .ok path.val)
    (hi : Names v path.val i) (hlast : path.val.getLast? ≠ some slash)
    (hreg : (v.fs.data.dirents.get i).isDirectory = 0) (hname : (v.fs.data.dirents.get i).cname.length ≤ 31)
    (honly : ∀ k, usedEntry v.fs.data k → (v.fs.data.dirents.get k).cname = (v.fs.data.dirents.get i).cname → k = i)
    (hslot : ∃ k : Fin 256, 1 ≤ k.val ∧ (k = i ∨ ¬ usedEntry v.fs.data k)) (hfd : ∃ fd, allocateFd v = some fd)
    {bytes : List UInt8} (hjoin : joinLoop ed 0 ed.lineCount [] = some bytes) {text : List UInt8}
    (hlen : text.length < 2 ^ 31) (htext : ReadsBack v path.val text) (hle : bytes.length ≤ text.length) :
    ∃ r ed' v', editorSaveFile .enough cwd ed v = .ok (r, ed', v') ∧ (ReadsBack v' path.val text ↔ bytes = text) := by
  obtain ⟨ch, hinv⟩ := hm.wellFormed
  have hu := hi.used hm.root
  obtain ⟨fd, hfd⟩ := hfd
  obtain ⟨hsize, -⟩ := (readsBack_iff hinv hu hm.reliable (hi.node hm.root) rfl hfd hlen).mp htext
  have hfits := (hinv.chains.entry i hu).size
  obtain ⟨fs₁, fs₂, k, hunlink, hcreate, hre⟩ := recreate hm hi hlast hreg hname honly hslot
  obtain ⟨ch', hinv', hnil⟩ := hre.inv
  have hk : usedEntry fs₂.data k := @Names.used { v with fs := fs₂ } k path.val hm.root ⟨_, hre.resolves, rfl⟩
  have hroom := hre.room
  rw [hinv.entryChain_eq hu] at hroom
  obtain ⟨r, ed', new, w, hsave, how, hback⟩ := editorSaveFile_writes (show SaveMemory.enough.buffer = true from rfl) hfull
    hjoin hunlink hcreate hinv' hk hre.reliable hm.root hre.resolves (show (nodeOf fs₂.data k).dirent = some k from rfl) hfd
    (by
      rw [hnil, List.length_nil]
      show _ ≤ 512 * (0 + (freeSet fs₂.data.fat).card)
      omega)
  refine ⟨r, ed', _, hsave, (hback text hlen).trans ?_⟩
  rw [show (({ v with fs := fs₂ } : VfsState).fs.data.dirents.get k).size.toNat = 0 by rw [hre.size]; rfl, Nat.zero_max]
  constructor
  · rintro ⟨hcount, hall⟩
    refine List.ext_getElem hcount fun p h1 h2 => ?_
    have hp := (how.bytes p h1).symm.trans (hall p h2)
    rwa [List.getD_eq_getElem _ _ h1, List.getD_eq_getElem _ _ h2] at hp
  · rintro rfl
    exact ⟨rfl, how.bytes⟩

theorem resaves_iff_of_calls {r₁ r₂ : Int} {ed₁ ed₂ : EditorState} {v₁ v₂ : VfsState} {path : CString} {bytes : List UInt8}
    (hload : editorLoadFile (fun _ => true) cwd ed v = .ok (r₁, ed₁, v₁))
    (hsave : editorSaveFile .enough cwd ed₁ v₁ = .ok (r₂, ed₂, v₂)) :
    Resaves cwd ed v path bytes ↔ ReadsBack v₂ path bytes := by
  refine ⟨fun ⟨r₁', ed₁', v₁', r₂', ed₂', v₂', hload', hsave', hback⟩ => ?_, fun h => ⟨_, _, _, _, _, _, hload, hsave, h⟩⟩
  rw [hload] at hload'
  cases hload'
  rw [hsave] at hsave'
  cases hsave'
  exact hback

/-- What is loaded is a beginning of the file, and the save has it in its buffer. -/
theorem EditableFile.load (h : EditableFile cwd ed v full i text) :
    ∃ r ed₁ v₁ ls, editorLoadFile (fun _ => true) cwd ed v = .ok (r, ed₁, v₁) ∧ Loaded ed v ed₁ v₁ ls ∧
      joinLoop ed₁ 0 ed₁.lineCount [] = some ((dropFinal newlineChar (text.take 2047)).map Subtype.val) := by
  obtain ⟨r, ed₁, v₁, ls, hload, hl, hjoin⟩ := editorLoadFile_spec h.mounted h.path_eq h.names h.noReturn h.fits h.reads
  refine ⟨r, ed₁, v₁, ls, hload, hl, hjoin ▸ joinLoop_all hl.shows hl.count ?_⟩
  rw [hjoin, List.length_map]
  exact ((prefix_dropFinal _ _).length_le.trans (List.length_take_le _ _)).trans (by decide)

theorem prefix_loaded (text : CString) :
    (dropFinal newlineChar (text.take 2047)).map Subtype.val <+: text.map Subtype.val :=
  ((prefix_dropFinal _ _).trans (List.take_prefix _ _)).map _

theorem EditableFile.resaves_of_slash (h : EditableFile cwd ed v full i text) (hlast : full.getLast? = some slash) :
    Resaves cwd ed v full (text.map Subtype.val) := by
  obtain ⟨path, rfl⟩ := h.shortPath
  obtain ⟨r₁, ed₁, v₁, ls, hload, hl, hbuffer⟩ := h.load
  obtain ⟨r₂, ed₂, v₂, hsave, hback⟩ := resave_inPlace (hl.mountInv h.mounted) (hl.filename ▸ h.path_eq) (hl.names h.names)
    hlast (hl.fs ▸ h.regular) hl.free hbuffer h.length_lt (hl.readsBack h.mounted h.names h.length_lt h.reads)
    (prefix_loaded text)
  exact (resaves_iff_of_calls hload hsave).mpr hback

theorem EditableFile.resaves_iff_of_name (h : EditableFile cwd ed v full i text) (hlast : full.getLast? ≠ some slash) :
    Resaves cwd ed v full (text.map Subtype.val) ↔ text.length ≤ 2047 ∧ text.getLast? ≠ some newlineChar := by
  obtain ⟨path, rfl⟩ := h.shortPath
  obtain ⟨r₁, ed₁, v₁, ls, hload, hl, hbuffer⟩ := h.load
  obtain ⟨r₂, ed₂, v₂, hsave, hback⟩ := resave_anew (hl.mountInv h.mounted) (hl.filename ▸ h.path_eq) (hl.names h.names)
    hlast (hl.fs ▸ h.regular) (hl.fs ▸ h.name_le) (hl.fs ▸ h.unique) (hl.fs ▸ h.slot) hl.free hbuffer h.length_lt
    (hl.readsBack h.mounted h.names h.length_lt h.reads) (prefix_loaded text).length_le
  rw [resaves_iff_of_calls hload hsave, hback, (List.map_injective_iff.mpr Subtype.val_injective).eq_iff,
    dropFinal_take_eq_iff]

/-- **When a file is the same after loading and saving**: when it fits the loader's buffer and has no newline at its end. With
a slash at the end of the path it is always the same. -/
theorem resaves_iff (h : EditableFile cwd ed v full i text) : Resaves cwd ed v full (text.map Subtype.val) ↔
    full.getLast? = some slash ∨ text.length ≤ 2047 ∧ text.getLast? ≠ some newlineChar := by
  by_cases hlast : full.getLast? = some slash
  · exact iff_of_true (h.resaves_of_slash hlast) (.inl hlast)
  · rw [h.resaves_iff_of_name hlast]
    exact ⟨.inr, fun h => h.resolve_left hlast⟩

end Resave

/-! ### Two small files -/

/-- The file is `/a`. -/
def editorOnA : EditorState := { EditorState.ofDoc 10 0 ⟨[[]], 0, 0⟩ with filename := pathA.val }

theorem editableFile_fileA {text : CString} (hlen : (text.map Subtype.val).length ≤ 512)
    (hlines : (textLines newlineChar text).length ≤ maxLines)
    (hwidths : ∀ s ∈ textLines newlineChar text, s.length ≤ maxLineLength - 1) (hcr : returnChar ∉ text) :
    EditableFile .root editorOnA (vfsMounted (fileA (text.map Subtype.val))) pathA.val 1 text where
  mounted := fileA_mountInv hlen
  path_eq := rfl
  names := fileA_names _
  regular := congrArg Dirent.isDirectory (fileA_entry _)
  name_le := (congrArg List.length (fileA_cname _)).trans_le (by decide)
  unique := fun k hk _ => (fileA_used _ k).mp hk
  slot := ⟨1, le_refl _, .inl rfl⟩
  lines_le := hlines
  widths_le := hwidths
  noReturn := hcr
  reads := fileA_readsBack hlen

/-- A file of a newline is empty then. -/
theorem newline_not_resaved :
    EditableFile .root editorOnA (vfsMounted (fileA [newline])) pathA.val 1 [newlineChar] ∧
    ¬ Resaves .root editorOnA (vfsMounted (fileA [newline])) pathA.val [newline] := by
  have h := @editableFile_fileA [newlineChar] (by decide) (by decide) (by decide) (by decide)
  refine ⟨h, fun hre => ?_⟩
  exact ((h.resaves_iff_of_name (by decide)).mp hre).2 rfl

theorem resaves_iff_fileA : EditableFile .root editorOnA (vfsMounted (fileA (nameA.map Subtype.val))) pathA.val 1 nameA ∧
    (Resaves .root editorOnA (vfsMounted (fileA (nameA.map Subtype.val))) pathA.val (nameA.map Subtype.val) ↔
      pathA.val.getLast? = some slash ∨ nameA.length ≤ 2047 ∧ nameA.getLast? ≠ some newlineChar) := by
  have h := @editableFile_fileA nameA (by decide) (by decide) (by decide) (by decide)
  exact ⟨h, resaves_iff h⟩

end AmqOs.Editor
