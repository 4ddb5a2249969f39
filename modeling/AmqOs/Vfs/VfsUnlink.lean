import AmqOs.Vfs.TinyfsFiles
import AmqOs.Vfs.VfsTree

/-!
# What `vfs_unlink` removes

`vfs_unlink` resolves the directory of its path, but `tinyfs_unlink` takes the first used entry with the name in the
whole table, whatever its directory. `UnlinkExact` says that a call removes what its path names and nothing else;
`unlinkExact_iff` says when it does.
-/

set_option autoImplicit false

namespace AmqOs.Vfs

open AmqOs.Lib

/-- The path names entry `i`. -/
def Names (v : VfsState) (path : CString) (i : Fin 256) : Prop :=
  ∃ node, vfsResolvePath (fun _ => true) v path = .ok (some node) ∧ node.dirent = some i

/-- Entry `i` is gone; every other used entry has its fields, its chain and its contents. -/
structure OnlyRemoved (s s' : Tinyfs) (i : Fin 256) : Prop where
  used : ∀ j, usedEntry s'.data j ↔ usedEntry s.data j ∧ j ≠ i
  entry : ∀ j, usedEntry s.data j → j ≠ i → s'.data.dirents.get j = s.data.dirents.get j
  chain : ∀ j, usedEntry s.data j → j ≠ i → entryChain s'.data j = entryChain s.data j
  contents : ∀ j, usedEntry s.data j → j ≠ i → contents s' j = contents s j

/-- The call returns, and when it returns 0 it has removed exactly the entry that the path named. -/
def UnlinkExact (mem : Nat → Bool) (v : VfsState) (path : CString) : Prop :=
  ∃ r v', vfsUnlink mem v path = .ok (r, v') ∧ (r = 0 → ∃ i, Names v path i ∧ OnlyRemoved v.fs v'.fs i)

/-- The directory part fits its buffers; and when it leads to a directory and there is an entry anywhere with the
name, then the name is not empty, the path has at most 32 components, and the first such entry is in that directory. -/
def UnlinkSafe (mem : Nat → Bool) (v : VfsState) (path : CString) : Prop :=
  ∀ p q, path = p ++ slash :: q → slash ∉ q →
    p.length < 256 ∧ (components p).length ≤ 32 ∧
    ∀ parent, vfsResolvePath mem v (parentOf p) = .ok (some parent) → parent.type = .directory →
      ∀ i, firstFin 0 (isNamed v.fs.data (q.take 255)) = some i →
        q ≠ [] ∧ (components path).length ≤ 32 ∧ (v.fs.data.dirents.get i).parentInode = parent.inode

section Unlink

variable {v : VfsState} {mem : Nat → Bool} {path : CString} {i : Fin 256}

theorem Removed.onlyRemoved {s s' : Tinyfs} {ch : Fin 256 → List Nat}
    (hrm : Removed s (usedEntry s.data) ch i s') (h : Inv s.data (usedEntry s.data) ch) (hr : s.disk.Reliable) :
    OnlyRemoved s s' i := by
  refine ⟨fun j => (hrm.used_iff j).trans and_comm, fun j _ hne => hrm.freed.other j hne, fun j hj hne => ?_,
    fun j hj hne => hrm.contents_other h hr hj hne⟩
  rw [hrm.inv.entryChain_eq hj, h.entryChain_eq hj, Function.update_of_ne hne]

/-- The call on a path whose directory part fits. -/
theorem vfsUnlink_eq (hv : v.rootNode = some rootNode) (mem : Nat → Bool) {p q : CString} (hq : slash ∉ q)
    (hp : p ≠ [] → p.head? = some slash) (hlen : p.length < 256) (hc : (components p).length ≤ 32) :
    vfsUnlink mem v (p ++ slash :: q) =
      match resolveLoop mem v.fs.data 0 ((components p).map (·.take 255)) rootNode with
      | none => .ok (-1, v)
      | some parent => if parent.type ≠ .directory then .ok (-1, v)
        else tinyfsUnlink v.fs parent (q.take 255) >>= fun r => .ok (r.1, { v with fs := r.2 }) := by
  have hsplit : splitPath (p ++ slash :: q) = .ok (some (parentOf p, q.take 255)) := by
    rw [splitPath_eq hq hp, if_pos hlen]
  have hres := vfsResolvePath_eq hv mem (parentOf_head hp) (by rw [components_parentOf]; exact hc)
  rw [components_parentOf] at hres
  have heq := Eq.refl (vfsUnlink mem v (p ++ slash :: q))
  conv_rhs at heq => simp only [vfsUnlink, hsplit, ok_bind, hres]
  exact heq

/-- A call that removes what it should is on a path with the condition. -/
theorem unlinkSafe_of_exact (hv : v.rootNode = some rootNode) (hw : WellFormed v.fs.data) (hr : v.fs.disk.Reliable)
    (hp : path.head? = some slash) (h : UnlinkExact mem v path) : UnlinkSafe mem v path := by
  intro p q hpath hq
  subst hpath
  obtain ⟨r, v', hrun, hex⟩ := h
  have hhead : p ≠ [] → p.head? = some slash := fun hne => by rwa [List.head?_append_of_ne_nil p hne] at hp
  have hlen : p.length < 256 := by
    by_contra hlen
    simp [vfsUnlink, splitPath_eq hq hhead, hlen] at hrun
  have hc : (components p).length ≤ 32 := by
    by_contra hc
    have hfault := vfsResolvePath_fault hv mem (parentOf_head hhead) (by rw [components_parentOf]; exact hc)
    simp [vfsUnlink, splitPath_eq hq hhead, hlen, hfault] at hrun
  refine ⟨hlen, hc, fun parent hparent hdir i hi => ?_⟩
  have hres := vfsResolvePath_eq hv mem (parentOf_head hhead) (by rw [components_parentOf]; exact hc)
  rw [components_parentOf, hparent] at hres
  have hres' := (Except.ok.inj hres).symm
  -- the call removed the first entry with the name
  obtain ⟨ch, hinv⟩ := hw
  have hused : ∀ i, isNamed v.fs.data (q.take 255) i = true → usedEntry v.fs.data i := fun i hi =>
    (isNamed_iff.mp hi).1
  obtain ⟨hui, hname⟩ := isNamed_iff.mp (firstFin_eq_some.mp hi).2.1
  rcases tinyfsUnlink_spec hinv hr parent (q.take 255) hused with ⟨hno, -⟩ | ⟨-, j, s', hj, he, hrm⟩
  · rcases hno with hno | hno
    · exact absurd hdir hno
    · rw [hi] at hno
      cases hno
  obtain rfl : i = j := Option.some.inj (hi.symm.trans hj)
  simp only [vfsUnlink_eq hv mem hq hhead hlen hc, hres', hdir, ne_eq, not_true_eq_false, if_false, he, ok_bind,
    Except.ok.injEq, Prod.mk.injEq] at hrun
  obtain ⟨hr0, rfl⟩ := hrun
  obtain ⟨k, ⟨node, hnode, hdk⟩, honly⟩ := hex hr0.symm
  obtain rfl : i = k := by
    by_contra hne
    exact ((hrm.used_iff i).mp ((honly.used i).mpr ⟨hui, hne⟩)).1 rfl
  -- so the path led to that entry
  have hcp : (components (p ++ slash :: q)).length ≤ 32 := by
    by_contra hcp
    rw [vfsResolvePath_fault hv _ hp hcp] at hnode
    cases hnode
  rw [vfsResolvePath_eq hv _ hp hcp, components_append hq, List.map_append] at hnode
  have hnode' := Except.ok.inj hnode
  have hqne : q ≠ [] := by
    rintro rfl
    simp only [component, if_true, List.map_nil, List.append_nil] at hnode'
    rcases resolveLoop_some hnode' with ⟨-, rfl⟩ | ⟨us, t, j, hts, rfl, -, hcn⟩
    · cases hdk
    · obtain rfl : j = i := Option.some.inj hdk
      obtain ⟨c, hcm, hct⟩ := List.mem_map.mp (show t ∈ (components p).map (·.take 255) by simp [hts])
      have hcne := componentsFrom_ne_nil c hcm
      rw [hname] at hcn
      rw [← hct] at hcn
      exact hcne (by simpa using hcn.symm)
  simp only [component, hqne, if_false, List.map_cons, List.map_nil] at hnode'
  obtain ⟨parent', h1, h2⟩ := resolveLoop_snoc.mp hnode'
  obtain rfl : parent = parent' := Option.some.inj ((resolveLoop_mem hres').symm.trans h1)
  obtain ⟨-, -, j, hj', rfl⟩ := vfsFinddir_eq_some.mp h2
  obtain rfl : j = i := Option.some.inj hdk
  exact ⟨hqne, hcp, (isEntry_iff.mp (firstFin_eq_some.mp hj').2.1).2.1⟩

/-- Under the condition the call removes what it should. -/
theorem unlinkExact_of_safe (hv : v.rootNode = some rootNode) (hw : WellFormed v.fs.data) (hr : v.fs.disk.Reliable)
    (hp : path.head? = some slash) (h : UnlinkSafe mem v path) : UnlinkExact mem v path := by
  obtain ⟨p, q, rfl, hq, hhead⟩ := exists_split hp
  obtain ⟨hlen, hc, hsafe⟩ := h p q rfl hq
  have hres := vfsResolvePath_eq hv mem (parentOf_head hhead) (by rw [components_parentOf]; exact hc)
  rw [components_parentOf] at hres
  have hcall := vfsUnlink_eq hv mem hq hhead hlen hc
  cases hpar : resolveLoop mem v.fs.data 0 ((components p).map (·.take 255)) rootNode with
  | none => exact ⟨-1, v, by rw [hcall, hpar], fun h0 => absurd h0 (by decide)⟩
  | some parent =>
    by_cases hdir : parent.type = .directory
    · obtain ⟨ch, hinv⟩ := hw
      have hused : ∀ i, isNamed v.fs.data (q.take 255) i = true → usedEntry v.fs.data i := fun i hi =>
        (isNamed_iff.mp hi).1
      rcases tinyfsUnlink_spec hinv hr parent (q.take 255) hused with ⟨-, he⟩ | ⟨-, i, s', hi, he, hrm⟩
      · exact ⟨-1, v, by simp [hcall, hpar, hdir, he], fun h0 => absurd h0 (by decide)⟩
      · refine ⟨0, { v with fs := s' }, by simp [hcall, hpar, hdir, he], fun _ => ⟨i, ?_, hrm.onlyRemoved hinv hr⟩⟩
        obtain ⟨hqne, hcp, hpi⟩ := hsafe parent (by rw [hres, hpar]) hdir i hi
        obtain ⟨-, hnamed, hfirst⟩ := firstFin_eq_some.mp hi
        obtain ⟨hui, hname⟩ := isNamed_iff.mp hnamed
        -- the first entry with the name is the first one with the name in its directory
        have hentry : firstFin 0 (isEntry v.fs.data parent.inode (q.take 255)) = some i := by
          refine firstFin_eq_some.mpr ⟨Nat.zero_le _, isEntry_iff.mpr ⟨hui, hpi, hname⟩, fun j hj hji => ?_⟩
          by_contra hne
          obtain ⟨huj, -, hnj⟩ := isEntry_iff.mp (by simpa using hne)
          have hnot := hfirst j hj hji
          rw [isNamed_iff.mpr ⟨huj, hnj⟩] at hnot
          cases hnot
        refine ⟨nodeOf v.fs.data i, ?_, rfl⟩
        rw [vfsResolvePath_eq hv _ hp hcp, components_append hq, List.map_append]
        simp only [component, hqne, if_false, List.map_cons, List.map_nil, Except.ok.injEq]
        exact resolveLoop_snoc.mpr ⟨parent, resolveLoop_mem hpar, vfsFinddir_eq_some.mpr ⟨rfl, hdir, i, hentry, rfl⟩⟩
    · exact ⟨-1, v, by simp [hcall, hpar, hdir], fun h0 => absurd h0 (by decide)⟩

/-- **When `vfs_unlink` removes exactly what its path names.** -/
theorem unlinkExact_iff (hv : v.rootNode = some rootNode) (hw : WellFormed v.fs.data) (hr : v.fs.disk.Reliable)
    (mem : Nat → Bool) (hp : path.head? = some slash) : UnlinkExact mem v path ↔ UnlinkSafe mem v path :=
  ⟨unlinkSafe_of_exact hv hw hr hp, unlinkExact_of_safe hv hw hr hp⟩

end Unlink

/-! ## Two files with one name -/

/-- The directory `/d` at entry 1, the file `/d/a` at entry 2 and the file `/a` at entry 3. -/
def twoNames : Tinyfs where
  data := {
    sb := formatSuperblock
    fat := freshFat
    dirents := Vector.ofFn fun i =>
      if 3 = i.val then createDirent emptyDirent nameA .regular 0
      else if 2 = i.val then createDirent emptyDirent nameA .regular 1
      else if 1 = i.val then createDirent emptyDirent nameD .directory 0 else emptyDirent
    device := Vector.replicate 32 0 }
  disk := blankDisk

theorem twoNames_get (i : Fin 256) : twoNames.data.dirents.get i =
    if 3 = i.val then createDirent emptyDirent nameA .regular 0
    else if 2 = i.val then createDirent emptyDirent nameA .regular 1
    else if 1 = i.val then createDirent emptyDirent nameD .directory 0 else emptyDirent := by
  simp only [twoNames, get_eq, Vector.getElem_ofFn]

theorem twoNames_wellFormed : WellFormed twoNames.data := by
  refine ⟨_, inv_of_empty _ formatSuperblock_layout fun i => ?_⟩
  rw [twoNames_get]
  split
  · exact ⟨rfl, rfl⟩
  · split
    · exact ⟨rfl, rfl⟩
    · split <;> exact ⟨rfl, rfl⟩

/-- The first entry named `a` is the one in `/d`. -/
theorem twoNames_first : firstFin 0 (isNamed twoNames.data nameA) = some 2 := by
  refine firstFin_eq_some.mpr ⟨Nat.zero_le _, ?_, fun j _ hj => ?_⟩
  · rw [isNamed_iff, usedEntry, twoNames_get]
    exact ⟨by decide, cname_createDirent _ _ _ _⟩
  · rw [← Bool.not_eq_true, isNamed_iff, usedEntry, twoNames_get]
    have hj' : j.val < 2 := hj
    rw [if_neg (by omega), if_neg (by omega)]
    split
    · rw [cname_createDirent]
      exact fun h => absurd h.2 (by decide)
    · exact fun h => absurd rfl h.1

/-- `vfs_unlink("/a")` does not remove `/a`: it takes `/d/a`. -/
theorem twoNames_not_exact : WellFormed twoNames.data ∧ twoNames.disk.Reliable ∧
    ¬ UnlinkExact (fun _ => true) (vfsMounted twoNames) (slash :: nameA) := by
  refine ⟨twoNames_wellFormed, blankDisk_reliable, fun h => ?_⟩
  have hsafe := unlinkSafe_of_exact rfl twoNames_wellFormed blankDisk_reliable rfl h
  obtain ⟨-, -, hsafe⟩ := hsafe [] nameA rfl (by decide)
  obtain ⟨-, -, hpi⟩ := hsafe rootNode rfl rfl 2 twoNames_first
  simp only [vfsMounted] at hpi
  rw [twoNames_get] at hpi
  exact absurd hpi (by decide)

theorem unlinkExact_iff_twoNames : WellFormed twoNames.data ∧ twoNames.disk.Reliable ∧
    (UnlinkExact (fun _ => true) (vfsMounted twoNames) (slash :: nameD) ↔
      UnlinkSafe (fun _ => true) (vfsMounted twoNames) (slash :: nameD)) :=
  ⟨twoNames_wellFormed, blankDisk_reliable,
    unlinkExact_iff rfl twoNames_wellFormed blankDisk_reliable (fun _ => true) rfl⟩

end AmqOs.Vfs
