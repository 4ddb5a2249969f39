import AmqOs.Vfs.VfsOverwrite
import AmqOs.Vfs.VfsUnlink

/-!
# A file removed and created again

`vfs_unlink` and `vfs_create` on the path of a regular file, one after the other: the path leads to an empty file then, and
the blocks of the old one are free (`recreate`). For that the name must be used only once, since `tinyfs_unlink` takes the
first entry with the name.
-/

set_option autoImplicit false

namespace AmqOs.Vfs

open AmqOs.Lib

section Resolving

variable {s s' : Tinyfs} {live : Fin 256 → Prop} {ch : Fin 256 → List Nat} {i : Fin 256}

theorem Removed.isEntry_iff' (h : Removed s live ch i s') {inode : UInt32} {name : CString} (j : Fin 256) :
    isEntry s'.data inode name j = true ↔ j ≠ i ∧ isEntry s.data inode name j = true := by
  by_cases hj : j = i
  · subst hj
    simp [isEntry_iff, h.used_iff]
  · rw [isEntry_iff, isEntry_iff, h.used_iff, h.freed.other j hj]
    simp [hj]

/-- Removing a file leaves the directories that are found. -/
theorem Removed.resolveLoop (h : Removed s live ch i s') (hreg : (nodeOf s.data i).type ≠ .directory) {mem : Nat → Bool}
    {n : Nat} {ts : List CString} {m : Node} (hres : resolveLoop mem s.data n ts rootNode = some m)
    (hm : m.type = .directory) : resolveLoop mem s'.data n ts rootNode = some m := by
  induction ts using List.reverseRecOn generalizing m with
  | nil => exact hres
  | append_singleton ts t ih =>
    obtain ⟨parent, h1, h2⟩ := resolveLoop_snoc.mp hres
    obtain ⟨hmem, hd, j, hj, rfl⟩ := vfsFinddir_eq_some.mp h2
    obtain ⟨-, hentry, hfirst⟩ := firstFin_eq_some.mp hj
    have hji : j ≠ i := fun e => hreg (e ▸ hm)
    have hnode : nodeOf s'.data j = nodeOf s.data j := by simp only [nodeOf, h.freed.other j hji]
    refine resolveLoop_snoc.mpr ⟨parent, ih h1 hd, vfsFinddir_eq_some.mpr ⟨hmem, hd, j, ?_, hnode.symm⟩⟩
    refine firstFin_eq_some.mpr ⟨Nat.zero_le _, (h.isEntry_iff' j).mpr ⟨hji, hentry⟩, fun k hk hkj => ?_⟩
    by_contra hne
    have hk' := ((h.isEntry_iff' k).mp (by simpa using hne)).2
    rw [hfirst k hk hkj] at hk'
    cases hk'

end Resolving

/-! ## A file and its path -/

section Paths

variable {v : VfsState} {i : Fin 256} {path : ShortPath}

theorem Names.used {path : CString} (hv : v.rootNode = some rootNode) (h : Names v path i) : usedEntry v.fs.data i := by
  obtain ⟨node, hres, hn⟩ := h
  rcases vfsResolvePath_some hv hres with rfl | ⟨k, rfl, hk⟩
  · cases hn
  · obtain rfl : k = i := Option.some.inj hn
    exact hk

/-- The path leads to the node of the entry. -/
theorem Names.node {path : CString} (hv : v.rootNode = some rootNode) (h : Names v path i) :
    vfsResolvePath (fun _ => true) v path = .ok (some (nodeOf v.fs.data i)) := by
  obtain ⟨node, hres, hn⟩ := h
  rcases vfsResolvePath_some hv hres with rfl | ⟨k, rfl, -⟩
  · cases hn
  · obtain rfl : k = i := Option.some.inj hn
    exact hres

/-- A path that leads somewhere starts with a slash and has at most 32 components. -/
theorem Names.fits {path : CString} (hv : v.rootNode = some rootNode) (h : Names v path i) :
    path.head? = some slash ∧ (components path).length ≤ 32 := by
  obtain ⟨node, hres, -⟩ := h
  have hp : path.head? = some slash := by
    by_contra hp
    have h1 : path ≠ [slash] := fun h1 => hp (by rw [h1]; rfl)
    simp [vfsResolvePath, hv, h1, hp] at hres
  refine ⟨hp, ?_⟩
  by_contra hc
  rw [vfsResolvePath_fault hv _ hp hc] at hres
  cases hres

/-- Who reads gets a descriptor. -/
theorem ReadsBack.opened {path : CString} {bytes : List UInt8} (hv : v.rootNode = some rootNode) (hi : Names v path i)
    (h : ReadsBack v path bytes) : ∃ fd, allocateFd v = some fd := by
  rw [← Option.ne_none_iff_exists']
  intro hnone
  obtain ⟨fd, v₁, v₂, hopen, hread⟩ := h
  simp only [vfsOpen, hi.node hv, ok_bind, hnone, Except.ok.injEq, Prod.mk.injEq] at hopen
  obtain ⟨rfl, rfl⟩ := hopen
  have hclosed : v.usedFd (-1) = none := dif_neg (by omega)
  simp [vfsRead, hclosed] at hread

/-- A path with a last component: the others lead to the directory of the entry, and the last one is its name. -/
theorem Names.inDir (hv : v.rootNode = some rootNode) (h : Names v path.val i) (hlast : path.val.getLast? ≠ some slash) :
    ∃ p q parent, InDir (fun _ => true) v path.val p q parent ∧ q ≠ [] ∧ (v.fs.data.dirents.get i).cname = q ∧
      resolveLoop (fun _ => true) v.fs.data 0 (components p) rootNode = some parent := by
  obtain ⟨hhead, -⟩ := h.fits hv
  obtain ⟨p, q, hpath, hq, hp⟩ := exists_split hhead
  have hne : q ≠ [] := by
    rintro rfl
    rw [hpath, List.getLast?_concat] at hlast
    exact hlast rfl
  have hres := h.node hv
  rw [path.resolve hv _ hpath hq hp hne] at hres
  obtain ⟨parent, h1, h2⟩ := resolveLoop_snoc.mp (Except.ok.inj hres)
  obtain ⟨-, hd, j, hj, hji⟩ := vfsFinddir_eq_some.mp h2
  obtain rfl : i = j := Option.some.inj (congrArg Node.dirent hji)
  obtain ⟨hlen, hc, -⟩ := ShortPath.parts hpath hq
  refine ⟨p, q, parent, ⟨hpath, hq, hp, ?_, hd⟩, hne, (isEntry_iff.mp (firstFin_eq_some.mp hj).2.1).2.2, h1⟩
  rw [resolve_parent hv _ hp hlen (by omega), h1]

/-- With a slash at its end the path of a file has no directory part: neither call does anything. -/
theorem Names.refused (hv : v.rootNode = some rootNode) (h : Names v path.val i) (hlast : path.val.getLast? = some slash)
    (hreg : (v.fs.data.dirents.get i).isDirectory = 0) : vfsUnlink (fun _ => true) v path.val = .ok (-1, v) ∧
      vfsCreate (fun _ => true) v path.val = .ok (-1, v) := by
  obtain ⟨hhead, hc⟩ := h.fits hv
  obtain ⟨p, hpath⟩ := List.getLast?_eq_some_iff.mp hlast
  have hslash : slash ∉ ([] : CString) := List.not_mem_nil
  have hp : p ≠ [] → p.head? = some slash := fun hne => by
    rwa [hpath, List.head?_append_of_ne_nil p hne] at hhead
  obtain ⟨hlen, -, -⟩ := ShortPath.parts hpath hslash
  have hcomp : components path.val = components p := by
    rw [hpath, components_append hslash]
    exact List.append_nil _
  have hres := h.node hv
  rw [vfsResolvePath_eq hv _ hhead hc, map_take_components path.length_le, hcomp] at hres
  have hpar := resolve_parent hv (fun _ => true) hp hlen (hcomp ▸ hc)
  rw [Except.ok.inj hres] at hpar
  have hsplit : splitPath path.val = .ok (some (parentOf p, [])) := by
    rw [hpath, splitPath_eq hslash hp, if_pos hlen]
    rfl
  have hdir : (nodeOf v.fs.data i).type ≠ .directory := by simp [nodeOf, hreg]
  exact ⟨by simp only [vfsUnlink, hsplit, ok_bind, hpar, if_pos hdir],
    by simp only [vfsCreate, vfsCreateNode, hsplit, ok_bind, hpar, if_pos hdir]⟩

end Paths

/-! ## Removing and creating -/

/-- The path leads to the new entry `k`, which is empty; the blocks of entry `i` are free. -/
structure Recreated (v : VfsState) (path : ShortPath) (i k : Fin 256) (fs : Tinyfs) : Prop where
  inv : ∃ ch, Inv fs.data (usedEntry fs.data) ch ∧ ch k = []
  reliable : fs.disk.Reliable
  resolves : vfsResolvePath (fun _ => true) { v with fs } path.val = .ok (some (nodeOf fs.data k))
  size : (fs.data.dirents.get k).size = 0
  room : (entryChain v.fs.data i).length ≤ (freeSet fs.data.fat).card

/-- **A file removed and created again.** -/
theorem recreate {v : VfsState} (hm : MountInv v) {path : ShortPath} {i : Fin 256} (hi : Names v path.val i)
    (hlast : path.val.getLast? ≠ some slash) (hreg : (v.fs.data.dirents.get i).isDirectory = 0)
    (hname : (v.fs.data.dirents.get i).cname.length ≤ 31)
    (honly : ∀ k, usedEntry v.fs.data k → (v.fs.data.dirents.get k).cname = (v.fs.data.dirents.get i).cname → k = i)
    (hslot : ∃ k : Fin 256, 1 ≤ k.val ∧ (k = i ∨ ¬ usedEntry v.fs.data k)) :
    ∃ fs₁ fs₂ k, vfsUnlink (fun _ => true) v path.val = .ok (0, { v with fs := fs₁ }) ∧
      vfsCreate (fun _ => true) { v with fs := fs₁ } path.val = .ok (0, { v with fs := fs₂ }) ∧
      Recreated v path i k fs₂ := by
  have hu := hi.used hm.root
  obtain ⟨p, q, parent, hin, hne, hcname, hpar⟩ := hi.inDir hm.root hlast
  obtain ⟨ch, hinv⟩ := hm.wellFormed
  rw [hcname] at hname honly
  have hfirst : firstFin 0 (isNamed v.fs.data q) = some i := firstFin_of_unique (Nat.zero_le _)
    (isNamed_iff.mpr ⟨hu, hcname⟩) fun k hk => honly k (isNamed_iff.mp hk).1 (isNamed_iff.mp hk).2
  -- the old entry goes, and its directory is still there
  obtain ⟨fs₁, hunlink, hrm⟩ := hin.unlink_ok hinv (fun _ hk => hk) hm.reliable hfirst
  have hm₁ : MountInv { v with fs := fs₁ } := hm.removed hrm
  have hdir : (nodeOf v.fs.data i).type ≠ .directory := by simp [nodeOf, hreg]
  have hpar₁ := hrm.resolveLoop hdir hpar hin.isDir
  obtain ⟨hlen, hc, -⟩ := ShortPath.parts hin.eq hin.name
  have hin₁ : InDir (fun _ => true) { v with fs := fs₁ } path.val p q parent := by
    refine ⟨hin.eq, hin.name, hin.head, ?_, hin.isDir⟩
    rw [resolve_parent hm₁.root _ hin.head hlen (by omega)]
    exact congrArg Except.ok hpar₁
  -- a new entry is set up
  obtain ⟨k₀, hk₀, hfree₀⟩ := hslot
  obtain ⟨k, fs₂, hcreate, hcr⟩ := hin₁.create_ok hm₁.placed hm₁.reliable .regular (fun j hj hn => by
      obtain ⟨hji, huj⟩ := (hrm.used_iff j).mp hj
      have hn' : (fs₁.data.dirents.get j).cname = q := hn
      rw [hrm.freed.other j hji] at hn'
      exact hji (honly j huj hn')) hk₀ (fun hk => by
      obtain ⟨hki, huk⟩ := (hrm.used_iff k₀).mp hk
      exact hfree₀.elim hki fun hno => hno huk)
  refine ⟨fs₁, fs₂, k, hunlink, hcreate, ⟨_, hcr.inv hrm.inv fun j hj huj => ?_, Function.update_self ..⟩, hcr.reliable, ?_,
    ?_, ?_⟩
  · exact ((hrm.used_iff j).mp (((hcr.used_iff j).mp huj).resolve_left hj)).2
  · rw [path.resolve (show ({ v with fs := fs₂ } : VfsState).rootNode = _ from hm.root) _ hin.eq hin.name hin.head hne]
    refine congrArg Except.ok (resolveLoop_snoc.mpr ⟨parent, hcr.resolveLoop hname hpar₁, hcr.found hname⟩)
  · rw [hcr.self]
    rfl
  · have hfree : freeSet fs₂.data.fat = freeSet v.fs.data.fat ∪ (ch i).toFinset := by
      rw [hcr.fat]
      exact hrm.freed.free hinv hu
    rw [hinv.entryChain_eq hu, hfree, ← List.toFinset_card_of_nodup (hinv.nodup hu)]
    exact Finset.card_le_card Finset.subset_union_right

end AmqOs.Vfs
