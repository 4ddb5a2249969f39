import AmqOs.Vfs.VfsDirs

/-!
# Names

Names are compared before they are cut to the 31 characters an entry can hold. `UniqueNames` says that no two used
entries of a directory have the same name and that none is empty. A directory call keeps it when the name it creates
is neither empty nor longer than 31 characters (`NameFits`), and then the path leads to the new entry
(`dirStep_names`); `names_run` is the run lemma.
-/

set_option autoImplicit false

namespace AmqOs.Vfs

open AmqOs.Lib

structure UniqueNames (d : TinyfsData) : Prop where
  unique : ∀ i j, usedEntry d i → usedEntry d j → (d.dirents.get i).parentInode = (d.dirents.get j).parentInode →
    (d.dirents.get i).cname = (d.dirents.get j).cname → i = j
  nonempty : ∀ i, usedEntry d i → (d.dirents.get i).cname ≠ []

/-- A mounted, well-formed filesystem on a reliable disk. -/
structure MountInv (v : VfsState) : Prop where
  root : v.rootNode = some rootNode
  wellFormed : WellFormed v.fs.data
  reliable : v.fs.disk.Reliable

/-- The name of a new entry has 1 to 31 characters, or the directory table is full. -/
def NameFits (v : VfsState) : DirOp → Prop
  | .create mem path | .mkdir mem path => ∀ p q parent, InDir mem v path.val p q parent →
      findFreeDirent v.fs.data = none ∨ 1 ≤ q.length ∧ q.length ≤ 31
  | .unlink _ _ => True

/-- The path of a call that creates. -/
def DirOp.creates : DirOp → Option ShortPath
  | .create _ path | .mkdir _ path => some path
  | .unlink _ _ => none

/-- One entry is new, the others are as before, and the path leads to the new one. -/
def CreatedAt (v v' : VfsState) (path : ShortPath) : Prop :=
  ∃ i, ¬ usedEntry v.fs.data i ∧ usedEntry v'.fs.data i ∧
    (∀ j, j ≠ i → v'.fs.data.dirents.get j = v.fs.data.dirents.get j) ∧
    vfsResolvePath (fun _ => true) v' path.val = .ok (some (nodeOf v'.fs.data i))

section Created

variable {s s' : Tinyfs} {parent : Node} {q : CString} {type : FileType} {i : Fin 256}

theorem Created.not_used (h : Created s parent q type i s') : ¬ usedEntry s.data i := by
  have hfree := (findFreeDirent_some h.slot).2.1
  simp [usedEntry, hfree]

theorem Created.parentInode (h : Created s parent q type i s') :
    (s'.data.dirents.get i).parentInode = parent.inode := by
  rw [h.self]
  rfl

theorem Created.nodeOf_eq (h : Created s parent q type i s') {j : Fin 256} (hj : j ≠ i) :
    nodeOf s'.data j = nodeOf s.data j := by
  simp only [nodeOf, h.other hj]

/-- Which entries of a directory have a name, after a create. -/
theorem Created.isEntry_iff' (h : Created s parent q type i s') {inode : UInt32} {name : CString} (j : Fin 256) :
    isEntry s'.data inode name j = true ↔
      (j = i ∧ parent.inode = inode ∧ q.take 31 = name) ∨ (j ≠ i ∧ isEntry s.data inode name j = true) := by
  by_cases hj : j = i
  · subst hj
    rw [isEntry_iff, h.used_iff, h.parentInode, h.cname]
    simp
  · rw [isEntry_iff, isEntry_iff, h.used_iff, h.other hj]
    simp [hj]

/-- A create leaves what is found, when the name it stores is the name it has checked. -/
theorem Created.resolveLoop (h : Created s parent q type i s') (hq : q.length ≤ 31) {mem : Nat → Bool} {n : Nat}
    {ts : List CString} {m : Node} (hres : resolveLoop mem s.data n ts rootNode = some m) :
    resolveLoop mem s'.data n ts rootNode = some m := by
  induction ts using List.reverseRecOn generalizing m with
  | nil => exact hres
  | append_singleton ts t ih =>
    obtain ⟨parent', h1, h2⟩ := resolveLoop_snoc.mp hres
    obtain ⟨hm, hd, j, hj, rfl⟩ := vfsFinddir_eq_some.mp h2
    obtain ⟨-, hentry, hfirst⟩ := firstFin_eq_some.mp hj
    have hji : j ≠ i := by
      rintro rfl
      exact h.not_used (isEntry_iff.mp hentry).1
    refine resolveLoop_snoc.mpr ⟨parent', ih h1, vfsFinddir_eq_some.mpr ⟨hm, hd, j, ?_, (h.nodeOf_eq hji).symm⟩⟩
    refine firstFin_eq_some.mpr ⟨Nat.zero_le _, (h.isEntry_iff' j).mpr (.inr ⟨hji, hentry⟩), fun k hk hkj => ?_⟩
    by_contra hne
    rcases (h.isEntry_iff' k).mp (by simpa using hne) with ⟨-, hp, hn⟩ | ⟨-, hk'⟩
    · -- the new entry would have been there before
      rw [List.take_of_length_le hq] at hn
      have habs := h.absent j
      rw [hp, hn, hentry] at habs
      cases habs
    · rw [hfirst k hk hkj] at hk'
      cases hk'

/-- The new entry is found. -/
theorem Created.found (h : Created s parent q type i s') (hq : q.length ≤ 31) :
    vfsFinddir true s'.data parent q = some (nodeOf s'.data i) := by
  refine vfsFinddir_eq_some.mpr ⟨rfl, h.isDir, i, firstFin_of_unique (Nat.zero_le _)
    ((h.isEntry_iff' i).mpr (.inl ⟨rfl, rfl, List.take_of_length_le hq⟩)) fun k hk => ?_, rfl⟩
  rcases (h.isEntry_iff' k).mp hk with ⟨rfl, -, -⟩ | ⟨-, hk'⟩
  · rfl
  · rw [h.absent k] at hk'
    cases hk'

/-- A create keeps names unique when no entry of the directory has the name it stores. -/
theorem Created.uniqueNames (h : Created s parent q type i s') (hn : UniqueNames s.data) (hne : q ≠ [])
    (habs : ∀ j, isEntry s.data parent.inode (q.take 31) j = false) : UniqueNames s'.data := by
  -- no old entry agrees with the new one
  have hnew : ∀ j, j ≠ i → usedEntry s'.data j → (s'.data.dirents.get j).parentInode = parent.inode →
      (s'.data.dirents.get j).cname ≠ q.take 31 := by
    intro j hj hu hp hc
    rw [h.other hj] at hp hc
    have hu' := ((h.used_iff j).mp hu).resolve_left hj
    have hno := habs j
    rw [isEntry_iff.mpr ⟨hu', hp, hc⟩] at hno
    cases hno
  refine ⟨fun j k hj hk hp hc => ?_, fun j hj => ?_⟩
  · by_cases hji : j = i
    · by_cases hki : k = i
      · rw [hji, hki]
      · rw [hji, h.parentInode] at hp
        rw [hji, h.cname] at hc
        exact absurd hc.symm (hnew k hki hk hp.symm)
    · by_cases hki : k = i
      · rw [hki, h.parentInode] at hp
        rw [hki, h.cname] at hc
        exact absurd hc (hnew j hji hj hp)
      · rw [h.other hji, h.other hki] at hp hc
        exact hn.unique j k (((h.used_iff j).mp hj).resolve_left hji) (((h.used_iff k).mp hk).resolve_left hki) hp hc
  · by_cases hji : j = i
    · rw [hji, h.cname]
      cases q with
      | nil => exact absurd rfl hne
      | cons c q => simp
    · rw [h.other hji]
      exact hn.nonempty j (((h.used_iff j).mp hj).resolve_left hji)

end Created

theorem Removed.uniqueNames {s s' : Tinyfs} {live : Fin 256 → Prop} {ch : Fin 256 → List Nat} {i : Fin 256}
    (h : Removed s live ch i s') (hn : UniqueNames s.data) : UniqueNames s'.data := by
  have hold : ∀ j, usedEntry s'.data j → usedEntry s.data j ∧ s'.data.dirents.get j = s.data.dirents.get j :=
    fun j hj => by
      obtain ⟨hne, hu⟩ := (h.used_iff j).mp hj
      exact ⟨hu, h.freed.other j hne⟩
  refine ⟨fun j k hj hk hp hc => ?_, fun j hj => ?_⟩
  · rw [(hold j hj).2, (hold k hk).2] at hp hc
    exact hn.unique j k (hold j hj).1 (hold k hk).1 hp hc
  · rw [(hold j hj).2]
    exact hn.nonempty j (hold j hj).1

namespace MountInv

variable {v : VfsState} {fs : Tinyfs} {i : Fin 256}

theorem created (h : MountInv v) {parent : Node} {q : CString} {type : FileType}
    (hc : Created v.fs parent q type i fs) : MountInv { v with fs } := by
  obtain ⟨ch, hinv⟩ := h.wellFormed
  exact ⟨h.root, ⟨_, hc.inv hinv fun j hj hu => ((hc.used_iff j).mp hu).resolve_left hj⟩, hc.reliable⟩

theorem removed (h : MountInv v) {ch : Fin 256 → List Nat} (hrm : Removed v.fs (usedEntry v.fs.data) ch i fs) :
    MountInv { v with fs } :=
  ⟨h.root, ⟨_, hrm.inv.mono fun j hu => ((hrm.used_iff j).mp hu).2⟩, hrm.flushed.reliable⟩

theorem placed (h : MountInv v) : Placed v.fs.data.sb := by
  obtain ⟨ch, hinv⟩ := h.wellFormed
  exact hinv.layout.toPlaced

end MountInv

/-- A freshly formatted filesystem, mounted. -/
theorem Fresh.mountInv {fs : Tinyfs} (h : Fresh fs) : MountInv (vfsMounted fs) :=
  ⟨rfl, ⟨_, h.inv _⟩, h.reliable⟩

theorem Fresh.uniqueNames {fs : Tinyfs} (h : Fresh fs) : UniqueNames fs.data :=
  ⟨fun i _ hi => absurd hi (h.not_used i), fun i hi => absurd hi (h.not_used i)⟩

/-- One create by path. -/
theorem create_names {v : VfsState} (h : MountInv v) (hn : UniqueNames v.fs.data) (type : FileType)
    (mem : Nat → Bool) (path : ShortPath)
    (hfit : ∀ p q parent, InDir mem v path.val p q parent →
      findFreeDirent v.fs.data = none ∨ 1 ≤ q.length ∧ q.length ≤ 31) :
    ∃ r v', vfsCreateNode type mem v path.val = .ok (r, v') ∧ MountInv v' ∧ UniqueNames v'.fs.data ∧
      (r = 0 → CreatedAt v v' path) := by
  rcases dirStep_create h.root h.placed h.reliable type mem path with he | ⟨p, q, parent, i, fs, hin, hc, hpar, he⟩
  · exact ⟨-1, v, he, h, hn, fun h0 => absurd h0 (by decide)⟩
  · obtain ⟨hpos, hlen⟩ : 1 ≤ q.length ∧ q.length ≤ 31 := (hfit p q parent hin).resolve_left fun hfull => by
      rw [hc.slot] at hfull
      cases hfull
    have hne : q ≠ [] := List.length_pos_iff.mp hpos
    have hcut : q.take 31 = q := List.take_of_length_le hlen
    refine ⟨0, { v with fs }, he, h.created hc, hc.uniqueNames hn hne (by rw [hcut]; exact hc.absent), fun _ =>
      ⟨i, hc.not_used, (hc.used_iff i).mpr (.inl rfl), fun j hj => hc.other hj, ?_⟩⟩
    rw [ShortPath.resolve (v := { v with fs }) h.root _ hin.eq hin.name hin.head hne]
    exact congrArg _ (resolveLoop_snoc.mpr ⟨parent, hc.resolveLoop hlen (resolveLoop_mem hpar), hc.found hlen⟩)

/-- **A directory call** with a name that fits keeps names unique; a create that returns 0 makes the entry that its
path leads to. -/
theorem dirStep_names {v : VfsState} (h : MountInv v) (hn : UniqueNames v.fs.data) {op : DirOp}
    (hfit : NameFits v op) :
    ∃ r v', dirStep v op = .ok (r, v') ∧ MountInv v' ∧ UniqueNames v'.fs.data ∧
      ∀ path, op.creates = some path → r = 0 → CreatedAt v v' path := by
  cases op with
  | create mem path =>
    obtain ⟨r, v', he, h1, h2, h3⟩ := create_names h hn .regular mem path hfit
    refine ⟨r, v', he, h1, h2, fun path' hp hr => ?_⟩
    obtain rfl := Option.some.inj hp
    exact h3 hr
  | mkdir mem path =>
    obtain ⟨r, v', he, h1, h2, h3⟩ := create_names h hn .directory mem path hfit
    refine ⟨r, v', he, h1, h2, fun path' hp hr => ?_⟩
    obtain rfl := Option.some.inj hp
    exact h3 hr
  | unlink mem path =>
    obtain ⟨ch, hinv⟩ := h.wellFormed
    rcases dirStep_unlink h.root hinv (fun _ hi => hi) h.reliable mem path with
      he | ⟨p, q, parent, i, fs, -, -, hrm, he⟩
    · exact ⟨-1, v, he, h, hn, fun path' hp => by cases hp⟩
    · exact ⟨0, { v with fs }, he, h.removed hrm, hrm.uniqueNames hn, fun path' hp => by cases hp⟩

/-- **Names along a run** of directory calls whose names fit: before and after the last call they are unique, and when
that call creates and returns 0, its path leads to the entry it made. -/
theorem names_run {disk : Disk} (hr : disk.Reliable) (raw : TinyfsData) (device : CString) {fs : Tinyfs}
    (hfs : formatAndMount raw device disk = some fs) {ops : List DirOp} {op : DirOp}
    (hops : Along dirStep NameFits (vfsMounted fs) (ops ++ [op])) :
    ∃ rs v r v', runFrom dirStep (vfsMounted fs) ops = .ok (rs, v) ∧ dirStep v op = .ok (r, v') ∧
      UniqueNames v.fs.data ∧ UniqueNames v'.fs.data ∧
      ∀ path, op.creates = some path → r = 0 → CreatedAt v v' path := by
  obtain ⟨fs', hfs', hfresh, -⟩ := formatAndMount_fresh hr raw device
  obtain rfl : fs' = fs := Option.some.inj (hfs'.symm.trans hfs)
  obtain ⟨hstart, hlast⟩ := hops.snoc
  obtain ⟨rs, v, hrun, hm, hn⟩ := runFrom_inv (fun v => MountInv v ∧ UniqueNames v.fs.data)
    (fun v op h hfit => by
      obtain ⟨r, v', he, h1, h2, -⟩ := dirStep_names h.1 h.2 hfit
      exact ⟨r, v', he, h1, h2⟩) ⟨hfresh.mountInv, hfresh.uniqueNames⟩ hstart
  obtain ⟨r, v', he, -, hn', hc⟩ := dirStep_names hm hn (hlast rs v hrun)
  exact ⟨rs, v, r, v', hrun, he, hn, hn', hc⟩

/-! ## Two names that are cut to one -/

/-- Thirty-one times `a`, then another character. -/
def longName (c : CChar) : CString := List.replicate 31 charA ++ [c]

theorem longName_fits (c : CChar) (hc : c ≠ slash) : slash ∉ longName c ∧ (longName c).length ≤ 254 := by
  refine ⟨fun h => ?_, by simp [longName]⟩
  rcases List.mem_append.mp h with h | h
  · exact absurd (List.eq_of_mem_replicate h) (by decide)
  · exact hc (List.mem_singleton.mp h).symm

/-- Create two files whose names differ in their 32nd character. -/
def cutOps : List DirOp :=
  [.create (fun _ => true) (rootPath (longName charA) (longName_fits _ (by decide))),
    .create (fun _ => true) (rootPath (longName charB) (longName_fits _ (by decide)))]

/-- Both creates return 0, and the root directory has two entries with one name. -/
theorem cutOps_same_name : ∃ fs v i j, formatAndMount blankData [] blankDisk = some fs ∧
    runFrom dirStep (vfsMounted fs) cutOps = .ok ([0, 0], v) ∧ i ≠ j ∧ usedEntry v.fs.data i ∧
    usedEntry v.fs.data j ∧ (v.fs.data.dirents.get i).parentInode = (v.fs.data.dirents.get j).parentInode ∧
    (v.fs.data.dirents.get i).cname = (v.fs.data.dirents.get j).cname := by
  obtain ⟨fs, hfs, hfresh, -⟩ := formatAndMount_fresh blankDisk_reliable blankData []
  have hm := hfresh.mountInv
  obtain ⟨i, fs₁, he₁, hc₁⟩ := (rootPath_inDir hm.root (fun _ => true) _ (longName_fits charA (by decide))).create_ok
    hm.placed hm.reliable .regular (fun j hj => absurd hj (hfresh.not_used j)) (k := 1) (by decide)
    (hfresh.not_used 1)
  have hm₁ := hm.created hc₁
  have hused : ∀ j, usedEntry fs₁.data j → j = i := fun j hj =>
    ((hc₁.used_iff j).mp hj).resolve_right (hfresh.not_used j)
  obtain ⟨k, hk, hki⟩ : ∃ k : Fin 256, 1 ≤ k.val ∧ k ≠ i := by
    by_cases h1 : i = 1
    · exact ⟨2, by decide, by rw [h1]; decide⟩
    · exact ⟨1, by decide, Ne.symm h1⟩
  obtain ⟨j, fs₂, he₂, hc₂⟩ := (rootPath_inDir hm₁.root (fun _ => true) _
    (longName_fits charB (by decide))).create_ok hm₁.placed hm₁.reliable .regular
    (fun j hj => by
      rw [hused j hj, hc₁.cname]
      decide) hk fun hu => hki (hused k hu)
  have hij : i ≠ j := by
    rintro rfl
    exact hc₂.not_used ((hc₁.used_iff i).mpr (.inl rfl))
  refine ⟨fs, ⟨fs₂, some rootNode, closedTable⟩, i, j, hfs, ?_, hij,
    (hc₂.used_iff i).mpr (.inr ((hc₁.used_iff i).mpr (.inl rfl))), (hc₂.used_iff j).mpr (.inl rfl), ?_, ?_⟩
  · exact runFrom_cons he₁ (runFrom_cons he₂ runFrom_nil)
  · rw [hc₂.other hij, hc₁.parentInode, hc₂.parentInode]
  · rw [hc₂.other hij, hc₁.cname, hc₂.cname]
    rfl

/-- A name of one character fits. -/
theorem nameFits_rootPath (v : VfsState) {c : CChar} (hc : slash ∉ [c]) :
    NameFits v (.create (fun _ => true) (rootPath [c] ⟨hc, by simp⟩)) := by
  intro p q parent hin
  obtain ⟨-, rfl⟩ := split_unique (show [] ++ slash :: [c] = p ++ slash :: q from hin.eq) hc hin.name
  exact .inr (by simp)

theorem names_run_blank : ∃ fs rs v r v', formatAndMount blankData [] blankDisk = some fs ∧
    runFrom dirStep (vfsMounted fs) [.create (fun _ => true) (rootPath nameA (by decide))] = .ok (rs, v) ∧
    dirStep v (.create (fun _ => true) (rootPath nameB (by decide))) = .ok (r, v') ∧
    UniqueNames v.fs.data ∧ UniqueNames v'.fs.data ∧
    (r = 0 → CreatedAt v v' (rootPath nameB (by decide))) := by
  obtain ⟨fs, hfs, -, -⟩ := formatAndMount_fresh blankDisk_reliable blankData []
  obtain ⟨rs, v, r, v', h1, h2, h3, h4, h5⟩ := names_run blankDisk_reliable blankData [] hfs
    (show Along dirStep NameFits (vfsMounted fs) ([.create (fun _ => true) (rootPath nameA (by decide))] ++
      [.create (fun _ => true) (rootPath nameB (by decide))]) from
      ⟨nameFits_rootPath _ (by decide), fun _ v _ => ⟨nameFits_rootPath v (by decide), fun _ _ _ => trivial⟩⟩)
  exact ⟨fs, rs, v, r, v', hfs, h1, h2, h3, h4, h5 _ rfl⟩

end AmqOs.Vfs
