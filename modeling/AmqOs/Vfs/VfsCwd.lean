import AmqOs.Vfs.VfsBounds

/-!
# The two copies of the current directory

`CwdAgrees c` says that `current_path` leads to the inode of `current_dir`. `cwdStep` performs a `vfs_chdir` or mounts
the filesystem at `/` again; the tree stays the same because the metadata on the disk are those in memory. Both calls
keep the agreement under `CwdSafe` (`cwdStep_agrees`), and `cwd_run` is the run lemma. What breaks it: a mount at `/`
while the current directory is another one (only `current_dir` is reset), and an absolute path that does not fit
`current_path`, which is resolved as a whole and kept cut.
-/

set_option autoImplicit false

namespace AmqOs.Vfs

open AmqOs.Lib

/-- `current_path` resolves, and leads to the inode of `current_dir`. -/
def CwdAgrees (c : CwdState) : Prop :=
  ∃ node m, c.currentDir = some node ∧ vfsResolvePath (fun _ => true) c.vfs c.currentPath.val = .ok (some m) ∧
    m.inode = node.inode

inductive CwdOp
  | chdir (mem : Nat → Bool) (path : CString)
  | mount (raw : Option TinyfsData) (mem : Bool) (fsType device : CString)

def cwdStep (c : CwdState) : CwdOp → Except Fault (Int × CwdState)
  | .chdir mem path => vfsChdir mem c path
  | .mount raw mem fsType device => .ok (vfsMount raw mem c fsType device [slash])

/-- The condition on a call under which the two copies keep agreeing. A path has to fit the arrays; if it is absolute
and leads to a directory, its first 255 characters have the same components. A mount either fails before it looks for
the root node, or finds memory for it while the current directory has the inode of the root. -/
def CwdSafe (c : CwdState) : CwdOp → Prop
  | .chdir mem path =>
    if path.head? = some slash then (components path).length ≤ 32 ∧
      ∀ node, vfsResolvePath mem c.vfs path = .ok (some node) → node.type = .directory →
        components (path.take 255) = components path
    else c.currentPath.withSlash.length < 256 ∧ (components (fullPath c.currentPath path)).length ≤ 32
  | .mount raw mem fsType _ =>
    CString.strcmp fsType tinyfsName ≠ 0 ∨ raw = none ∨
      mem = true ∧ ∀ node, c.currentDir = some node → node.inode = rootNode.inode

/-- What the calls keep: a mounted filesystem whose metadata are on the disk, and a current directory that both copies
name. -/
structure CwdInv (c : CwdState) : Prop where
  root : c.vfs.rootNode = some rootNode
  placed : Placed c.vfs.fs.data.sb
  reliable : c.vfs.fs.disk.Reliable
  onDisk : OnDisk c.vfs.fs.data c.vfs.fs.disk
  agrees : CwdAgrees c

section Steps

variable {c c' : CwdState} {mem : Nat → Bool} {path : CString}

/-- A slash at the end is no component. -/
theorem components_stripSlash (path : CString) : components (stripSlash path) = components path := by
  unfold stripSlash
  split
  · rename_i h
    have hsplit : path = path.dropLast ++ [slash] := by
      rw [← List.dropLast_append_getLast? _ h.2]
      simp
    conv_rhs => rw [hsplit, components_append (by simp : slash ∉ ([] : CString))]
    simp [component]
  · rfl

/-- What resolves with some failing allocations resolves without. -/
theorem vfsResolvePath_mem {v : VfsState} (hv : v.rootNode = some rootNode) {node : Node}
    (h : vfsResolvePath mem v path = .ok (some node)) : vfsResolvePath (fun _ => true) v path = .ok (some node) := by
  by_cases hp : path.head? = some slash
  · by_cases hc : (components path).length ≤ 32
    · rw [vfsResolvePath_eq hv mem hp hc] at h
      rw [vfsResolvePath_eq hv _ hp hc]
      exact congrArg _ (resolveLoop_mem (Except.ok.inj h))
    · rw [vfsResolvePath_fault hv mem hp hc] at h
      cases h
  · have h1 : path ≠ [slash] := by
      rintro rfl
      exact hp rfl
    simp [vfsResolvePath, hv, h1, hp] at h

/-- Paths with the same components lead to the same node. -/
theorem vfsResolvePath_components {v : VfsState} (hv : v.rootNode = some rootNode) {p q : CString}
    (hp : p.head? = some slash) (hq : q.head? = some slash) (h : components p = components q) :
    vfsResolvePath mem v p = vfsResolvePath mem v q := by
  by_cases hc : (components q).length ≤ 32
  · rw [vfsResolvePath_eq hv mem hp (by rw [h]; exact hc), vfsResolvePath_eq hv mem hq hc, h]
  · rw [vfsResolvePath_fault hv mem hp (by rw [h]; exact hc), vfsResolvePath_fault hv mem hq hc]

/-- The path that `vfs_chdir` resolves. -/
def chdirTarget (cwd : CwdPath) (path : CString) : CString :=
  if path.head? = some slash then path else fullPath cwd path

theorem chdirTarget_head (cwd : CwdPath) (path : CString) : (chdirTarget cwd path).head? = some slash := by
  unfold chdirTarget
  split
  · assumption
  · exact fullPath_head cwd path

/-- The end of `vfs_chdir`, with the node that was found and the string that is kept. -/
def CwdState.enter (c : CwdState) (currentPath : CwdPath) : Option Node → Int × CwdState
  | none => (-1, c)
  | some target => if target.type ≠ .directory then (-1, c) else (0, { c with currentDir := some target, currentPath })

theorem vfsChdir_eq (mem : Nat → Bool) (c : CwdState) (path : CString) :
    vfsChdir mem c path = if (fullPath c.currentPath path).length < 256 then
      vfsResolvePath mem c.vfs (chdirTarget c.currentPath path) >>= fun r =>
        .ok (c.enter (.ofFull (fullPath c.currentPath path) (fullPath_head c.currentPath path)) r)
      else .error .outOfBounds := by
  have htarget : (if path.head? = some slash then path else fullPath c.currentPath path) =
      chdirTarget c.currentPath path := rfl
  simp only [vfsChdir, htarget]
  split
  · cases hr : vfsResolvePath mem c.vfs (chdirTarget c.currentPath path) with
    | error f => rfl
    | ok r =>
      simp only [ok_bind]
      cases r with
      | none => rfl
      | some target => by_cases hd : target.type = .directory <;> simp [CwdState.enter, hd]
  · rfl

/-- A change of directory that fails changes nothing. -/
theorem vfsChdir_failed (h : vfsChdir mem c path = .ok (-1, c')) : c' = c := by
  rw [vfsChdir_eq] at h
  split at h
  · cases hr : vfsResolvePath mem c.vfs (chdirTarget c.currentPath path) with
    | error f => simp [hr] at h
    | ok r =>
      rw [hr, ok_bind] at h
      cases r with
      | none => exact (Prod.mk.inj (Except.ok.inj h)).2.symm
      | some target =>
        by_cases hd : target.type = .directory
        · simp [CwdState.enter, hd] at h
        · simp only [CwdState.enter, ne_eq, hd, not_false_eq_true, if_true] at h
          exact (Prod.mk.inj (Except.ok.inj h)).2.symm
  · cases h

/-- **Changing the directory** keeps the agreement. -/
theorem chdir_agrees (h : CwdInv c) (hs : CwdSafe c (.chdir mem path)) :
    ∃ r c', vfsChdir mem c path = .ok (r, c') ∧ c'.vfs = c.vfs ∧ CwdInv c' := by
  have hlen : (fullPath c.currentPath path).length < 256 := by
    rw [length_fullPath_lt]
    by_cases hp : path.head? = some slash
    · exact .inl hp
    · rw [CwdSafe, if_neg hp] at hs
      exact .inr hs.1
  have hcomp : (components (chdirTarget c.currentPath path)).length ≤ 32 := by
    unfold chdirTarget
    by_cases hp : path.head? = some slash
    · rw [CwdSafe, if_pos hp] at hs
      rw [if_pos hp]
      exact hs.1
    · rw [CwdSafe, if_neg hp] at hs
      rw [if_neg hp]
      exact hs.2
  obtain ⟨r, hr⟩ : ∃ r, vfsResolvePath mem c.vfs (chdirTarget c.currentPath path) = .ok r :=
    ⟨_, vfsResolvePath_eq h.root mem (chdirTarget_head _ _) hcomp⟩
  have hstep : vfsChdir mem c path = .ok (c.enter
      (.ofFull (fullPath c.currentPath path) (fullPath_head c.currentPath path)) r) := by
    rw [vfsChdir_eq, if_pos hlen, hr, ok_bind]
  cases r with
  | none => exact ⟨-1, c, hstep, rfl, h⟩
  | some target =>
    by_cases hd : target.type = .directory
    · simp only [CwdState.enter, hd, ne_eq, not_true_eq_false, if_false] at hstep
      -- the string that is kept has the components of the path that was resolved
      have hsame : components (stripSlash ((fullPath c.currentPath path).take 255)) =
          components (chdirTarget c.currentPath path) := by
        rw [components_stripSlash, List.take_of_length_le (by omega)]
        unfold chdirTarget fullPath
        by_cases hp : path.head? = some slash
        · rw [if_pos hp, if_pos hp]
          rw [CwdSafe, if_pos hp] at hs
          rw [chdirTarget, if_pos hp] at hr
          exact hs.2 target hr hd
        · rw [if_neg hp, if_neg hp]
      refine ⟨0, _, hstep, rfl, h.root, h.placed, h.reliable, h.onDisk, target, target, rfl, ?_, rfl⟩
      rw [vfsResolvePath_components h.root (CwdPath.absolute _) (chdirTarget_head c.currentPath path) hsame]
      exact vfsResolvePath_mem h.root hr
    · simp only [CwdState.enter, hd, ne_eq, not_false_eq_true, if_true] at hstep
      exact ⟨-1, c, hstep, rfl, h⟩

/-- **Mounting** again keeps the agreement. -/
theorem mount_agrees (h : CwdInv c) {raw : Option TinyfsData} {m : Bool} {fsType device : CString}
    (hs : CwdSafe c (.mount raw m fsType device)) :
    ∃ r c', vfsMount raw m c fsType device [slash] = (r, c') ∧ c'.vfs.fs.data.dirents = c.vfs.fs.data.dirents ∧
      CwdInv c' := by
  by_cases hfs : CString.strcmp fsType tinyfsName = 0
  · cases raw with
    | none =>
      exact ⟨-1, c, by simp [vfsMount, hfs, tinyfsMount], rfl, h⟩
    | some raw =>
      obtain ⟨rfl, hinode⟩ : m = true ∧ ∀ node, c.currentDir = some node → node.inode = rootNode.inode := by
        simpa [CwdSafe, hfs] using hs
      obtain ⟨d, hm, hsb, hfat, hdir⟩ := mount_of_onDisk h.placed h.reliable h.onDisk raw device
      obtain ⟨node, m, hnode, hres, hm'⟩ := h.agrees
      refine ⟨0, { c with
        vfs := { c.vfs with fs := ⟨d, c.vfs.fs.disk⟩, rootNode := some rootNode }, currentDir := some rootNode },
        by simp [vfsMount, hfs, hm, tinyfsGetRoot], hdir, rfl, by rw [hsb]; exact h.placed, h.reliable, ?_,
        rootNode, m, rfl, ?_, ?_⟩
      · exact ⟨by rw [hsb]; exact h.onDisk.sb, by rw [hfat]; exact h.onDisk.fat, by rw [hdir]; exact h.onDisk.dir⟩
      · rw [← hres]
        exact vfsResolvePath_dirents h.root.symm hdir _ _
      · rw [hm', hinode node hnode]
  · exact ⟨-1, c, by simp [vfsMount, hfs], rfl, h⟩

end Steps

/-! ## Runs -/

theorem cwdMounted_inv {fs : Tinyfs} (hp : Placed fs.data.sb) (hr : fs.disk.Reliable) (ho : OnDisk fs.data fs.disk) :
    CwdInv (cwdMounted fs) :=
  ⟨rfl, hp, hr, ho, rootNode, rootNode, rfl, by simp [vfsResolvePath, cwdMounted, vfsMounted, tinyfsGetRoot, CwdPath.root], rfl⟩

theorem cwdStep_agrees {c : CwdState} (h : CwdInv c) {op : CwdOp} (hs : CwdSafe c op) :
    ∃ r c', cwdStep c op = .ok (r, c') ∧ c'.vfs.fs.data.dirents = c.vfs.fs.data.dirents ∧ CwdInv c' := by
  cases op with
  | chdir mem path =>
    obtain ⟨r, c', he, hv, h'⟩ := chdir_agrees h hs
    exact ⟨r, c', he, by rw [hv], h'⟩
  | mount raw m fsType device =>
    obtain ⟨r, c', he, hd, h'⟩ := mount_agrees h hs
    exact ⟨r, c', by simp [cwdStep, he], hd, h'⟩

/-- **Runs.** In every run of changes of directory and mounts at `/` whose calls all meet the condition, the tree stays
as it is and the two copies of the current directory agree in every state; and a change of directory that fails
changes nothing, in whatever state it is made. -/
theorem cwd_run {fs : Tinyfs} (hp : Placed fs.data.sb) (hr : fs.disk.Reliable) (ho : OnDisk fs.data fs.disk)
    {ops : List CwdOp} (hops : Along cwdStep CwdSafe (cwdMounted fs) ops) :
    (∃ rs c, runFrom cwdStep (cwdMounted fs) ops = .ok (rs, c) ∧ CwdAgrees c ∧
      c.vfs.fs.data.dirents = fs.data.dirents) ∧
    ∀ mem c path c', vfsChdir mem c path = .ok (-1, c') → c' = c := by
  obtain ⟨rs, c, hrun, hinv, hdir⟩ := runFrom_inv
    (fun c => CwdInv c ∧ c.vfs.fs.data.dirents = fs.data.dirents)
    (fun c op h hs => by
      obtain ⟨r, c', he, hd, h'⟩ := cwdStep_agrees h.1 hs
      exact ⟨r, c', he, h', hd.trans h.2⟩) ⟨cwdMounted_inv hp hr ho, rfl⟩ hops
  exact ⟨⟨rs, c, hrun, hinv.agrees, hdir⟩, fun _ _ _ _ => vfsChdir_failed⟩

/-! ## A mount away from the root -/

/-- Tables with one directory `a`, at entry 1. -/
def oneDirData : TinyfsData where
  sb := formatSuperblock
  fat := freshFat
  dirents := Vector.ofFn fun i => if 1 = i.val then createDirent emptyDirent nameA .directory 0 else emptyDirent
  device := Vector.replicate 32 0

/-- A filesystem with one directory, also on its disk. -/
def oneDir : Tinyfs := ⟨oneDirData, unmounted oneDirData blankDisk⟩

theorem oneDir_get (i : Fin 256) : oneDirData.dirents.get i =
    if 1 = i.val then createDirent emptyDirent nameA .directory 0 else emptyDirent := by
  simp only [oneDirData, get_eq, Vector.getElem_ofFn]

theorem oneDir_get_one : oneDirData.dirents.get 1 = createDirent emptyDirent nameA .directory 0 := by
  rw [oneDir_get]
  rfl

theorem oneDir_placed : Placed oneDir.data.sb := ⟨rfl, rfl, rfl⟩

theorem oneDir_flushed : Flushed oneDir.data blankDisk oneDir.disk := by
  simp only [oneDir]
  exact unmounted_flushed oneDir_placed blankDisk_reliable

theorem oneDir_find : vfsFinddir true oneDir.data rootNode nameA = some (nodeOf oneDir.data 1) := by
  have hname : (oneDirData.dirents.get 1).cname = nameA := by
    rw [oneDir_get_one, cname_createDirent]
    rfl
  refine vfsFinddir_eq_some.mpr ⟨rfl, rfl, 1, firstFin_of_unique (Nat.zero_le _) (isEntry_iff.mpr ⟨?_, ?_, hname⟩)
    fun j hj => ?_, rfl⟩
  · rw [usedEntry, show oneDir.data.dirents.get 1 = _ from oneDir_get_one]
    decide
  · rw [show oneDir.data.dirents.get 1 = _ from oneDir_get_one]
    rfl
  · by_contra hne
    have hne' : ¬ 1 = j.val := fun e => hne (Fin.ext e.symm)
    simp [isEntry, show oneDir.data.dirents.get j = _ from oneDir_get j, hne', emptyDirent] at hj

theorem oneDir_resolve {v : VfsState} (hv : v.rootNode = some rootNode)
    (hd : v.fs.data.dirents = oneDir.data.dirents) :
    vfsResolvePath (fun _ => true) v (slash :: nameA) = .ok (some (nodeOf oneDir.data 1)) := by
  have hcomp : components (slash :: nameA) = [nameA] := by decide
  rw [vfsResolvePath_eq hv _ rfl (by rw [hcomp]; decide), hcomp, resolveLoop_dirents hd]
  simp only [List.map_cons, List.map_nil, show nameA.take 255 = nameA from rfl, resolveLoop, oneDir_find]
  rfl

/-- Change to `/a`, then mount the filesystem again. -/
def remountOps : List CwdOp :=
  [.chdir (fun _ => true) (slash :: nameA), .mount (some blankData) true tinyfsName []]

/-- The state in `/a`, with its node. -/
def inOneDir (node : Node) : CwdState where
  vfs := vfsMounted oneDir
  currentDir := some node
  currentPath := .ofFull (slash :: nameA) rfl

theorem oneDir_chdir : vfsChdir (fun _ => true) (cwdMounted oneDir) (slash :: nameA) =
    .ok (0, inOneDir (nodeOf oneDir.data 1)) := by
  have hdir : (nodeOf oneDir.data 1).type = .directory := by
    rw [nodeOf, show oneDir.data.dirents.get 1 = _ from oneDir_get_one]
    rfl
  have hres : vfsResolvePath (fun _ => true) (cwdMounted oneDir).vfs
      (chdirTarget (cwdMounted oneDir).currentPath (slash :: nameA)) = .ok (some (nodeOf oneDir.data 1)) :=
    oneDir_resolve rfl rfl
  rw [vfsChdir_eq, if_pos (by decide), hres, ok_bind]
  simp only [CwdState.enter, hdir, ne_eq, not_true_eq_false, if_false]
  rfl

/-- Both calls return 0; after them `current_dir` is the root and `current_path` is `/a`. -/
theorem remount_disagrees : Placed oneDir.data.sb ∧ oneDir.disk.Reliable ∧ OnDisk oneDir.data oneDir.disk ∧
    ∃ c, runFrom cwdStep (cwdMounted oneDir) remountOps = .ok ([0, 0], c) ∧ ¬ CwdAgrees c := by
  have hfl := oneDir_flushed
  obtain ⟨d, hm, -, -, hdir⟩ := mount_of_onDisk oneDir_placed hfl.reliable hfl.onDisk blankData []
  have hmount : cwdStep (inOneDir (nodeOf oneDir.data 1)) (.mount (some blankData) true tinyfsName []) =
      .ok (0, { inOneDir (nodeOf oneDir.data 1) with
        vfs := { vfsMounted oneDir with fs := ⟨d, oneDir.disk⟩, rootNode := some rootNode }
        currentDir := some rootNode }) := by
    have hm' : tinyfsMount (some blankData) [] (inOneDir (nodeOf oneDir.data 1)).vfs.fs.disk = (some d, oneDir.disk) := hm
    simp only [cwdStep, vfsMount, CString.strcmp_eq_zero.mpr rfl, ne_eq, not_true_eq_false, if_false, hm', if_true,
      tinyfsGetRoot]
    rfl
  refine ⟨oneDir_placed, hfl.reliable, hfl.onDisk, _,
    runFrom_cons oneDir_chdir (runFrom_cons hmount runFrom_nil), ?_⟩
  rintro ⟨node, m, hnode, hres, hinode⟩
  obtain rfl : rootNode = node := Option.some.inj hnode
  have hpath : vfsResolvePath (fun _ => true)
      { vfsMounted oneDir with fs := ⟨d, oneDir.disk⟩, rootNode := some rootNode } (slash :: nameA) =
      .ok (some m) := hres
  rw [oneDir_resolve rfl hdir] at hpath
  obtain rfl := Option.some.inj (Except.ok.inj hpath)
  exact absurd hinode (by decide)

theorem cwdSafe_chdir {mem : Nat → Bool} {c : CwdState} {path : CString} (hp : path.head? = some slash)
    (hlen : path.length ≤ 255) (hc : (components path).length ≤ 32) : CwdSafe c (.chdir mem path) := by
  rw [CwdSafe, if_pos hp]
  exact ⟨hc, fun _ _ _ => by rw [List.take_of_length_le hlen]⟩

theorem inOneDir_chdir_root (node : Node) : cwdStep (inOneDir node) (.chdir (fun _ => true) [slash]) =
    .ok (0, { inOneDir node with currentDir := some rootNode, currentPath := .ofFull [slash] rfl }) := by
  have hres : vfsResolvePath (fun _ => true) (inOneDir node).vfs [slash] = .ok (some rootNode) :=
    vfsResolvePath_eq rfl _ rfl (show (components [slash]).length ≤ 32 by decide)
  have hfull : fullPath (inOneDir node).currentPath [slash] = [slash] := rfl
  have htarget : chdirTarget (inOneDir node).currentPath [slash] = [slash] := rfl
  show vfsChdir (fun _ => true) (inOneDir node) [slash] = _
  rw [vfsChdir_eq, if_pos (by rw [hfull]; decide), htarget, hres]
  rfl

/-- Change to `/a` and back, mount the filesystem again, change to `/a`. -/
def backOps : List CwdOp :=
  [.chdir (fun _ => true) (slash :: nameA), .chdir (fun _ => true) [slash], .mount (some blankData) true tinyfsName [],
    .chdir (fun _ => true) (slash :: nameA)]

/-- A run that is back in the root directory when it mounts. -/
theorem cwd_run_oneDir :
    (∃ rs c, runFrom cwdStep (cwdMounted oneDir) backOps = .ok (rs, c) ∧
      CwdAgrees c ∧ c.vfs.fs.data.dirents = oneDir.data.dirents) ∧
    ∀ mem c path c', vfsChdir mem c path = .ok (-1, c') → c' = c := by
  have hfl := oneDir_flushed
  have hchdir : cwdStep (cwdMounted oneDir) (.chdir (fun _ => true) (slash :: nameA)) =
      .ok (0, inOneDir (nodeOf oneDir.data 1)) := oneDir_chdir
  have hsafe : ∀ c, CwdSafe c (.chdir (fun _ => true) (slash :: nameA)) := fun c =>
    cwdSafe_chdir rfl (by decide) (by decide)
  have hsafe' : ∀ c, CwdSafe c (.chdir (fun _ => true) [slash]) := fun c => cwdSafe_chdir rfl (by decide) (by decide)
  refine cwd_run oneDir_placed hfl.reliable hfl.onDisk ((along_cons_ok hchdir).mp ⟨hsafe _,
    (along_cons_ok (inOneDir_chdir_root _)).mp ⟨hsafe' _, .inr (.inr ⟨rfl, fun node hn => ?_⟩),
      fun _ c _ => ⟨hsafe c, fun _ _ _ => trivial⟩⟩⟩)
  obtain rfl : rootNode = node := Option.some.inj hn
  rfl

end AmqOs.Vfs
