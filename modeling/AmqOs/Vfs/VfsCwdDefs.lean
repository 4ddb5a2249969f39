import AmqOs.Vfs.VfsDefs

/-!
# The current directory

`VFS.c` keeps the current directory twice, as the node `current_dir` and as the string `current_path` of at most 255
characters. `vfs_chdir` sets both; `vfs_mount` at `/` sets the node. The buffer of `vfs_chdir` is `full_path[256]`.
-/

set_option autoImplicit false

namespace AmqOs.Vfs

open AmqOs.Lib

/-- A string that `current_path` can hold: it starts as `/`, and only absolute paths are copied to it. -/
structure CwdPath where
  val : CString
  length_le : val.length ≤ 255
  absolute : val.head? = some slash

/-- The state of the layer with `current_dir` and `current_path`. -/
structure CwdState where
  vfs : VfsState
  currentDir : Option Node
  currentPath : CwdPath

/-- The initial value of `current_path`. -/
def CwdPath.root : CwdPath := ⟨[slash], by decide, rfl⟩

/-- The state after the filesystem has been mounted for the first time. -/
def cwdMounted (fs : Tinyfs) : CwdState := ⟨vfsMounted fs, some rootNode, .root⟩

/-! ## Changing the directory -/

/-- The path of the current directory in `full_path`, with a slash at its end. -/
def CwdPath.withSlash (cwd : CwdPath) : CString :=
  if cwd.val.getLast? = some slash then cwd.val else cwd.val ++ [slash]

/-- The characters that `vfs_chdir` puts into `full_path`, before the terminator. -/
def fullPath (cwd : CwdPath) (path : CString) : CString :=
  if path.head? = some slash then path.take 255
  else cwd.withSlash ++ path.take (255 - cwd.withSlash.length)

theorem CwdPath.withSlash_head (cwd : CwdPath) : cwd.withSlash.head? = some slash := by
  unfold withSlash
  split
  · exact cwd.absolute
  · rw [List.head?_append, cwd.absolute]
    rfl

theorem fullPath_head (cwd : CwdPath) (path : CString) : (fullPath cwd path).head? = some slash := by
  unfold fullPath
  split
  · rename_i h
    rw [List.head?_take, if_neg (by omega), h]
  · rw [List.head?_append, cwd.withSlash_head]
    rfl

/-- The string without one slash at its end, unless it is nothing else. -/
def stripSlash (path : CString) : CString :=
  if path.length > 1 ∧ path.getLast? = some slash then path.dropLast else path

theorem stripSlash_length_le (path : CString) : (stripSlash path).length ≤ path.length := by
  unfold stripSlash
  split
  · rw [List.length_dropLast]
    omega
  · exact le_refl _

theorem stripSlash_head {path : CString} (h : path.head? = some slash) : (stripSlash path).head? = some slash := by
  unfold stripSlash
  split
  · rename_i hs
    rw [List.dropLast_eq_take, List.head?_take, if_neg (by omega), h]
  · exact h

/-- `current_path` after a successful `vfs_chdir`: the copy of `full_path`, without a slash at its end. -/
def CwdPath.ofFull (full : CString) (h : full.head? = some slash) : CwdPath where
  val := stripSlash (full.take 255)
  length_le := le_trans (stripSlash_length_le _) (by rw [List.length_take]; omega)
  absolute := stripSlash_head (by rw [List.head?_take, if_neg (by omega), h])

/-- `vfs_chdir`. The terminator of `full_path` is the write that can be out of bounds; an absolute path is resolved as
it was given. -/
def vfsChdir (mem : Nat → Bool) (c : CwdState) (path : CString) : Except Fault (Int × CwdState) := do
  let full := fullPath c.currentPath path
  if full.length < 256 then
    let target ← vfsResolvePath mem c.vfs (if path.head? = some slash then path else full)
    match target with
    | none => .ok (-1, c)
    | some target =>
      if target.type ≠ .directory then .ok (-1, c)
      else .ok (0, { c with
        currentDir := some target
        currentPath := .ofFull full (fullPath_head c.currentPath path) })
  else .error .outOfBounds

/-! ## Mounting -/

/-- The name under which TinyFS is registered: `tinyfs`. -/
def tinyfsName : CString :=
  [⟨116, by decide⟩, ⟨105, by decide⟩, ⟨110, by decide⟩, ⟨121, by decide⟩, ⟨102, by decide⟩, ⟨115, by decide⟩]

/-- `vfs_mount` when TinyFS is the registered filesystem. `raw` is what `kmalloc` returns for the private data, `mem`
whether it returns a root node. -/
def vfsMount (raw : Option TinyfsData) (mem : Bool) (c : CwdState) (fsType device mountpoint : CString) :
    Int × CwdState :=
  if CString.strcmp fsType tinyfsName ≠ 0 then (-1, c)
  else
    match tinyfsMount raw device c.vfs.fs.disk with
    | (none, disk) => (-1, { c with vfs := { c.vfs with fs := { c.vfs.fs with disk } } })
    | (some data, disk) =>
      let c := { c with vfs := { c.vfs with fs := ⟨data, disk⟩ } }
      if mountpoint = [slash] then
        match tinyfsGetRoot mem with
        | none => (-1, { c with vfs := { c.vfs with rootNode := none } })
        | some root => (0, { c with vfs := { c.vfs with rootNode := some root }, currentDir := some root })
      else (0, c)

end AmqOs.Vfs
