import AmqOs.Vfs.TinyfsDefs

/-!
# The virtual filesystem

The path and descriptor layer of `VFS.c` over a mounted TinyFS: paths are cut into components and looked up from the
root, descriptors hold a node and a position. Every node of a path but the root is fresh memory, so a call takes the
outcomes `mem` of its `kmalloc` calls, one for each component. The operations `tinyfs_open` and `tinyfs_close` do
nothing.

The fixed buffers are `tokens[32][256]`, `parent_path[256]` and the name of 256 bytes; what would write past one of
them is the fault `outOfBounds`.
-/

set_option autoImplicit false

namespace AmqOs.Vfs

open AmqOs.Lib

/-- `file_descriptor_t`. -/
structure FileDescriptor where
  used : Bool
  node : Option Node
  position : UInt32

/-- The state of the layer: the mounted filesystem, `root_node` and `vfs_fd_table`. -/
structure VfsState where
  fs : Tinyfs
  rootNode : Option Node
  fdTable : Vector FileDescriptor 256

/-- The table that `vfs_init` leaves. -/
def closedTable : Vector FileDescriptor 256 := Vector.replicate 256 ⟨false, none, 0⟩

/-- `vfs_init` and the mounting of `fs` at `/`. -/
def vfsMounted (fs : Tinyfs) : VfsState := ⟨fs, tinyfsGetRoot true, closedTable⟩

/-! ## Paths -/

/-- The loop of `tokenize_path` and its end. `tokens` are the finished components, `current` the characters of the
component being read. -/
def tokenizeLoop : CString → List CString → CString → Except Fault (List CString)
  | [], tokens, current => .ok (if current.length > 0 then tokens ++ [current] else tokens)
  | c :: path, tokens, current =>
    if c = slash then
      if current.length > 0 then tokenizeLoop path (tokens ++ [current]) [] else tokenizeLoop path tokens []
    else if current.length < 255 then
      if tokens.length < 32 then tokenizeLoop path tokens (current ++ [c]) else .error .outOfBounds
    else tokenizeLoop path tokens current

/-- `tokenize_path`. -/
def tokenizePath (path : CString) : Except Fault (List CString) :=
  if path.head? = some slash then tokenizeLoop path.tail [] [] else tokenizeLoop path [] []

/-- `vfs_finddir`. -/
def vfsFinddir (mem : Bool) (d : TinyfsData) (node : Node) (name : CString) : Option Node :=
  if node.type ≠ .directory then none else tinyfsFinddir mem d node name

/-- `vfs_readdir`. -/
def vfsReaddir (mem : Bool) (d : TinyfsData) (node : Node) (index : UInt32) : Option Node :=
  if node.type ≠ .directory then none else tinyfsReaddir mem d node index

/-- The loop of `vfs_resolve_path`, from component `i` on. -/
def resolveLoop (mem : Nat → Bool) (d : TinyfsData) : Nat → List CString → Node → Option Node
  | _, [], current => some current
  | i, token :: tokens, current =>
    if current.type ≠ .directory then none
    else match vfsFinddir (mem i) d current token with
      | none => none
      | some node => resolveLoop mem d (i + 1) tokens node

/-- `vfs_resolve_path`. -/
def vfsResolvePath (mem : Nat → Bool) (v : VfsState) (path : CString) : Except Fault (Option Node) :=
  match v.rootNode with
  | none => .ok none
  | some root =>
    if path = [slash] then .ok (some root)
    else if path.head? ≠ some slash then .ok none
    else do
      let tokens ← tokenizePath path
      .ok (resolveLoop mem v.fs.data 0 tokens root)

/-- The index of the last `/`. -/
def lastSlash (path : CString) : Option Nat :=
  forUpTo (fun i last => if path[i]? = some slash then some i else last) path.length none

/-- The common start of `vfs_create`, `vfs_mkdir` and `vfs_unlink`: the path of the parent and the name. `none` is
the return of `-1`. -/
def splitPath (path : CString) : Except Fault (Option (CString × CString)) :=
  if path.head? ≠ some slash then .ok none
  else match lastSlash path with
    | none => .ok none
    | some last =>
      let name := (path.drop (last + 1)).take 255
      if last = 0 then .ok (some ([slash], name))
      else if last < 256 then .ok (some (path.take last, name))
      else .error .outOfBounds

/-! ## Directories -/

/-- The loop of `vfs_list_directory`, from index `i` on: the entries it prints. The outcomes of the `kmalloc` calls
are `mem`; each entry is freed after it is printed. -/
def listLoop (mem : Nat → Bool) (d : TinyfsData) (dir : Node) : Nat → UInt32 → List Node
  | 0, _ => []
  | fuel + 1, i =>
    match vfsReaddir (mem i.toNat) d dir i with
    | none => []
    | some entry => entry :: listLoop mem d dir fuel (i + 1)

/-- `vfs_list_directory`: the entries it prints. A directory has at most 256 of them. -/
def vfsListDirectory (mem memList : Nat → Bool) (v : VfsState) (path : CString) : Except Fault (List Node) := do
  match ← vfsResolvePath mem v path with
  | none => .ok []
  | some dir => if dir.type ≠ .directory then .ok [] else .ok (listLoop memList v.fs.data dir 257 0)

/-- The body shared by `vfs_create` and `vfs_mkdir`. -/
def vfsCreateNode (type : FileType) (mem : Nat → Bool) (v : VfsState) (path : CString) :
    Except Fault (Int × VfsState) := do
  match ← splitPath path with
  | none => .ok (-1, v)
  | some (parentPath, name) =>
    match ← vfsResolvePath mem v parentPath with
    | none => .ok (-1, v)
    | some parent =>
      if parent.type ≠ .directory then .ok (-1, v)
      else
        let (result, fs) := tinyfsCreateNode v.fs parent name type
        .ok (result, { v with fs })

/-- `vfs_create`. -/
def vfsCreate : (Nat → Bool) → VfsState → CString → Except Fault (Int × VfsState) := vfsCreateNode .regular

/-- `vfs_mkdir`. -/
def vfsMkdir : (Nat → Bool) → VfsState → CString → Except Fault (Int × VfsState) := vfsCreateNode .directory

/-- `vfs_unlink`. -/
def vfsUnlink (mem : Nat → Bool) (v : VfsState) (path : CString) : Except Fault (Int × VfsState) := do
  match ← splitPath path with
  | none => .ok (-1, v)
  | some (parentPath, name) =>
    match ← vfsResolvePath mem v parentPath with
    | none => .ok (-1, v)
    | some parent =>
      if parent.type ≠ .directory then .ok (-1, v)
      else do
        let (result, fs) ← tinyfsUnlink v.fs parent name
        .ok (result, { v with fs })

/-! ## Descriptors -/

/-- `allocate_fd`: the search starts at descriptor 3. -/
def allocateFd (v : VfsState) : Option (Fin 256) := firstFin 3 fun i => !(v.fdTable.get i).used

/-- `vfs_fd_table[fd] = f`. -/
def VfsState.setFd (v : VfsState) (fd : Fin 256) (f : FileDescriptor) : VfsState :=
  { v with fdTable := setAt v.fdTable fd f }

/-- `vfs_open`. -/
def vfsOpen (mem : Nat → Bool) (v : VfsState) (path : CString) : Except Fault (Int × VfsState) := do
  match ← vfsResolvePath mem v path with
  | none => .ok (-1, v)
  | some node =>
    match allocateFd v with
    | none => .ok (-1, v)
    | some fd => .ok (fd.val, v.setFd fd ⟨true, some node, 0⟩)

/-- The check of a descriptor at the start of the functions below. -/
def VfsState.usedFd (v : VfsState) (fd : Int) : Option (Fin 256) :=
  if h : 0 ≤ fd ∧ fd < 256 then
    let i : Fin 256 := ⟨fd.toNat, by omega⟩
    if (v.fdTable.get i).used then some i else none
  else none

/-- `vfs_close`. -/
def vfsClose (v : VfsState) (fd : Int) : Int × VfsState :=
  match v.usedFd fd with
  | none => (-1, v)
  | some i => (0, v.setFd i ⟨false, none, 0⟩)

/-- The position after a transfer that returned `n`. -/
def FileDescriptor.advance (f : FileDescriptor) (n : Int) : FileDescriptor :=
  if n > 0 then { f with position := f.position + UInt32.ofInt n } else f

/-- `vfs_read`: the returned value and the bytes stored in the caller's buffer. -/
def vfsRead (v : VfsState) (fd : Int) (size : UInt32) : Except Fault ((Int × List UInt8) × VfsState) :=
  match v.usedFd fd with
  | none => .ok ((-1, []), v)
  | some i =>
    let f := v.fdTable.get i
    match f.node with
    | none => .ok ((-1, []), v)
    | some node => do
      let (result, fs) ← tinyfsRead v.fs node size f.position
      .ok (result, { v with fs }.setFd i (f.advance result.1))

/-- `vfs_write`; the size is that of the buffer. -/
def vfsWrite (v : VfsState) (fd : Int) (buffer : List UInt8) : Except Fault (Int × VfsState) :=
  match v.usedFd fd with
  | none => .ok (-1, v)
  | some i =>
    let f := v.fdTable.get i
    match f.node with
    | none => .ok (-1, v)
    | some node => do
      let (result, node, fs) ← tinyfsWrite v.fs node buffer f.position
      .ok (result, { v with fs }.setFd i ({ f with node := some node }.advance result))

/-- `vfs_seek`. -/
def vfsSeek (v : VfsState) (fd offset whence : Int) : Except Fault (Int × VfsState) :=
  match v.usedFd fd with
  | none => .ok (-1, v)
  | some i => do
    let f := v.fdTable.get i
    let newPos : Option UInt32 ←
      if whence = 0 then .ok (some (UInt32.ofInt offset))
      else if whence = 1 then .ok (some (f.position + UInt32.ofInt offset))
      else if whence = 2 then
        match f.node with
        | none => .error .nullPointer
        | some node => .ok (some (node.size + UInt32.ofInt offset))
      else .ok none
    match newPos with
    | none => .ok (-1, v)
    | some newPos => .ok (cInt newPos, v.setFd i { f with position := newPos })

end AmqOs.Vfs
