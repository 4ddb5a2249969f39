import AmqOs.Vfs.TinyfsRun
import AmqOs.Vfs.TinyfsFiles
import AmqOs.Vfs.VfsListing

/-!
# A store of named files

What TinyFS is for, without blocks, chains and sectors: 256 slots, each with a name, the number of the directory it is
in, and its bytes. `Store.Allows` says which answers and which next store a call may give. Left open is only what the
blocks decide: how many bytes a write on a nearly full disk stores, and what lies between the old end of a file and the
offset of a write beyond it.
-/

set_option autoImplicit false

namespace AmqOs.Vfs

open AmqOs.Lib

structure Slot where
  used : Bool
  name : CString
  directory : Bool
  parent : UInt32
  bytes : List UInt8

/-- What a caller holds: a place to look up names, and a slot. -/
structure Handle where
  directory : Bool
  inode : UInt32
  slot : Option (Fin 256)

structure Store where
  slots : Fin 256 → Slot
  /-- The number of free blocks. -/
  free : Nat
  handles : List Handle

/-- A call of the filesystem, a read, or an unmount with the next mount. -/
inductive StoreOp
  | call (op : TinyfsOp)
  | read (node : Nat) (size offset : UInt32)
  | remount (device : CString)

inductive StoreAnswer
  | number (r : Option Int)
  | data (r : Int) (bytes : List UInt8)

/-- `old` with the first `k` bytes of `buffer` at `offset`. -/
structure WrittenOver (old buffer : List UInt8) (offset k : Nat) (bytes : List UInt8) : Prop where
  count : k ≤ buffer.length
  length : bytes.length = max old.length (offset + k)
  inside : ∀ p, offset ≤ p → p < offset + k → bytes[p]? = buffer[p - offset]?
  outside : ∀ p < old.length, p < offset ∨ offset + k ≤ p → bytes[p]? = old[p]?

namespace Store

variable (a : Store)

/-- The slot has the name, in the directory. -/
def isEntry (inode : UInt32) (name : CString) (i : Fin 256) : Bool :=
  (a.slots i).used && (a.slots i).parent == inode && (a.slots i).name == name

/-- The slot has the name, in whatever directory. -/
def isNamed (name : CString) (i : Fin 256) : Bool := (a.slots i).used && (a.slots i).name == name

/-- The slots of a directory. -/
def listing (inode : UInt32) : List (Fin 256) :=
  (List.finRange 256).filter fun i => (a.slots i).used && (a.slots i).parent == inode

/-- The slot that the next file gets; slot 0 is never given. -/
def freeSlot : Option (Fin 256) := firstFin 1 fun i => !(a.slots i).used

def handleOf (i : Fin 256) : Handle := ⟨(a.slots i).directory, UInt32.ofNat i, some i⟩

/-- The store when a caller has got a handle. -/
def hold (h : Option Handle) : Store := { a with handles := a.handles ++ h.toList }

def put (i : Fin 256) (e : Slot) : Store := { a with slots := Function.update a.slots i e }

def withFree (n : Nat) : Store := { a with free := n }

/-- Creating a file or a directory. -/
def Creates (h : Handle) (name : CString) (type : FileType) (r : Option Int) (b : Store) : Prop :=
  (r = some (-1) ∧ b = a ∧ (h.directory = false ∨ (∃ i, a.isEntry h.inode name i = true) ∨ a.freeSlot = none)) ∨
  (r = some 0 ∧ h.directory = true ∧ (∀ i, a.isEntry h.inode name i = false) ∧
    ∃ i, a.freeSlot = some i ∧ b = a.put i ⟨true, name.take 31, type = .directory, h.inode, []⟩)

/-- Writing to a slot: refused without a block to be had, given up when the disk ends before the offset, or done for a
first part that is all of the buffer unless the disk is too small. -/
def Writes (i : Fin 256) (buffer : List UInt8) (offset : Nat) (r : Option Int) (b : Store) : Prop :=
  (r = some (-1) ∧ b = a ∧ a.free = 0 ∧ (a.slots i).bytes = []) ∨
  (r = some 0 ∧ b = a.withFree 0 ∧ 512 * a.free ≤ offset) ∨
  ∃ (k : Nat) (bytes : List UInt8) (free : Nat), r = some (k : Int) ∧
    WrittenOver (a.slots i).bytes buffer offset k bytes ∧ free ≤ a.free ∧
    (k < buffer.length → free = 0 ∧ 512 * a.free < offset + buffer.length) ∧
    b = (a.put i { a.slots i with bytes }).withFree free

/-- Removing the first slot with the name, in whatever directory it is. -/
def Removes (h : Handle) (name : CString) (r : Option Int) (b : Store) : Prop :=
  (r = some (-1) ∧ b = a ∧ (h.directory = false ∨ firstFin 0 (a.isNamed name) = none)) ∨
  (r = some 0 ∧ h.directory = true ∧ ∃ i free, firstFin 0 (a.isNamed name) = some i ∧
    a.free + ((a.slots i).bytes.length + 511) / 512 ≤ free ∧
    b = (a.put i { a.slots i with used := false, name := [], bytes := [] }).withFree free)

/-- Reading a slot: the bytes asked for. Only a read whose end is beyond 32 bits may get more. -/
def Reads (i : Fin 256) (size offset : Nat) (r : Int) (bytes : List UInt8) : Prop :=
  r = bytes.length ∧ ∃ rest, bytes = ((a.slots i).bytes.drop offset).take size ++ rest ∧
    (offset + size < 2 ^ 32 → rest = [])

/-- What a call may answer, and the store after it. -/
def Allows : StoreOp → StoreAnswer → Store → Prop
  | .call (.getRoot mem), r, b => r = .number none ∧ b = a.hold (if mem then some ⟨true, 0, none⟩ else none)
  | .call (.finddir mem k name), r, b => r = .number none ∧ b = a.hold (a.handles[k]?.bind fun h =>
      if h.directory && mem then (firstFin 0 (a.isEntry h.inode name)).map a.handleOf else none)
  | .call (.readdir mem k index), r, b => r = .number none ∧ b = a.hold (a.handles[k]?.bind fun h =>
      if h.directory && mem then (a.listing h.inode)[index.toNat]?.map a.handleOf else none)
  | .call (.create k name type), r, b =>
    match a.handles[k]? with
    | none => r = .number none ∧ b = a
    | some h => ∃ n, r = .number n ∧ a.Creates h name type n b
  | .call (.write k buffer offset), r, b =>
    match a.handles[k]? with
    | none => r = .number none ∧ b = a
    | some h =>
      match h.slot with
      | none => r = .number (some (-1)) ∧ b = a
      | some i => ∃ n, r = .number n ∧ a.Writes i (buffer.take (UInt32.ofNat buffer.length).toNat) offset.toNat n b
  | .call (.unlink k name), r, b =>
    match a.handles[k]? with
    | none => r = .number none ∧ b = a
    | some h => ∃ n, r = .number n ∧ a.Removes h name n b
  | .read k size offset, r, b => b = a ∧
    match a.handles[k]? with
    | none => r = .number none
    | some h =>
      match h.slot with
      | none => r = .data 0 []
      | some i => ∃ n bytes, r = .data n bytes ∧ a.Reads i size.toNat offset.toNat n bytes
  | .remount _, r, b => r = .number (some 0) ∧ b = { a with handles := [] }

/-- The store of a fresh filesystem. -/
def empty : Store := ⟨fun _ => ⟨false, [], false, 0, []⟩, 923, []⟩

end Store

/-! ## The filesystem as a store -/

/-- The bytes of a file. -/
def fileBytes (s : Tinyfs) (i : Fin 256) : List UInt8 :=
  (List.range (s.data.dirents.get i).size.toNat).map (byteAt s.disk (entryChain s.data i))

def slotOf (s : Tinyfs) (i : Fin 256) : Slot where
  used := (s.data.dirents.get i).used ≠ 0
  name := (s.data.dirents.get i).cname
  directory := (s.data.dirents.get i).isDirectory ≠ 0
  parent := (s.data.dirents.get i).parentInode
  bytes := fileBytes s i

def Node.handle (n : Node) : Handle := ⟨n.type = .directory, n.inode, n.dirent⟩

def Session.store (s : Session) : Store := ⟨slotOf s.fs, s.fs.data.sb.freeBlocks.toNat, s.nodes.map Node.handle⟩

/-- An unmount and the next mount, with `raw` for what `kmalloc` returns to it. The nodes do not outlive the mount they
came from. -/
def Session.remount (raw : TinyfsData) (s : Session) (device : CString) : StoreAnswer × Session :=
  let (r, _, disk) := tinyfsUnmount (some s.fs.data) s.fs.disk
  match tinyfsMount (some raw) device disk with
  | (some data, disk) => (.number (some r), ⟨⟨data, disk⟩, []⟩)
  | (none, disk) => (.number (some (-1)), ⟨{ s.fs with disk }, []⟩)

def storeStep (raw : TinyfsData) (s : Session) : StoreOp → Except Fault (StoreAnswer × Session)
  | .call op => do
    let (r, s) ← tinyfsStep s op
    .ok (.number r, s)
  | .read k size offset =>
    match s.nodes[k]? with
    | none => .ok (.number none, s)
    | some node => do
      let ((r, bytes), fs) ← tinyfsRead s.fs node size offset
      .ok (.data r bytes, { s with fs })
  | .remount device => .ok (s.remount raw device)

end AmqOs.Vfs
