import AmqOs.Lib.Loop
import AmqOs.Lib.Run
import AmqOs.Lib.ByteMem
import AmqOs.Lib.CString
import AmqOs.Vfs.Ata

/-!
# TinyFS

The filesystem of `tinyfs.c`: a superblock, a file allocation table of 1024 entries and one flat table of 256
directory entries, all kept in memory and written back to the first 101 sectors of the disk; the data blocks are the
sectors from 101 on. Block numbers, sizes and offsets are 32-bit; a C `int` is an `Int`.

A `Tinyfs` is a mounted filesystem (`fs->private_data` is not null). A `vfs_node_t` points to a directory entry by
its index, and the root node to none. An access outside `fat[1024]` is the fault `outOfBounds`.
-/

set_option autoImplicit false

namespace AmqOs.Vfs

open AmqOs.Lib

/-- How a call leaves the behaviour that C defines. -/
inductive Fault
  | outOfBounds
  | nullPointer
  | diverges
  deriving DecidableEq, Repr

/-- A `uint32_t` converted to `int`. -/
def cInt (x : UInt32) : Int := x.toBitVec.toInt

/-! ## Data -/

/-- `tinyfs_superblock_t`. -/
structure Superblock where
  magic : UInt32
  totalBlocks : UInt32
  fatStart : UInt32
  dirStart : UInt32
  dataStart : UInt32
  freeBlocks : UInt32
  deriving DecidableEq

/-- `tinyfs_dirent_t`. -/
structure Dirent where
  name : Vector UInt8 32
  firstBlock : UInt32
  size : UInt32
  isDirectory : UInt8
  used : UInt8
  parentInode : UInt32
  padding : Vector UInt8 2
  deriving DecidableEq

/-- The name up to its terminator. A name of 32 bytes without one ends here, where the C string goes on into the fields
behind it; `tinyfs_create_node` never stores such a name. -/
def Dirent.cname (e : Dirent) : CString := CString.ofBytes e.name.toList

/-- `tinyfs_data_t`. -/
structure TinyfsData where
  sb : Superblock
  fat : Vector UInt32 1024
  dirents : Vector Dirent 256
  device : Vector UInt8 32

/-- A mounted filesystem and its disk. -/
structure Tinyfs where
  data : TinyfsData
  disk : Disk

/-- The `FILE_TYPE_*` constants. -/
inductive FileType
  | regular
  | directory
  | chardev
  | blockdev
  | pipe
  | symlink
  | mountpoint
  deriving DecidableEq

/-- `vfs_node_t`; `dirent` is its `private_data`. -/
structure Node where
  name : CString
  type : FileType
  size : UInt32
  inode : UInt32
  dirent : Option (Fin 256)
  deriving DecidableEq

def tinyfsMagic : UInt32 := 0x54494E59

/-- `EOF`, which is the colour `WHITE`. -/
def eof : UInt32 := 0xFFFFFF

namespace TinyfsData

/-- The read `data->fat[b]`. -/
def fatGet (d : TinyfsData) (b : UInt32) : Except Fault UInt32 :=
  match d.fat[b.toNat]? with
  | some v => .ok v
  | none => .error .outOfBounds

/-- The write `data->fat[b] = v`. -/
def fatSet (d : TinyfsData) (b v : UInt32) : Except Fault TinyfsData :=
  if h : b.toNat < 1024 then .ok { d with fat := d.fat.set b.toNat v } else .error .outOfBounds

/-- `data->sb.free_blocks = n`. -/
def setFree (d : TinyfsData) (n : UInt32) : TinyfsData := { d with sb := { d.sb with freeBlocks := n } }

/-- An update of the fields of `data->dirents[i]`. -/
def modifyDirent (d : TinyfsData) (i : Fin 256) (f : Dirent → Dirent) : TinyfsData :=
  { d with dirents := setAt d.dirents i (f (d.dirents.get i)) }

end TinyfsData

/-! ## Metadata on the disk -/

/-- A cleared block buffer. -/
def zeroBuffer : Mem := fun _ => 0

/-- The block buffer as a sector. -/
def toSector (m : Mem) : Sector := m.loadVec 0 512

/-- A sector read into the block buffer. -/
def ofSector (s : Sector) : Mem := zeroBuffer.storeVec 0 s

/-- A superblock in memory. -/
def storeSuperblock (m : Mem) (a : Nat) (sb : Superblock) : Mem :=
  (((((m.store32 a sb.magic).store32 (a + 4) sb.totalBlocks).store32 (a + 8) sb.fatStart).store32 (a + 12)
    sb.dirStart).store32 (a + 16) sb.dataStart).store32 (a + 20) sb.freeBlocks

def loadSuperblock (m : Mem) (a : Nat) : Superblock :=
  ⟨m.load32 a, m.load32 (a + 4), m.load32 (a + 8), m.load32 (a + 12), m.load32 (a + 16), m.load32 (a + 20)⟩

/-- A directory entry in memory: 52 bytes, of which those at 42, 43, 50 and 51 are alignment. -/
def storeDirent (m : Mem) (a : Nat) (e : Dirent) : Mem :=
  (((((((m.storeVec a e.name).store32 (a + 32) e.firstBlock).store32 (a + 36) e.size).store (a + 40) 1
    fun _ => e.isDirectory).store (a + 41) 1 fun _ => e.used).store32 (a + 44) e.parentInode).storeVec (a + 48)
    e.padding)

def loadDirent (m : Mem) (a : Nat) : Dirent :=
  ⟨m.loadVec a 32, m.load32 (a + 32), m.load32 (a + 36), m (a + 40), m (a + 41), m.load32 (a + 44),
    m.loadVec (a + 48) 2⟩

/-- The loop `for (i = 0; i < n; i++) if (ata_write_sectors(lba(i), 1, buffer(i)) != 0) return -1; return 0;`. -/
def writeSectors (lba : Nat → UInt32) (buffer : Nat → Sector) (n : Nat) (disk : Disk) : Int × Disk :=
  forUpTo (fun i s =>
    if s.1 ≠ 0 then s
    else
      let (result, disk) := ataWriteSectors s.2 (lba i) (buffer i)
      if result ≠ 0 then (-1, disk) else (0, disk)) n (0, disk)

/-- `write_superblock`. -/
def writeSuperblock (d : TinyfsData) (disk : Disk) : Int × Disk :=
  writeSectors (fun _ => 0) (fun _ => toSector (storeSuperblock zeroBuffer 0 d.sb)) 1 disk

/-- The buffer of `write_fat` for block `i` of the table. -/
def fatBuffer (fat : Vector UInt32 1024) (i : Nat) : Mem :=
  forUpTo (fun j buffer =>
    if h : i * 128 + j < 1024 then buffer.store32 (4 * j) (fat.get ⟨i * 128 + j, h⟩) else buffer) 128 zeroBuffer

/-- `write_fat`. -/
def writeFat (d : TinyfsData) (disk : Disk) : Int × Disk :=
  writeSectors (fun i => d.sb.fatStart + UInt32.ofNat i) (fun i => toSector (fatBuffer d.fat i)) 10 disk

/-- The buffer of `write_directory` for block `i` of the directory. -/
def dirBuffer (dirents : Vector Dirent 256) (i : Nat) : Mem :=
  forUpTo (fun j buffer =>
    if h : i * 9 + j < 256 then storeDirent buffer (52 * j) (dirents.get ⟨i * 9 + j, h⟩) else buffer) 9 zeroBuffer

/-- `write_directory`. -/
def writeDirectory (d : TinyfsData) (disk : Disk) : Int × Disk :=
  writeSectors (fun i => d.sb.dirStart + UInt32.ofNat i) (fun i => toSector (dirBuffer d.dirents i)) 90 disk

/-! ## Format and mount -/

/-- The superblock that `tinyfs_format` writes. -/
def formatSuperblock : Superblock := ⟨tinyfsMagic, 1024, 1, 11, 101, 1024 - 101⟩

/-- The buffer of `tinyfs_format` for block `i` of the table (counted from 1). -/
def formatFatBuffer (i : Nat) : Mem :=
  forUpTo (fun j buffer =>
    let blockNum := (i - 1) * 128 + j
    if blockNum < 1024 then
      if blockNum < 101 then buffer.store32 (4 * j) eof else buffer.store32 (4 * j) 0
    else buffer) 128 zeroBuffer

/-- `tinyfs_format`. -/
def tinyfsFormat (disk : Disk) : Int × Disk :=
  let (result, disk) := ataWriteSectors disk 0 (toSector (storeSuperblock zeroBuffer 0 formatSuperblock))
  if result ≠ 0 then (-1, disk)
  else
    let (result, disk) := writeSectors (fun k => UInt32.ofNat (k + 1)) (fun k => toSector (formatFatBuffer (k + 1)))
      10 disk
    if result ≠ 0 then (-1, disk)
    else writeSectors (fun k => UInt32.ofNat (k + 11)) (fun _ => toSector zeroBuffer) 90 disk

/-- The reading loops of `tinyfs_mount`: `n` sectors, each given to `load`; `none` is the return of `-1`. -/
def readSectors (lba : Nat → UInt32) (load : Nat → Mem → TinyfsData → TinyfsData) (n : Nat) (d : TinyfsData)
    (disk : Disk) : Option TinyfsData × Disk :=
  forUpTo (fun i s =>
    match s.1 with
    | none => s
    | some d =>
      match ataReadSectors s.2 (lba i) with
      | (none, disk) => (none, disk)
      | (some sector, disk) => (some (load i (ofSector sector) d), disk)) n (some d, disk)

/-- The entries of block `i` of the table are taken from the buffer. -/
def loadFatBlock (i : Nat) (buffer : Mem) (d : TinyfsData) : TinyfsData :=
  forUpTo (fun j d =>
    if h : i * 128 + j < 1024 then { d with fat := d.fat.set (i * 128 + j) (buffer.load32 (4 * j)) } else d) 128 d

/-- The entries of block `i` of the directory are taken from the buffer. -/
def loadDirBlock (i : Nat) (buffer : Mem) (d : TinyfsData) : TinyfsData :=
  forUpTo (fun j d =>
    if h : i * 9 + j < 256 then { d with dirents := d.dirents.set (i * 9 + j) (loadDirent buffer (52 * j)) } else d)
    9 d

/-- `tinyfs_mount`. `raw` is what `kmalloc` returned for the private data: null, or memory with some content. -/
def tinyfsMount (raw : Option TinyfsData) (device : CString) (disk : Disk) : Option TinyfsData × Disk :=
  match raw with
  | none => (none, disk)
  | some d =>
    let d := { d with device := CString.strcpy d.device device }
    match ataReadSectors disk 0 with
    | (none, disk) => (none, disk)
    | (some sector, disk) =>
      let sb := loadSuperblock (ofSector sector) 0
      if sb.magic ≠ tinyfsMagic then (none, disk)
      else
        let d := { d with sb := sb }
        match readSectors (fun i => sb.fatStart + UInt32.ofNat i) loadFatBlock 10 d disk with
        | (none, disk) => (none, disk)
        | (some d, disk) => readSectors (fun i => sb.dirStart + UInt32.ofNat i) loadDirBlock 90 d disk

/-- `tinyfs_unmount`; `data` is `fs->private_data`. The results of the three writes are not looked at. -/
def tinyfsUnmount (data : Option TinyfsData) (disk : Disk) : Int × Option TinyfsData × Disk :=
  match data with
  | none => (0, none, disk)
  | some d =>
    let disk := (writeSuperblock d disk).2
    let disk := (writeFat d disk).2
    let disk := (writeDirectory d disk).2
    (0, none, disk)

def slash : CChar := ⟨47, by decide⟩

/-- The node of `/`. -/
def rootNode : Node := ⟨[slash], .directory, 0, 0, none⟩

/-- `tinyfs_get_root`; `mem` is whether `kmalloc` returned a node. -/
def tinyfsGetRoot (mem : Bool) : Option Node := if mem then some rootNode else none

/-! ## Blocks -/

/-- `allocate_block`. The scan stops at the first free entry, or leaves the table. -/
def allocateBlock (d : TinyfsData) : Except Fault (Option UInt32 × TinyfsData) :=
  match firstFrom d.sb.dataStart.toNat d.sb.totalBlocks.toNat (fun i => (d.fat[i]?).all (· == 0)) with
  | none => .ok (none, d)
  | some i => do
    let d ← d.fatSet (UInt32.ofNat i) eof
    .ok (some (UInt32.ofNat i), d.setFree (d.sb.freeBlocks - 1))

/-- The loop of `free_block_chain`, for at most `fuel` tests of its condition. -/
def freeLoop : Nat → TinyfsData → UInt32 → Except Fault TinyfsData
  | 0, _, _ => .error .diverges
  | fuel + 1, d, current =>
    if current ≠ eof ∧ current ≠ 0 then do
      let next ← d.fatGet current
      let d ← d.fatSet current 0
      freeLoop fuel (d.setFree (d.sb.freeBlocks + 1)) next
    else .ok d

/-- `free_block_chain`. Every round but the last clears an entry that was not zero, so 1026 tests are enough. -/
def freeBlockChain (d : TinyfsData) (firstBlock : UInt32) : Except Fault TinyfsData := freeLoop 1026 d firstBlock

/-- The statements `tinyfs_write` uses to go on to the next block of a file: at the end of the chain a new block is
allocated and linked. `none` is a full disk. -/
def nextBlock (d : TinyfsData) (current : UInt32) : Except Fault (Option UInt32 × TinyfsData) := do
  if (← d.fatGet current) = eof then
    match ← allocateBlock d with
    | (none, d) => .ok (none, d)
    | (some newBlock, d) =>
      let d ← d.fatSet current newBlock
      let current ← d.fatGet current
      .ok (some current, d)
  else
    let current ← d.fatGet current
    .ok (some current, d)

/-! ## Reading -/

/-- The first loop of `tinyfs_read`: `n` links are followed, unless the chain ends before. -/
def readWalk (d : TinyfsData) : Nat → UInt32 → Except Fault UInt32
  | 0, current => .ok current
  | n + 1, current =>
    if current = eof then .ok current
    else do
      let current ← d.fatGet current
      readWalk d n current

/-- The copying loop of `tinyfs_read`. `acc` is what the caller's buffer holds so far; every round copies a byte at
least, so `size` rounds are enough. The result `none` is the return of `-1`. -/
def readLoop (d : TinyfsData) (size : Nat) :
    Nat → UInt32 → Nat → List UInt8 → Disk → Except Fault (Option Nat × List UInt8 × Disk)
  | 0, _, _, acc, disk => .ok (some acc.length, acc, disk)
  | fuel + 1, current, byteOffset, acc, disk =>
    if acc.length < size ∧ current ≠ eof then
      match ataReadSectors disk current with
      | (none, disk) => .ok (none, acc, disk)
      | (some sector, disk) => do
        let blockBuffer := ofSector sector
        let toCopy := min (512 - byteOffset) (size - acc.length)
        let acc := acc ++ (List.range toCopy).map fun i => blockBuffer (byteOffset + i)
        let current ← d.fatGet current
        readLoop d size fuel current 0 acc disk
    else .ok (some acc.length, acc, disk)

/-- `tinyfs_read`: the returned value and the bytes stored in the caller's buffer. -/
def tinyfsRead (s : Tinyfs) (node : Node) (size offset : UInt32) : Except Fault ((Int × List UInt8) × Tinyfs) :=
  match node.dirent with
  | none => .ok ((0, []), s)
  | some i =>
    let dirent := s.data.dirents.get i
    if dirent.size ≤ offset then .ok ((0, []), s)
    else do
      let size := if dirent.size < offset + size then dirent.size - offset else size
      let current ← readWalk s.data (offset.toNat / 512) dirent.firstBlock
      match ← readLoop s.data size.toNat size.toNat current (offset.toNat % 512) [] s.disk with
      | (none, bytes, disk) => .ok ((-1, bytes), { s with disk })
      | (some bytesRead, bytes, disk) => .ok ((cInt (UInt32.ofNat bytesRead), bytes), { s with disk })

/-! ## Writing -/

/-- The first loop of `tinyfs_write`: `n` blocks forward, lengthening the chain where it ends. -/
def extendLoop : Nat → TinyfsData → UInt32 → Except Fault (Option UInt32 × TinyfsData)
  | 0, d, current => .ok (some current, d)
  | n + 1, d, current => do
    match ← nextBlock d current with
    | (none, d) => .ok (none, d)
    | (some current, d) => extendLoop n d current

/-- The second loop of `tinyfs_write`. `blockBuffer` keeps its content from round to round; a read error leaves it
as it is. Every round writes a byte at least, so `size` rounds are enough. The result `none` is the return of `-1`. -/
def writeLoop (buffer : List UInt8) (size : Nat) :
    Nat → TinyfsData → Disk → UInt32 → Nat → Nat → Mem → Except Fault (Option Nat × TinyfsData × Disk)
  | 0, d, disk, _, _, bytesWritten, _ => .ok (some bytesWritten, d, disk)
  | fuel + 1, d, disk, current, byteOffset, bytesWritten, blockBuffer =>
    if bytesWritten < size then do
      let (blockBuffer, disk) :=
        if byteOffset > 0 ∨ size - bytesWritten < 512 then
          match ataReadSectors disk current with
          | (none, disk) => (blockBuffer, disk)
          | (some sector, disk) => (ofSector sector, disk)
        else (blockBuffer, disk)
      let toWrite := min (512 - byteOffset) (size - bytesWritten)
      let blockBuffer := blockBuffer.store byteOffset toWrite fun i => buffer.getD (bytesWritten + i) 0
      let (result, disk) := ataWriteSectors disk current (toSector blockBuffer)
      if result ≠ 0 then .ok (none, d, disk)
      else
        let bytesWritten := bytesWritten + toWrite
        if bytesWritten < size then
          match ← nextBlock d current with
          | (none, d) => .ok (some bytesWritten, d, disk)
          | (some current, d) => writeLoop buffer size fuel d disk current 0 bytesWritten blockBuffer
        else writeLoop buffer size fuel d disk current 0 bytesWritten blockBuffer
    else .ok (some bytesWritten, d, disk)

/-- The start of `tinyfs_write`: an entry without blocks gets one. `none` is the return of `-1`. -/
def ensureFirstBlock (d : TinyfsData) (i : Fin 256) : Except Fault (Option TinyfsData) :=
  if (d.dirents.get i).firstBlock = 0 then do
    match ← allocateBlock d with
    | (none, _) => .ok none
    | (some block, d) => .ok (some (d.modifyDirent i fun e => { e with firstBlock := block }))
  else .ok (some d)

/-- The end of `tinyfs_write`: the size, and all the metadata written back, whatever becomes of those writes. -/
def finishWrite (d : TinyfsData) (disk : Disk) (node : Node) (i : Fin 256) (offset bytesWritten : UInt32) :
    Node × Tinyfs :=
  let grows := (d.dirents.get i).size < offset + bytesWritten
  let d' := if grows then d.modifyDirent i fun e => { e with size := offset + bytesWritten } else d
  let node' := if grows then { node with size := (d'.dirents.get i).size } else node
  let disk := (writeDirectory d' disk).2
  let disk := (writeFat d' disk).2
  let disk := (writeSuperblock d' disk).2
  (node', ⟨d', disk⟩)

/-- `tinyfs_write`; the size is that of the buffer. `blockBuffer` starts with indeterminate content, here zeros. -/
def tinyfsWrite (s : Tinyfs) (node : Node) (buffer : List UInt8) (offset : UInt32) :
    Except Fault (Int × Node × Tinyfs) :=
  match node.dirent with
  | none => .ok (-1, node, s)
  | some i => do
    match ← ensureFirstBlock s.data i with
    | none => .ok (-1, node, s)
    | some d =>
      match ← extendLoop (offset.toNat / 512) d (d.dirents.get i).firstBlock with
      | (none, d) => .ok (0, node, { s with data := d })
      | (some current, d) =>
        let size := (UInt32.ofNat buffer.length).toNat
        match ← writeLoop buffer size size d s.disk current (offset.toNat % 512) 0 zeroBuffer with
        | (none, d, disk) => .ok (-1, node, ⟨d, disk⟩)
        | (some bytesWritten, d, disk) =>
          let (node, s) := finishWrite d disk node i offset (UInt32.ofNat bytesWritten)
          .ok (cInt (UInt32.ofNat bytesWritten), node, s)

/-! ## Directories -/

/-- The node that `tinyfs_readdir` and `tinyfs_finddir` build for entry `i`. -/
def nodeOf (d : TinyfsData) (i : Fin 256) : Node where
  name := (d.dirents.get i).cname.take 255
  type := if (d.dirents.get i).isDirectory ≠ 0 then .directory else .regular
  size := (d.dirents.get i).size
  inode := UInt32.ofNat i
  dirent := some i

/-- The loop of `tinyfs_readdir` over the `n` entries from `i` on. -/
def readdirLoop (d : TinyfsData) (inode index : UInt32) : Nat → Nat → UInt32 → Option (Fin 256)
  | 0, _, _ => none
  | n + 1, i, count =>
    if h : i < 256 then
      let e := d.dirents.get ⟨i, h⟩
      if e.used ≠ 0 ∧ e.parentInode = inode then
        if count = index then some ⟨i, h⟩ else readdirLoop d inode index n (i + 1) (count + 1)
      else readdirLoop d inode index n (i + 1) count
    else none

/-- `tinyfs_readdir`; `mem` is whether `kmalloc` returned a node. -/
def tinyfsReaddir (mem : Bool) (d : TinyfsData) (node : Node) (index : UInt32) : Option Node :=
  if node.type ≠ .directory then none
  else match readdirLoop d node.inode index 256 0 0 with
    | none => none
    | some i => if mem then some (nodeOf d i) else none

/-- The test of the loops of `tinyfs_finddir` and `tinyfs_create_node`. -/
def isEntry (d : TinyfsData) (inode : UInt32) (name : CString) (i : Fin 256) : Bool :=
  let e := d.dirents.get i
  e.used ≠ 0 && e.parentInode == inode && CString.strcmp e.cname name == 0

/-- `tinyfs_finddir`; `mem` is whether `kmalloc` returned a node. -/
def tinyfsFinddir (mem : Bool) (d : TinyfsData) (node : Node) (name : CString) : Option Node :=
  if node.type ≠ .directory then none
  else match firstFin 0 (isEntry d node.inode name) with
    | none => none
    | some i => if mem then some (nodeOf d i) else none

/-- `find_free_dirent`: the search starts at entry 1. -/
def findFreeDirent (d : TinyfsData) : Option (Fin 256) := firstFin 1 fun i => (d.dirents.get i).used == 0

/-- The fields `tinyfs_create_node` sets in a free entry. -/
def createDirent (e : Dirent) (name : CString) (type : FileType) (parentInode : UInt32) : Dirent :=
  { e with
    name := CString.strcpy e.name name
    firstBlock := 0
    size := 0
    isDirectory := if type = .directory then 1 else 0
    used := 1
    parentInode := parentInode }

/-- `tinyfs_create_node`. -/
def tinyfsCreateNode (s : Tinyfs) (parent : Node) (name : CString) (type : FileType) : Int × Tinyfs :=
  if parent.type ≠ .directory then (-1, s)
  else if (firstFin 0 (isEntry s.data parent.inode name)).isSome then (-1, s)
  else match findFreeDirent s.data with
    | none => (-1, s)
    | some i =>
      let d := s.data.modifyDirent i fun e => createDirent e name type parent.inode
      let (result, disk) := writeDirectory d s.disk
      if result ≠ 0 then (-1, ⟨d.modifyDirent i fun e => { e with used := 0 }, disk⟩) else (0, ⟨d, disk⟩)

/-- The test of the loop of `tinyfs_unlink`. -/
def isNamed (d : TinyfsData) (name : CString) (i : Fin 256) : Bool :=
  let e := d.dirents.get i
  e.used ≠ 0 && CString.strcmp e.cname name == 0

/-- The fields `tinyfs_unlink` clears. -/
def clearDirent (e : Dirent) : Dirent :=
  { e with used := 0, name := e.name.set 0 0, firstBlock := 0, size := 0 }

/-- `tinyfs_unlink`. The parent's inode plays no part in the search. -/
def tinyfsUnlink (s : Tinyfs) (parent : Node) (name : CString) : Except Fault (Int × Tinyfs) :=
  if parent.type ≠ .directory then .ok (-1, s)
  else match firstFin 0 (isNamed s.data name) with
    | none => .ok (-1, s)
    | some i => do
      let firstBlock := (s.data.dirents.get i).firstBlock
      let d ← if firstBlock ≠ 0 then freeBlockChain s.data firstBlock else .ok s.data
      let d := d.modifyDirent i clearDirent
      let disk := (writeFat d s.disk).2
      let disk := (writeDirectory d disk).2
      let disk := (writeSuperblock d disk).2
      .ok (0, ⟨d, disk⟩)

end AmqOs.Vfs
