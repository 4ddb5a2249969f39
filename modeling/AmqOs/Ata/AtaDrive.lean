import AmqOs.Lib.Ports
import AmqOs.Lib.ByteMem
import AmqOs.Vfs.Ata

/-!
# The drive behind the ATA ports

The drive of the primary channel as a driver sees it through its ports: the task file, a status register, and a data
register that passes a sector as 256 words. A drive is idle, sends sectors or takes sectors; between two stages it is
busy for some readings of its status. How long, and whether it then gives up, it is free to choose: `responses` are its
coming answers to commands and between the sectors of a read, `commits` those after each sector it has taken.
-/

set_option autoImplicit false

namespace AmqOs.Ata

open AmqOs.Lib
open AmqOs.Vfs (Sector)

/-- Busy for `delay` readings of the status, and then an error instead of the next stage when it `fails`. -/
structure Response where
  delay : Nat
  fails : Bool

inductive Stage
  | idle (error : Bool)
  /-- The words of the sector being sent, its address, and the number of sectors after it. -/
  | sending (words : List UInt16) (lba left : Nat)
  /-- The words taken so far of the sector at an address, and the number of sectors after it. -/
  | taking (words : List UInt16) (lba left : Nat)

structure Drive where
  sectors : Nat → Sector
  identity : List UInt16
  secCount : UInt8
  lbaLo : UInt8
  lbaMid : UInt8
  lbaHi : UInt8
  device : UInt8
  busy : Nat
  stage : Stage
  responses : Nat → Response
  commits : Nat → Response

def ataPrimaryData : UInt16 := 0x1F0
def ataPrimaryError : UInt16 := 0x1F1
def ataPrimarySecCount : UInt16 := 0x1F2
def ataPrimaryLbaLo : UInt16 := 0x1F3
def ataPrimaryLbaMid : UInt16 := 0x1F4
def ataPrimaryLbaHi : UInt16 := 0x1F5
def ataPrimaryDrive : UInt16 := 0x1F6
def ataPrimaryCommand : UInt16 := 0x1F7
def ataPrimaryStatus : UInt16 := 0x1F7
def ataPrimaryControl : UInt16 := 0x3F6

def ataCmdReadSectors : UInt8 := 0x20
def ataCmdWriteSectors : UInt8 := 0x30
def ataCmdIdentify : UInt8 := 0xEC
def ataCmdFlushCache : UInt8 := 0xE7

def ataStatusErr : UInt8 := 0x01
def ataStatusDrq : UInt8 := 0x08
def ataStatusRdy : UInt8 := 0x40
def ataStatusBsy : UInt8 := 0x80

/-- A word of a sector; the low byte comes first. -/
def wordAt (s : Sector) (j : Nat) : UInt16 := UInt16.ofNat (Mem.loadLE (fun x => s[x]?.getD 0) (2 * j) 2)

def wordsOf (s : Sector) : List UInt16 := (List.range 256).map (wordAt s)

/-- The sector that 256 words make up. -/
def sectorOf (words : List UInt16) : Sector :=
  Vector.ofFn fun x => UInt8.ofNat ((words.getD (x / 2) 0).toNat / 256 ^ (x.val % 2))

/-- The status of a stage. -/
def Stage.status : Stage → UInt8
  | .idle false => ataStatusRdy
  | .idle true => ataStatusRdy ||| ataStatusErr
  | .sending .. | .taking .. => ataStatusRdy ||| ataStatusDrq

namespace Drive

/-- What the status register shows. -/
def status (d : Drive) : UInt8 := if d.busy ≠ 0 then ataStatusBsy else d.stage.status

/-- The address in the task file. -/
def address (d : Drive) : Nat :=
  d.lbaLo.toNat + 2 ^ 8 * d.lbaMid.toNat + 2 ^ 16 * d.lbaHi.toNat + 2 ^ 24 * (d.device.toNat % 16)

/-- The number of sectors in the task file; 0 stands for 256. -/
def count (d : Drive) : Nat := if d.secCount = 0 then 256 else d.secCount.toNat

/-- The address after `lba`. -/
def nextLba (lba : Nat) : Nat := (lba + 1) % 2 ^ 28

/-- The drive goes over to a stage, or gives up. -/
def respond (d : Drive) (stage : Stage) : Drive :=
  { d with
    busy := (d.responses 0).delay
    stage := if (d.responses 0).fails then .idle true else stage
    responses := fun n => d.responses (n + 1) }

/-- A whole sector has been taken. -/
def commit (d : Drive) (words : List UInt16) (lba left : Nat) : Drive :=
  { d with
    sectors := if (d.commits 0).fails then d.sectors else Function.update d.sectors lba (sectorOf words)
    busy := (d.commits 0).delay
    stage :=
      if (d.commits 0).fails then .idle true
      else if left = 0 then .idle false
      else .taking [] (nextLba lba) (left - 1)
    commits := fun n => d.commits (n + 1) }

/-- The command register. A busy drive ignores it. -/
def command (d : Drive) (c : UInt8) : Drive :=
  if d.busy ≠ 0 then d
  else if c = ataCmdReadSectors then d.respond (.sending (wordsOf (d.sectors d.address)) d.address (d.count - 1))
  else if c = ataCmdWriteSectors then d.respond (.taking [] d.address (d.count - 1))
  else if c = ataCmdIdentify then d.respond (.sending d.identity 0 0)
  else if c = ataCmdFlushCache then d.respond (.idle false)
  else { d with stage := .idle true }

def inb (port : UInt16) (d : Drive) : UInt8 × Drive :=
  if port = ataPrimaryStatus then (d.status, { d with busy := d.busy - 1 })
  else if port = ataPrimaryError then (match d.stage with | .idle true => 4 | _ => 0, d)
  else (0xFF, d)

def outb (port : UInt16) (v : UInt8) (d : Drive) : Drive :=
  if port = ataPrimaryCommand then d.command v
  else if port = ataPrimaryControl then if v &&& 0x04 ≠ 0 then d.respond (.idle false) else d
  else if d.busy ≠ 0 then d
  else if port = ataPrimarySecCount then { d with secCount := v }
  else if port = ataPrimaryLbaLo then { d with lbaLo := v }
  else if port = ataPrimaryLbaMid then { d with lbaMid := v }
  else if port = ataPrimaryLbaHi then { d with lbaHi := v }
  else if port = ataPrimaryDrive then { d with device := v }
  else d

/-- The data register, read. After the last word of a sector the next one is fetched. -/
def inw (port : UInt16) (d : Drive) : UInt16 × Drive :=
  if port = ataPrimaryData ∧ d.busy = 0 then
    match d.stage with
    | .sending (w :: words) lba left =>
      if words ≠ [] then (w, { d with stage := .sending words lba left })
      else if left = 0 then (w, { d with stage := .idle false })
      else (w, d.respond (.sending (wordsOf (d.sectors (nextLba lba))) (nextLba lba) (left - 1)))
    | _ => (0xFFFF, d)
  else (0xFFFF, d)

/-- The data register, written. -/
def outw (port : UInt16) (w : UInt16) (d : Drive) : Drive :=
  if port = ataPrimaryData ∧ d.busy = 0 then
    match d.stage with
    | .taking words lba left =>
      if words.length + 1 = 256 then d.commit (words ++ [w]) lba left
      else { d with stage := .taking (words ++ [w]) lba left }
    | _ => d
  else d

/-- The drive as a device. -/
def bus : Bus Drive := ⟨inb, outb, inw, outw⟩

end Drive

end AmqOs.Ata
