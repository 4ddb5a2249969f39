import AmqOs.Ata.AtaDrive
import AmqOs.Lib.Loop

/-!
# The ATA driver

`ata_wait_ready`, `ata_wait_drq`, `ata_init`, `ata_read_sectors` and `ata_write_sectors` over any device behind the
ports. A buffer is an address in a byte memory; messages and delay loops are left out.
-/

set_option autoImplicit false

namespace AmqOs.Ata

open AmqOs.Lib

/-- `ATA_TIMEOUT`. -/
@[irreducible] def ataTimeout : Nat := 5000000

theorem ataTimeout_pos : 0 < ataTimeout := by
  unfold ataTimeout
  decide

variable {σ : Type} (bus : Bus σ)

/-- `ata_wait_ready`. -/
def ataWaitReady : σ → Int × σ :=
  poll bus ataPrimaryStatus
    (fun status =>
      if status &&& ataStatusBsy = 0 ∧ status &&& ataStatusRdy ≠ 0 then some 0
      else if status &&& ataStatusErr ≠ 0 then some (-1)
      else none)
    (-1) ataTimeout

/-- The second loop of `ata_wait_drq`. -/
def ataWaitData : σ → Int × σ :=
  poll bus ataPrimaryStatus
    (fun status =>
      if status &&& ataStatusDrq ≠ 0 then some 0
      else if status &&& ataStatusErr ≠ 0 then some (-1)
      else none)
    (-1) ataTimeout

/-- `ata_wait_drq`. -/
def ataWaitDrq (s : σ) : Int × σ :=
  let (clear, s) :=
    poll bus ataPrimaryStatus (fun status => if status &&& ataStatusBsy = 0 then some true else none) false ataTimeout s
  if clear then ataWaitData bus s else (-1, s)

def ataSoftReset (s : σ) : σ :=
  bus.outb ataPrimaryControl 0x00 (bus.outb ataPrimaryControl 0x04 s)

/-- The loop that drops the 256 words of the answer to IDENTIFY. -/
def readIdentify (s : σ) : σ := forUpTo (fun _ s => (bus.inw ataPrimaryData s).2) 256 s

/-- `ata_init`. -/
def ataInit (s : σ) : σ :=
  let status := bus.inb ataPrimaryStatus (ataSoftReset bus s)
  if status.1 = 0xFF then status.2
  else
    -- the driver sends this command before it waits, with whatever address the task file holds
    let ready := ataWaitReady bus (bus.outb ataPrimaryCommand ataCmdWriteSectors status.2)
    if ready.1 ≠ 0 then ready.2
    else
      let status := bus.inb ataPrimaryStatus (bus.outb ataPrimaryCommand ataCmdIdentify ready.2)
      if status.1 = 0 then status.2
      else
        let drq := ataWaitDrq bus status.2
        if drq.1 = 0 then readIdentify bus drq.2 else drq.2

/-- The device register for an address: LBA mode, drive 0, and the highest four of the 28 bits. -/
def deviceOf (lba : UInt32) : UInt8 := (0xE0 : UInt8) ||| ((lba >>> 24) &&& 0x0F).toUInt8

/-- Sector count, the low 24 bits of the address, and the command. -/
def issue (lba : UInt32) (sectorCount command : UInt8) (s : σ) : σ :=
  let s := bus.outb ataPrimarySecCount sectorCount s
  let s := bus.outb ataPrimaryLbaLo lba.toUInt8 s
  let s := bus.outb ataPrimaryLbaMid (lba >>> 8).toUInt8 s
  let s := bus.outb ataPrimaryLbaHi (lba >>> 16).toUInt8 s
  bus.outb ataPrimaryCommand command s

/-- The inner loop of a read: 256 words to `a`. -/
def readWords (a : Nat) : Mem × σ → Mem × σ :=
  forUpTo (fun j (m, s) => (m.storeLE (a + 2 * j) 2 (bus.inw ataPrimaryData s).1.toNat, (bus.inw ataPrimaryData s).2)) 256

/-- The outer loop of a read, from the buffer's part at `a`, with `n` sectors to come. -/
def readSectorsLoop : Nat → Nat → Mem × σ → Int × Mem × σ
  | 0, _, (m, s) => (0, m, s)
  | n + 1, a, (m, s) =>
    let (drq, s) := ataWaitDrq bus s
    if drq ≠ 0 then (-1, m, s)
    else
      let (status, s) := bus.inb ataPrimaryStatus s
      if status &&& ataStatusErr ≠ 0 then (-1, m, s)
      else readSectorsLoop n (a + 512) (readWords bus a (m, s))

/-- `ata_read_sectors`. -/
def ataReadSectors (m : Mem) (lba : UInt32) (sectorCount : UInt8) (buffer : Nat) (s : σ) : Int × Mem × σ :=
  if buffer = 0 ∨ sectorCount = 0 then (-1, m, s)
  else
    let (ready, s) := ataWaitReady bus s
    if ready ≠ 0 then (-1, m, s)
    else
      let s := bus.outb ataPrimaryDrive (deviceOf lba) s
      let s := issue bus lba sectorCount ataCmdReadSectors s
      readSectorsLoop bus sectorCount.toNat buffer (m, s)

/-- The inner loop of a write: the 256 words at `a`. -/
def writeWords (m : Mem) (a : Nat) : σ → σ :=
  forUpTo (fun j s => bus.outw ataPrimaryData (UInt16.ofNat (m.loadLE (a + 2 * j) 2)) s) 256

/-- The outer loop of a write. -/
def writeSectorsLoop (m : Mem) : Nat → Nat → σ → Int × σ
  | 0, _, s => (0, s)
  | n + 1, a, s =>
    let (drq, s) := ataWaitDrq bus s
    if drq ≠ 0 then (-1, s)
    else
      let (status, s) := bus.inb ataPrimaryStatus s
      if status &&& ataStatusErr ≠ 0 then (-1, (bus.inb ataPrimaryError s).2)
      else writeSectorsLoop m n (a + 512) (writeWords bus m a s)

/-- `ata_write_sectors`. -/
def ataWriteSectors (m : Mem) (lba : UInt32) (sectorCount : UInt8) (buffer : Nat) (s : σ) : Int × σ :=
  if buffer = 0 ∨ sectorCount = 0 then (-1, s)
  else
    let ready := ataWaitReady bus s
    if ready.1 ≠ 0 then (-1, ready.2)
    else
      let ready := ataWaitReady bus (bus.outb ataPrimaryDrive (deviceOf lba) ready.2)
      if ready.1 ≠ 0 then (-1, ready.2)
      else
        let sent := writeSectorsLoop bus m sectorCount.toNat buffer (issue bus lba sectorCount ataCmdWriteSectors ready.2)
        if sent.1 ≠ 0 then (-1, sent.2)
        else
          let flushed := ataWaitReady bus (bus.outb ataPrimaryCommand ataCmdFlushCache sent.2)
          if flushed.1 ≠ 0 then (-1, flushed.2) else (0, flushed.2)

end AmqOs.Ata
