import Mathlib

/-!
# The ATA disk

A disk is its sectors and the outcomes of its coming transfers, in order: a transfer is done, is refused before any
data moves, or (a write only) moves its data and then fails to flush. The callers transfer one sector at a time.
A disk is `Reliable` when every coming transfer is done; then reads and writes leave it reliable
(`ataReadSectors_reliable`, `ataWriteSectors_reliable`).
-/

set_option autoImplicit false

namespace AmqOs.Vfs

/-- The 512 bytes of a sector. -/
abbrev Sector := Vector UInt8 512

/-- What becomes of one transfer. -/
inductive Transfer
  | done
  | refused
  | flushFailed
  deriving DecidableEq

structure Disk where
  sectors : Nat → Sector
  outcomes : Nat → Transfer

namespace Disk

/-- The disk after its next transfer, sectors aside. -/
def next (d : Disk) : Disk := { d with outcomes := fun n => d.outcomes (n + 1) }

/-- The disk with a sector replaced. -/
def put (d : Disk) (lba : Nat) (s : Sector) : Disk := { d with sectors := Function.update d.sectors lba s }

/-- Every coming transfer is done. -/
def Reliable (d : Disk) : Prop := ∀ n, d.outcomes n = .done

end Disk

/-- The sector a 32-bit address selects: the task file registers hold 28 of its bits. -/
def lbaOf (lba : UInt32) : Nat := lba.toNat % 2 ^ 28

/-- `ata_read_sectors(lba, 1, buffer)`: the sector, or `none` for the result `-1`. -/
def ataReadSectors (d : Disk) (lba : UInt32) : Option Sector × Disk :=
  match d.outcomes 0 with
  | .done => (some (d.sectors (lbaOf lba)), d.next)
  | _ => (none, d.next)

/-- `ata_write_sectors(lba, 1, buffer)`. -/
def ataWriteSectors (d : Disk) (lba : UInt32) (buffer : Sector) : Int × Disk :=
  match d.outcomes 0 with
  | .done => (0, d.next.put (lbaOf lba) buffer)
  | .refused => (-1, d.next)
  | .flushFailed => (-1, d.next.put (lbaOf lba) buffer)

/-! ## Reliable disks -/

theorem lbaOf_of_lt {lba : UInt32} (h : lba.toNat < 1024) : lbaOf lba = lba.toNat :=
  Nat.mod_eq_of_lt (by omega)

variable {d : Disk}

theorem Disk.Reliable.next_eq (h : d.Reliable) : d.next = d := by
  obtain ⟨s, o⟩ := d
  have ho : o = fun _ => Transfer.done := funext h
  simp [Disk.next, ho]

theorem Disk.Reliable.put (h : d.Reliable) (lba : Nat) (s : Sector) : (d.put lba s).Reliable := h

theorem ataReadSectors_reliable (h : d.Reliable) (lba : UInt32) :
    ataReadSectors d lba = (some (d.sectors (lbaOf lba)), d) := by
  simp [ataReadSectors, h 0, h.next_eq]

theorem ataWriteSectors_reliable (h : d.Reliable) (lba : UInt32) (s : Sector) :
    ataWriteSectors d lba s = (0, d.put (lbaOf lba) s) := by
  simp [ataWriteSectors, h 0, h.next_eq]

@[simp] theorem Disk.put_sectors_self (d : Disk) (lba : Nat) (s : Sector) : (d.put lba s).sectors lba = s := by
  simp [Disk.put]

theorem Disk.put_sectors_of_ne (d : Disk) {lba l : Nat} (s : Sector) (h : l ≠ lba) :
    (d.put lba s).sectors l = d.sectors l := by
  simp [Disk.put, h]

end AmqOs.Vfs
