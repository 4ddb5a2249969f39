import AmqOs.Lib.ByteMem
import AmqOs.Lib.Loop
import AmqOs.Lib.Run

/-!
# The RAM disk

`ramdisk_read_sectors` and `ramdisk_write_sectors` copy between a buffer of the caller and the 512 KiB behind
`ramdisk_data`. They compute `lba * 512` and the end of the range in 32 bits, and then compare the end with the size of
the disk. A copy that leaves `ramdisk_data` is the fault `outOfBounds`.

As numbers, a transfer of `n` sectors from `lba` on lies on the disk when `lba + n ≤ 1024`. The code answers so if and
only if the transfer is `Exact` (`call_iff`): it lies on the disk, or what is left of `lba` in 32 bits does not make it
look as if it did. After a run of exact transfers, every read returns for each sector the bytes of the last write that
covered it, or zeros (`run_answers`).
-/

set_option autoImplicit false

namespace AmqOs.Memory

open AmqOs.Lib

inductive RamdiskFault
  | outOfBounds
  deriving DecidableEq

structure Ramdisk where
  ramdiskData : Mem
  ramdiskInitialized : Bool

/-- `RAMDISK_SIZE`. -/
def ramdiskSize : UInt32 := 1024 * 512

/-- `ramdisk_init`; `block` is the result of `kmalloc`. -/
def ramdiskInit (d : Ramdisk) (block : Option Mem) : Ramdisk :=
  if d.ramdiskInitialized = true then d
  else
    match block with
    | none => d
    | some m => { ramdiskData := m.store 0 ramdiskSize.toNat fun _ => 0, ramdiskInitialized := true }

/-- `ramdisk_data[i]`. -/
def dataAt (d : Ramdisk) (i : UInt32) : Except RamdiskFault UInt8 :=
  if i < ramdiskSize then .ok (d.ramdiskData i.toNat) else .error .outOfBounds

/-- `ramdisk_data[i] = x`. -/
def setData (d : Ramdisk) (i : UInt32) (x : UInt8) : Except RamdiskFault Ramdisk :=
  if i < ramdiskSize then .ok { d with ramdiskData := Function.update d.ramdiskData i.toNat x }
  else .error .outOfBounds

/-- The loop of `ramdisk_read_sectors`. -/
def readLoop (d : Ramdisk) (offset : UInt32) : Nat → Mem → Except RamdiskFault Mem
  | 0, buffer => .ok buffer
  | i + 1, buffer => do
    let buffer ← readLoop d offset i buffer
    let x ← dataAt d (offset + UInt32.ofNat i)
    .ok (Function.update buffer i x)

/-- The loop of `ramdisk_write_sectors`. -/
def writeLoop (buffer : Mem) (offset : UInt32) : Nat → Ramdisk → Except RamdiskFault Ramdisk
  | 0, d => .ok d
  | i + 1, d => do
    let d ← writeLoop buffer offset i d
    setData d (offset + UInt32.ofNat i) (buffer i)

/-- `ramdisk_read_sectors`: its result, and the buffer after it. -/
def ramdiskReadSectors (d : Ramdisk) (lba : UInt32) (sectorCount : UInt8) (buffer : Option Mem) :
    Except RamdiskFault (Int × Option Mem) :=
  match buffer with
  | none => .ok (-1, none)
  | some b =>
    if d.ramdiskInitialized = false ∨ sectorCount = 0 then .ok (-1, some b)
    else
      let offset := lba * 512
      let size := sectorCount.toUInt32 * 512
      if offset + size > ramdiskSize then .ok (-1, some b)
      else do .ok (0, some (← readLoop d offset size.toNat b))

/-- `ramdisk_write_sectors`. -/
def ramdiskWriteSectors (d : Ramdisk) (lba : UInt32) (sectorCount : UInt8) (buffer : Option Mem) :
    Except RamdiskFault (Int × Ramdisk) :=
  match buffer with
  | none => .ok (-1, d)
  | some b =>
    if d.ramdiskInitialized = false ∨ sectorCount = 0 then .ok (-1, d)
    else
      let offset := lba * 512
      let size := sectorCount.toUInt32 * 512
      if offset + size > ramdiskSize then .ok (-1, d)
      else do .ok (0, ← writeLoop b offset size.toNat d)

inductive RamdiskOp
  | read (lba : UInt32) (sectorCount : UInt8) (buffer : Option Mem)
  | write (lba : UInt32) (sectorCount : UInt8) (buffer : Option Mem)

namespace RamdiskOp

def lba : RamdiskOp → UInt32
  | read lba _ _ | write lba _ _ => lba

def sectorCount : RamdiskOp → UInt8
  | read _ n _ | write _ n _ => n

def buffer : RamdiskOp → Option Mem
  | read _ _ b | write _ _ b => b

end RamdiskOp

/-- One call: its result with the buffer after it. -/
def ramdiskStep (d : Ramdisk) : RamdiskOp → Except RamdiskFault ((Int × Option Mem) × Ramdisk)
  | .read lba sectorCount buffer => do .ok (← ramdiskReadSectors d lba sectorCount buffer, d)
  | .write lba sectorCount buffer => do
    let (result, d) ← ramdiskWriteSectors d lba sectorCount buffer
    .ok ((result, buffer), d)

/-! ## The disk as a map of sectors -/

namespace RamdiskOp

variable (op : RamdiskOp)

/-- The sectors of the transfer lie on the disk. -/
def OnDisk : Prop := op.lba.toNat + op.sectorCount.toNat ≤ 1024

instance : Decidable op.OnDisk := inferInstanceAs (Decidable (_ ≤ 1024))

/-- There is something to transfer, and a buffer for it. -/
def Valid : Prop := 0 < op.sectorCount ∧ op.buffer.isSome = true

/-- The bytes that a write on the disk gives to sector `s`. -/
def bytesFor (s : Nat) : RamdiskOp → Option (Nat → UInt8)
  | read _ _ _ => none
  | write lba n b =>
    if (write lba n b).OnDisk ∧ lba.toNat ≤ s ∧ s < lba.toNat + n.toNat then
      b.map fun b i => b (512 * (s - lba.toNat) + i)
    else none

end RamdiskOp

/-- The bytes of sector `s` after the calls `past`: those of the last write that covered it, or zeros. -/
def sectorAfter (past : List RamdiskOp) (s : Nat) : Nat → UInt8 :=
  (lastWord (RamdiskOp.bytesFor s) past).getD fun _ => 0

/-- The answer to a call after the calls `past`. -/
def answerAfter (past : List RamdiskOp) (op : RamdiskOp) : Int × Option Mem :=
  if op.OnDisk then
    match op with
    | .read lba n b =>
      (0, b.map fun b => b.store 0 (512 * n.toNat) fun k => sectorAfter past (lba.toNat + k / 512) (k % 512))
    | .write _ _ b => (0, b)
  else (-1, op.buffer)

/-- The answers to the calls of a run that follows the calls `past`. -/
def answersAfter (past : List RamdiskOp) : List RamdiskOp → List (Int × Option Mem)
  | [] => []
  | op :: ops => answerAfter past op :: answersAfter (past ++ [op]) ops

/-- The call returns `0` for a transfer on the disk, and `-1` without touching the disk for any other. -/
def Answered (d : Ramdisk) (op : RamdiskOp) : Prop :=
  ∃ b d', ramdiskStep d op = .ok ((if op.OnDisk then 0 else -1, b), d') ∧ (¬op.OnDisk → d' = d)

/-- The transfer lies on the disk, or its end is beyond the disk in 32 bits too. -/
def RamdiskOp.Exact (op : RamdiskOp) : Prop :=
  op.OnDisk ∨ 1024 < op.lba.toNat % 2 ^ 23 + op.sectorCount.toNat ∧
    op.lba.toNat % 2 ^ 23 + op.sectorCount.toNat < 2 ^ 23

/-! ## The range test -/

section Range

variable (lba : UInt32) (n : UInt8)

theorem offset_toNat : (lba * 512).toNat = 512 * (lba.toNat % 2 ^ 23) := by
  rw [UInt32.toNat_mul]
  show lba.toNat * 512 % 2 ^ 32 = _
  omega

theorem size_toNat : (n.toUInt32 * 512).toNat = 512 * n.toNat := by
  have hn := n.toNat_lt
  rw [UInt32.toNat_mul, UInt8.toNat_toUInt32]
  show n.toNat * 512 % 2 ^ 32 = _
  omega

/-- The test sees the number of sectors modulo `2 ^ 23`. -/
theorem beyond_iff : lba * 512 + n.toUInt32 * 512 > ramdiskSize ↔ 1024 < (lba.toNat % 2 ^ 23 + n.toNat) % 2 ^ 23 := by
  rw [gt_iff_lt, UInt32.lt_iff_toNat_lt, UInt32.toNat_add, offset_toNat, size_toNat]
  show 524288 < _ ↔ _
  omega

end Range

/-! ## The copies -/

section Loops

variable {d : Ramdisk} {offset : UInt32} {buffer : Mem} {n : Nat}

theorem index_toNat {i : Nat} (h : offset.toNat + i < 2 ^ 32) : (offset + UInt32.ofNat i).toNat = offset.toNat + i := by
  rw [UInt32.toNat_add, UInt32.toNat_ofNat']
  omega

theorem index_lt {i : Nat} (h : offset.toNat + i < 524288) : offset + UInt32.ofNat i < ramdiskSize := by
  rw [UInt32.lt_iff_toNat_lt, index_toNat (by omega)]
  exact h

theorem readLoop_ok (h : offset.toNat + n ≤ 524288) : readLoop d offset n buffer =
    .ok (buffer.store 0 n fun k => d.ramdiskData (offset.toNat + k)) := by
  induction n with
  | zero => rw [Mem.store_zero]; rfl
  | succ n ih =>
    rw [Mem.store_succ, Nat.zero_add]
    simp only [readLoop, ih (by omega), ok_bind, dataAt, if_pos (index_lt (show offset.toNat + n < 524288 by omega))]
    rw [index_toNat (by omega)]

theorem writeLoop_ok (h : offset.toNat + n ≤ 524288) : writeLoop buffer offset n d =
    .ok { d with ramdiskData := d.ramdiskData.store offset.toNat n buffer } := by
  induction n with
  | zero => rw [Mem.store_zero]; rfl
  | succ n ih =>
    rw [Mem.store_succ]
    simp only [writeLoop, ih (by omega), ok_bind, setData,
      if_pos (index_lt (show offset.toNat + n < 524288 by omega))]
    rw [index_toNat (by omega)]

theorem not_index_zero_lt (h : 524288 ≤ offset.toNat) : ¬offset + UInt32.ofNat 0 < ramdiskSize := by
  rw [UInt32.lt_iff_toNat_lt, index_toNat (by have := offset.toNat_lt; omega)]
  exact not_lt_of_ge h

/-- A copy that starts outside the disk faults at once. -/
theorem readLoop_fault (h : 524288 ≤ offset.toNat) (hn : 0 < n) : readLoop d offset n buffer = .error .outOfBounds := by
  induction n with
  | zero => exact absurd hn (lt_irrefl 0)
  | succ n ih =>
    cases n with
    | zero => simp only [readLoop, ok_bind, dataAt, if_neg (not_index_zero_lt h), error_bind]
    | succ n => rw [readLoop, ih (Nat.succ_pos n), error_bind]

theorem writeLoop_fault (h : 524288 ≤ offset.toNat) (hn : 0 < n) :
    writeLoop buffer offset n d = .error .outOfBounds := by
  induction n with
  | zero => exact absurd hn (lt_irrefl 0)
  | succ n ih =>
    cases n with
    | zero => simp only [writeLoop, ok_bind, setData, if_neg (not_index_zero_lt h)]
    | succ n => rw [writeLoop, ih (Nat.succ_pos n), error_bind]

end Loops

/-! ## The calls -/

section Calls

variable {d : Ramdisk} {op : RamdiskOp}

/-- The first sector of the transfer, as far as 32 bits show it. -/
def RamdiskOp.seen (op : RamdiskOp) : Nat := op.lba.toNat % 2 ^ 23

theorem step_rejected (h : 1024 < (op.seen + op.sectorCount.toNat) % 2 ^ 23) :
    ramdiskStep d op = .ok ((-1, op.buffer), d) := by
  have hbeyond := (beyond_iff op.lba op.sectorCount).mpr h
  cases op with
  | read lba n buffer =>
    simp only [RamdiskOp.lba, RamdiskOp.sectorCount] at hbeyond
    cases buffer with
    | none => rfl
    | some b =>
      simp only [ramdiskStep, ramdiskReadSectors, if_pos hbeyond, ite_self]
      rfl
  | write lba n buffer =>
    simp only [RamdiskOp.lba, RamdiskOp.sectorCount] at hbeyond
    cases buffer with
    | none => rfl
    | some b =>
      simp only [ramdiskStep, ramdiskWriteSectors, if_pos hbeyond, ite_self]
      rfl

/-- The copy of a transfer with buffer `b`. -/
def copy (d : Ramdisk) (b : Mem) : RamdiskOp → Except RamdiskFault ((Int × Option Mem) × Ramdisk)
  | .read lba n _ => (readLoop d (lba * 512) (512 * n.toNat) b).map fun b => ((0, some b), d)
  | .write lba n _ => (writeLoop b (lba * 512) (512 * n.toNat) d).map fun d => ((0, some b), d)

/-- The transfer with buffer `b` between the sectors from `first` on. -/
def transfer (d : Ramdisk) (b : Mem) (first : Nat) : RamdiskOp → (Int × Option Mem) × Ramdisk
  | .read _ n _ => ((0, some (b.store 0 (512 * n.toNat) fun k => d.ramdiskData (512 * first + k))), d)
  | .write _ n _ =>
    ((0, some b), { d with ramdiskData := d.ramdiskData.store (512 * first) (512 * n.toNat) b })

/-- A transfer that passes the range test is copied. -/
theorem step_let_through (hd : d.ramdiskInitialized = true) (hv : op.Valid)
    (h : (op.seen + op.sectorCount.toNat) % 2 ^ 23 ≤ 1024) :
    ∃ b, op.buffer = some b ∧ ramdiskStep d op = copy d b op := by
  have hbeyond := fun hb => not_lt_of_ge h ((beyond_iff op.lba op.sectorCount).mp hb)
  have hcount : op.sectorCount ≠ 0 := fun e => by simpa [e] using hv.1
  obtain ⟨b, hb⟩ := Option.isSome_iff_exists.mp hv.2
  refine ⟨b, hb, ?_⟩
  cases op with
  | read lba n buffer =>
    obtain rfl : buffer = some b := hb
    simp only [RamdiskOp.lba, RamdiskOp.sectorCount] at hbeyond hcount
    simp only [ramdiskStep, ramdiskReadSectors]
    rw [if_neg (by simp [hd, hcount]), if_neg hbeyond, size_toNat, copy]
    cases readLoop d (lba * 512) (512 * n.toNat) b <;> rfl
  | write lba n buffer =>
    obtain rfl : buffer = some b := hb
    simp only [RamdiskOp.lba, RamdiskOp.sectorCount] at hbeyond hcount
    simp only [ramdiskStep, ramdiskWriteSectors]
    rw [if_neg (by simp [hd, hcount]), if_neg hbeyond, size_toNat, copy]
    cases writeLoop b (lba * 512) (512 * n.toNat) d <;> rfl

/-- A transfer that is seen on the disk is carried out where it is seen. -/
theorem step_seen (op : RamdiskOp) (hd : d.ramdiskInitialized = true) (hv : op.Valid)
    (h : op.seen + op.sectorCount.toNat ≤ 1024) :
    ∃ b, op.buffer = some b ∧ ramdiskStep d op = .ok (transfer d b op.seen op) := by
  obtain ⟨b, hb, hstep⟩ := step_let_through hd hv (by omega)
  refine ⟨b, hb, hstep.trans ?_⟩
  have hoffset := offset_toNat op.lba
  unfold RamdiskOp.seen at h ⊢
  cases op with
  | read lba n buffer =>
    simp only [RamdiskOp.lba, RamdiskOp.sectorCount] at h hoffset ⊢
    rw [copy, readLoop_ok (show (lba * 512).toNat + 512 * n.toNat ≤ 524288 by omega), hoffset]
    rfl
  | write lba n buffer =>
    simp only [RamdiskOp.lba, RamdiskOp.sectorCount] at h hoffset ⊢
    rw [copy, writeLoop_ok (show (lba * 512).toNat + 512 * n.toNat ≤ 524288 by omega), hoffset]
    rfl

/-- A transfer whose end wraps around copies from or to addresses outside the disk. -/
theorem step_wraps (hd : d.ramdiskInitialized = true) (hv : op.Valid) (h : 2 ^ 23 ≤ op.seen + op.sectorCount.toNat) :
    ramdiskStep d op = .error .outOfBounds := by
  have hn := op.sectorCount.toNat_lt
  have hpos : 0 < op.sectorCount.toNat := by simpa [UInt8.lt_iff_toNat_lt] using hv.1
  have hseen : op.seen < 2 ^ 23 := Nat.mod_lt _ (by norm_num)
  obtain ⟨b, hb, hstep⟩ := step_let_through hd hv (by omega)
  refine hstep.trans ?_
  have hoffset := offset_toNat op.lba
  unfold RamdiskOp.seen at h hseen
  cases op with
  | read lba n buffer =>
    simp only [RamdiskOp.lba, RamdiskOp.sectorCount] at h hoffset hn hpos ⊢
    rw [copy, readLoop_fault (show 524288 ≤ (lba * 512).toNat by omega) (by omega)]
    rfl
  | write lba n buffer =>
    simp only [RamdiskOp.lba, RamdiskOp.sectorCount] at h hoffset hn hpos ⊢
    rw [copy, writeLoop_fault (show 524288 ≤ (lba * 512).toNat by omega) (by omega)]
    rfl

theorem RamdiskOp.OnDisk.seen_eq (h : op.OnDisk) : op.seen = op.lba.toNat :=
  Nat.mod_eq_of_lt (by unfold RamdiskOp.OnDisk at h; omega)

/-- **The bounds check.** A call on an initialised disk is answered as the numbers say if and only if it is exact. -/
theorem call_iff (hd : d.ramdiskInitialized = true) (hv : op.Valid) : Answered d op ↔ op.Exact := by
  have hseen : op.seen < 2 ^ 23 := Nat.mod_lt _ (by norm_num)
  constructor
  · rintro ⟨b, d', hstep, -⟩
    by_cases hon : op.OnDisk
    · exact Or.inl hon
    · rw [if_neg hon] at hstep
      refine Or.inr ⟨?_, ?_⟩
      · -- a transfer that is seen on the disk returns `0`
        by_contra hnot
        obtain ⟨b', -, hstep'⟩ := step_seen op hd hv (not_lt.mp hnot)
        rw [hstep] at hstep'
        cases op <;> cases hstep'
      · by_contra hnot
        cases hstep.symm.trans (step_wraps hd hv (not_lt.mp hnot))
  · intro hex
    by_cases hon : op.OnDisk
    · obtain ⟨b, -, hstep⟩ := step_seen op hd hv (by rw [hon.seen_eq]; exact hon)
      unfold Answered
      rw [if_pos hon, hstep]
      cases op <;> exact ⟨_, _, rfl, fun hnot => absurd hon hnot⟩
    · have hrange := hex.resolve_left hon
      have hstep : ramdiskStep d op = .ok ((-1, op.buffer), d) := step_rejected (by unfold RamdiskOp.seen; omega)
      unfold Answered
      rw [if_neg hon]
      exact ⟨_, _, hstep, fun _ => rfl⟩

end Calls

/-! ## Runs -/

section Runs

variable {d : Ramdisk} {op : RamdiskOp} {past : List RamdiskOp}

/-- The disk holds what the calls `past` have left. -/
structure Holds (d : Ramdisk) (past : List RamdiskOp) : Prop where
  initialized : d.ramdiskInitialized = true
  data : ∀ s < 1024, ∀ i < 512, d.ramdiskData (512 * s + i) = sectorAfter past s i

theorem ramdiskInit_holds (h : d.ramdiskInitialized = false) (m : Mem) : Holds (ramdiskInit d (some m)) [] := by
  unfold ramdiskInit
  rw [if_neg (by simp [h])]
  refine ⟨rfl, fun s hs i hi => ?_⟩
  show m.store 0 524288 (fun _ => 0) (512 * s + i) = 0
  exact Mem.store_in (Nat.zero_le _) (by omega)

theorem sectorAfter_snoc (s : Nat) : sectorAfter (past ++ [op]) s = (op.bytesFor s).getD (sectorAfter past s) :=
  getD_lastWord_snoc past op _

theorem bytesFor_of_not_onDisk (h : ¬op.OnDisk) (s : Nat) : op.bytesFor s = none := by
  cases op with
  | read lba n b => rfl
  | write lba n b => exact if_neg fun hc => h hc.1

/-- A read on the disk collects the bytes of its sectors. -/
theorem Holds.read (h : Holds d past) (lba n : Nat) (hle : lba + n ≤ 1024) (b : Mem) :
    (b.store 0 (512 * n) fun k => d.ramdiskData (512 * lba + k)) =
      b.store 0 (512 * n) fun k => sectorAfter past (lba + k / 512) (k % 512) := by
  funext x
  by_cases hx : x < 512 * n
  · have hbyte := h.data (lba + x / 512) (by omega) (x % 512) (by omega)
    rw [Mem.store_in (by omega) (by omega), Mem.store_in (by omega) (by omega), Nat.sub_zero, ← hbyte]
    congr 1
    omega
  · rw [Mem.store_out (by omega), Mem.store_out (by omega)]

/-- A write on the disk changes the bytes of its sectors, and no other sector. -/
theorem Holds.write (h : Holds d past) {lba : UInt32} {n : UInt8} {b : Mem}
    (hon : (RamdiskOp.write lba n (some b)).OnDisk) :
    Holds { d with ramdiskData := d.ramdiskData.store (512 * lba.toNat) (512 * n.toNat) b }
      (past ++ [.write lba n (some b)]) := by
  refine ⟨h.initialized, fun s hs i hi => ?_⟩
  rw [sectorAfter_snoc]
  simp only [RamdiskOp.bytesFor]
  by_cases hs' : lba.toNat ≤ s ∧ s < lba.toNat + n.toNat
  · obtain ⟨h1, h2⟩ := hs'
    rw [if_pos ⟨hon, h1, h2⟩]
    simp only [Option.map_some, Option.getD_some]
    rw [Mem.store_in (by omega) (by omega)]
    congr 1
    omega
  · rw [if_neg fun hc => hs' hc.2]
    simp only [Option.getD_none]
    rw [Mem.store_out (by omega)]
    exact h.data s hs i hi

/-- An exact call on a disk that holds what the calls before it have left. -/
theorem Holds.step (h : Holds d past) (hv : op.Valid) (hex : op.Exact) :
    ∃ d', ramdiskStep d op = .ok (answerAfter past op, d') ∧ Holds d' (past ++ [op]) := by
  by_cases hon : op.OnDisk
  · obtain ⟨b, hb, hstep⟩ := step_seen op h.initialized hv (by rw [hon.seen_eq]; exact hon)
    rw [hon.seen_eq] at hstep
    unfold answerAfter
    rw [if_pos hon]
    cases op with
    | read lba n buffer =>
      obtain rfl : buffer = some b := hb
      refine ⟨d, ?_, h.initialized, fun s hs i hi => ?_⟩
      · rw [hstep]
        simp only [transfer, RamdiskOp.lba, Option.map_some, h.read lba.toNat n.toNat hon b]
      rw [sectorAfter_snoc]
      exact h.data s hs i hi
    | write lba n buffer =>
      obtain rfl : buffer = some b := hb
      exact ⟨_, hstep, h.write hon⟩
  · have hrange := hex.resolve_left hon
    refine ⟨d, ?_, h.initialized, fun s hs i hi => ?_⟩
    · unfold answerAfter
      rw [if_neg hon]
      exact step_rejected (by unfold RamdiskOp.seen; omega)
    · rw [sectorAfter_snoc, bytesFor_of_not_onDisk hon]
      exact h.data s hs i hi

theorem Holds.run (h : Holds d past) {ops : List RamdiskOp} (hops : ∀ op ∈ ops, op.Valid ∧ op.Exact) :
    ∃ d', runFrom ramdiskStep d ops = .ok (answersAfter past ops, d') := by
  induction ops generalizing d past with
  | nil => exact ⟨d, rfl⟩
  | cons op ops ih =>
    obtain ⟨hv, hex⟩ := hops op List.mem_cons_self
    obtain ⟨d₁, hstep, hholds⟩ := h.step hv hex
    obtain ⟨d', hrun⟩ := ih hholds fun o ho => hops o (List.mem_cons_of_mem op ho)
    exact ⟨d', runFrom_cons hstep hrun⟩

/-- **The RAM disk.** A call is answered as the numbers say if and only if it is exact; and when every call of a run is
exact, every read of the run gets the bytes of the last write that covered each of its sectors, or zeros. -/
theorem run_answers (hd : d.ramdiskInitialized = false) (m : Mem) (ops : List RamdiskOp)
    (hv : ∀ op ∈ ops, op.Valid) :
    (∀ d' : Ramdisk, d'.ramdiskInitialized = true → ∀ op ∈ ops, (Answered d' op ↔ op.Exact)) ∧
      ((∀ op ∈ ops, op.Exact) →
        ∃ d', runFrom ramdiskStep (ramdiskInit d (some m)) ops = .ok (answersAfter [] ops, d')) := by
  constructor
  · intro d' hd' op ho
    exact call_iff hd' (hv op ho)
  · intro hex
    exact (ramdiskInit_holds hd m).run fun op ho => ⟨hv op ho, hex op ho⟩

/-- A disk before `ramdisk_init`. -/
def blankRamdisk : Ramdisk := ⟨fun _ => 0, false⟩

/-- One sector full of `7`. -/
def sevens : Option Mem := some fun _ => 7

/-- The last sector is written and read. -/
theorem run_answers_last : ∃ d',
    runFrom ramdiskStep (ramdiskInit blankRamdisk (some fun _ => 9)) [.write 1023 1 sevens, .read 1023 1 sevens] =
      .ok (answersAfter [] [.write 1023 1 sevens, .read 1023 1 sevens], d') := by
  refine (run_answers (d := blankRamdisk) rfl _ _ ?_).2 ?_
  · simp [RamdiskOp.Valid, RamdiskOp.sectorCount, RamdiskOp.buffer, sevens]
  · simp [RamdiskOp.Exact, RamdiskOp.OnDisk, RamdiskOp.lba, RamdiskOp.sectorCount]

/-- A write to sector `2 ^ 23`, which is not on the disk, returns `0` and is read back from sector 0. -/
theorem write_far_read_zero : ∃ b d',
    runFrom ramdiskStep (ramdiskInit blankRamdisk (some fun _ => 9))
        [.write 8388608 1 sevens, .read 0 1 (some fun _ => 1)] = .ok ([(0, sevens), (0, some b)], d') ∧
      ¬(RamdiskOp.write 8388608 1 sevens).OnDisk ∧ b 0 = 7 ∧
      sectorAfter [.write 8388608 1 sevens] 0 0 = 0 := by
  have hoff : ¬(RamdiskOp.write 8388608 1 sevens).OnDisk := by
    simp [RamdiskOp.OnDisk, RamdiskOp.lba, RamdiskOp.sectorCount]
  have hseen : (RamdiskOp.write 8388608 1 sevens).seen = 0 := rfl
  obtain ⟨b₁, hb₁, hwrite⟩ := step_seen (d := ramdiskInit blankRamdisk (some fun _ => 9))
    (.write 8388608 1 sevens) rfl ⟨by decide, rfl⟩ (by rw [hseen]; exact Nat.le_of_ble_eq_true rfl)
  obtain rfl := Option.some.inj hb₁
  obtain ⟨b₂, hb₂, hread⟩ := step_seen (d := (transfer (ramdiskInit blankRamdisk (some fun _ => 9)) (fun _ => 7) 0
    (.write 8388608 1 sevens)).2) (.read 0 1 (some fun _ => 1)) rfl ⟨by decide, rfl⟩
    (Nat.le_of_ble_eq_true rfl)
  refine ⟨_, _, runFrom_cons hwrite (runFrom_cons hread runFrom_nil), hoff, ?_, ?_⟩
  · show Mem.store b₂ 0 512 _ 0 = 7
    rw [Mem.store_in (by omega) (by omega)]
    exact (rfl : Mem.store (fun _ => 0) 0 512 (fun _ => 7) 0 = 7)
  · unfold sectorAfter
    rw [lastWord_singleton, bytesFor_of_not_onDisk hoff]
    rfl

end Runs

end AmqOs.Memory
