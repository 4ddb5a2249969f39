import AmqOs.Ata.AtaSectors
import AmqOs.Lib.Run

/-!
# The driver implements the disk

The filesystem uses a `Disk` that does or refuses whole transfers of one sector. Here the same calls are made through the
ports of a drive, and any number of them is seen as calls of a disk with some outcomes (`drive_refines_disk`), also when
waits time out in the middle, and `ata_init`, which stores nothing in spite of the command to write that it sends. A
drive that always answers in time is a reliable disk. The drive must keep every sector it has taken, since the driver
does not look.
-/

set_option autoImplicit false

namespace AmqOs.Ata

open AmqOs.Lib
open AmqOs.Vfs (Sector Disk Transfer lbaOf)
open Drive

/-- A call of the driver: `ata_init`, or a transfer of one sector. -/
inductive SectorCall
  | init
  | read (lba : UInt32)
  | write (lba : UInt32) (s : Sector)

/-- What a call gave: nothing, a sector or its absence, or a number. -/
inductive SectorAnswer
  | nothing
  | sector (s : Option Sector)
  | result (r : Int)

/-- One call through the ports, with a buffer in a memory. -/
def portStep (m : Mem) (buffer : Nat) (d : Drive) : SectorCall → Except Empty (SectorAnswer × Drive)
  | .init => .ok (.nothing, ataInit Drive.bus d)
  | .read lba =>
    let out := ataReadSectors Drive.bus m lba 1 buffer d
    .ok (.sector (if out.1 = 0 then some (out.2.1.loadVec buffer 512) else none), out.2.2)
  | .write lba s =>
    let out := ataWriteSectors Drive.bus (m.storeVec buffer s) lba 1 buffer d
    .ok (.result out.1, out.2)

/-- The same call on a disk. -/
def diskStep (k : Disk) : SectorCall → Except Empty (SectorAnswer × Disk)
  | .init => .ok (.nothing, k)
  | .read lba => .ok (.sector (Vfs.ataReadSectors k lba).1, (Vfs.ataReadSectors k lba).2)
  | .write lba s => .ok (.result (Vfs.ataWriteSectors k lba s).1, (Vfs.ataWriteSectors k lba s).2)

/-- The drive keeps every sector it has taken. -/
def Drive.Keeps (d : Drive) : Prop := ∀ n, (d.commits n).fails = false

/-- The drive answers within the driver's patience, and never gives up. -/
structure Drive.Prompt (d : Drive) : Prop where
  busy : d.busy < ataTimeout
  responses : ∀ n, (d.responses n).Timely
  commits : ∀ n, (d.commits n).Timely

section Later

variable {d d' : Drive}

theorem Later.keeps (h : Later d d') (hk : d.Keeps) : d'.Keeps := by
  obtain ⟨q, hq⟩ := h.commits
  intro n
  rw [hq]
  exact hk _

theorem Later.prompt (h : Later d d') (hp : d.Prompt) (hb : d'.busy = 0) : d'.Prompt := by
  obtain ⟨p, hr⟩ := h.responses
  obtain ⟨q, hc⟩ := h.commits
  exact ⟨hb ▸ ataTimeout_pos, fun n => hr n ▸ hp.responses _, fun n => hc n ▸ hp.commits _⟩

end Later

/-! ## Initialising -/

section Init

variable {σ : Type} {bus : Bus σ} {P : σ → Prop} {s : σ}

theorem ataWaitDrq_keeps (h : bus.Keeps P) (hs : P s) : P (ataWaitDrq bus s).2 := by
  unfold ataWaitDrq
  split
  rename_i clear t heq
  have ht : P (clear, t).2 := by
    rw [← heq]
    exact h.poll hs
  split
  · exact h.poll ht
  · exact ht

/-- What the single accesses keep, the initialisation keeps. -/
theorem ataInit_keeps (h : bus.Keeps P) (hs : P s) : P (ataInit bus s) := by
  have hreset : P (ataSoftReset bus s) := h.outb _ _ _ (h.outb _ _ _ hs)
  simp only [ataInit]
  have h₁ := h.inb ataPrimaryStatus _ hreset
  generalize bus.inb ataPrimaryStatus (ataSoftReset bus s) = status at h₁ ⊢
  split_ifs with hff hr h0 hdrq
  · exact h₁
  all_goals
    have h₂ : P (ataWaitReady bus (bus.outb ataPrimaryCommand ataCmdWriteSectors status.2)).2 := h.poll (h.outb _ _ _ h₁)
    have h₃ := h.inb ataPrimaryStatus _ (h.outb ataPrimaryCommand ataCmdIdentify _ h₂)
  · exact h₂
  · exact h₃
  · exact forUpTo_inv (fun _ t => P t) (ataWaitDrq_keeps h h₃) fun _ t _ ht => h.inw _ t ht
  · exact ataWaitDrq_keeps h h₃

end Init

/-- Only the writing of words changes what the drive holds. -/
theorem bus_keeps_sectors (sectors : Nat → Sector) :
    Drive.bus.Keeps fun d => d.sectors = sectors ∧ d.Keeps where
  inb port d h := by
    simp only [Drive.bus, Drive.inb]
    split_ifs <;> exact h
  outb port v d h := by
    simp only [Drive.bus, Drive.outb, Drive.command]
    split_ifs <;> exact h
  inw port d h := by
    simp only [Drive.bus, Drive.inw]
    split_ifs
    · split
      · split_ifs <;> exact h
      · exact h
    · exact h

theorem respond_prompt {d : Drive} (h : d.Prompt) (stage : Stage) : (d.respond stage).Prompt :=
  ⟨(h.responses 0).1, fun n => h.responses (n + 1), h.commits⟩

theorem bus_keeps_prompt : Drive.bus.Keeps Drive.Prompt where
  inb port d h := by
    simp only [Drive.bus, Drive.inb]
    split_ifs
    · exact ⟨Nat.lt_of_le_of_lt (Nat.sub_le _ _) h.busy, h.responses, h.commits⟩
    · exact h
    · exact h
  outb port v d h := by
    simp only [Drive.bus, Drive.outb, Drive.command]
    split_ifs
    all_goals first
      | exact h
      | exact respond_prompt h _
      | exact ⟨h.busy, h.responses, h.commits⟩
  inw port d h := by
    simp only [Drive.bus, Drive.inw]
    split_ifs
    · split
      · split_ifs
        · exact ⟨h.busy, h.responses, h.commits⟩
        · exact ⟨h.busy, h.responses, h.commits⟩
        · exact respond_prompt h _
      · exact h
    · exact h

/-! ## One call -/

/-- A list of outcomes that starts with `o`. -/
def before (o : Transfer) (outcomes : Nat → Transfer) : Nat → Transfer
  | 0 => o
  | n + 1 => outcomes n

/-- The outcomes `later` of a disk after a call, and `now` before it. -/
structure Matches (d : Drive) (call : SectorCall) (a : SectorAnswer) (d' : Drive)
    (now : (Nat → Transfer) → Nat → Transfer) : Prop where
  disk : ∀ later, diskStep ⟨d.sectors, now later⟩ call = .ok (a, ⟨d'.sectors, later⟩)
  keeps : d'.Keeps
  prompt : d.Prompt → d'.Prompt ∧ ∀ later, (∀ n, later n = .done) → ∀ n, now later n = .done

theorem before_done {later : Nat → Transfer} (h : ∀ n, later n = .done) (n : Nat) : before .done later n = .done := by
  cases n with
  | zero => rfl
  | succ n => exact h n

section Step

variable {d : Drive} (m : Mem) {buffer : Nat}

/-- The one sector of a read. -/
theorem loadVec_rangeBytes (sectors : Nat → Sector) {lba : Nat} (hl : lba < 2 ^ 28) :
    (m.store buffer 512 (rangeBytes sectors lba)).loadVec buffer 512 = sectors lba := by
  have h : m.store buffer 512 (rangeBytes sectors lba) = m.storeVec buffer (sectors lba) := by
    have hrange := @store_sector_range sectors lba hl m buffer 0
    simpa using hrange.symm
  rw [h, Mem.loadVec_storeVec]

theorem init_matches (hk : d.Keeps) : Matches d .init .nothing (ataInit Drive.bus d) fun later => later := by
  obtain ⟨hs, hk'⟩ := ataInit_keeps (bus_keeps_sectors d.sectors) ⟨rfl, hk⟩
  exact ⟨fun later => by rw [hs]; rfl, hk', fun hp => ⟨ataInit_keeps bus_keeps_prompt hp, fun _ h => h⟩⟩

theorem read_matches (hb : buffer ≠ 0) (hk : d.Keeps) (lba : UInt32) :
    ∃ a d' o, portStep m buffer d (.read lba) = .ok (a, d') ∧ Matches d (.read lba) a d' o := by
  obtain ⟨k, r, m', d', he, h⟩ := ataReadSectors_transfer d m lba hb (by decide : (1 : UInt8) ≠ 0)
  have hcount : (1 : UInt8).toNat = 1 := rfl
  rw [hcount] at h
  have hstep : portStep m buffer d (.read lba) =
      .ok (.sector (if r = 0 then some (m'.loadVec buffer 512) else none), d') := by
    simp only [portStep, he]
  by_cases hk1 : k = 1
  · have hr : r = 0 := by rw [h.result, if_pos hk1]
    have hm : m'.loadVec buffer 512 = d.sectors (lbaOf lba) := by
      rw [h.memory, hk1, Nat.mul_one, loadVec_rangeBytes m d.sectors (lbaOf_lt lba)]
    refine ⟨_, d', before .done, hstep, fun later => ?_, h.later.keeps hk,
      fun hp => ⟨h.later.prompt hp (h.ready hk1), fun _ => before_done⟩⟩
    rw [if_pos hr, hm, h.sectors]
    rfl
  · have hr : r ≠ 0 := by
      rw [h.result, if_neg hk1]
      decide
    refine ⟨_, d', before .refused, hstep, fun later => ?_, h.later.keeps hk, fun hp => ?_⟩
    · rw [if_neg hr, h.sectors]
      rfl
    · exact absurd (h.all_iff.mpr ⟨hp.busy, fun j _ => hp.responses j⟩) hk1

theorem write_matches (hb : buffer ≠ 0) (hk : d.Keeps) (lba : UInt32) (s : Sector) :
    ∃ a d' o, portStep m buffer d (.write lba s) = .ok (a, d') ∧ Matches d (.write lba s) a d' o := by
  obtain ⟨p, r, d', he, h⟩ :=
    ataWriteSectors_transfer d (m.storeVec buffer s) lba hb (by decide : (1 : UInt8) ≠ 0)
  have hcount : (1 : UInt8).toNat = 1 := rfl
  rw [hcount] at h
  have hstep : portStep m buffer d (.write lba s) = .ok (.result r, d') := by
    simp only [portStep, he]
  have hl := lbaOf_lt lba
  -- the sector is stored, or nothing is
  have hput : p = 1 → d'.sectors = Function.update d.sectors (lbaOf lba) s := by
    intro hp
    funext l
    by_cases hll : l = lbaOf lba
    · rw [hll, Function.update_self]
      have hst := h.stored 0 (by omega)
      rwa [Nat.add_zero, Nat.mod_eq_of_lt hl, Nat.mul_zero, Nat.add_zero, Mem.loadVec_storeVec] at hst
    · rw [Function.update_of_ne hll]
      exact h.others l fun i hi => by
        rw [show i = 0 by omega, Nat.add_zero, Nat.mod_eq_of_lt hl]
        exact hll
  have hsame : p = 0 → d'.sectors = d.sectors := fun hp => funext fun l => h.others l fun i hi => by omega
  have hle := h.le
  rcases h.result with hr | hr
  · have hp : p = 1 := (h.kept hr).mpr (hk 0)
    refine ⟨_, d', before .done, hstep, fun later => ?_, h.later.keeps hk,
      fun hp => ⟨h.later.prompt hp (h.ready hr), fun _ => before_done⟩⟩
    rw [hput hp, hr]
    rfl
  · have hno : ¬ d.Prompt := fun hpr => by
      have h0 : r = 0 := h.zero_iff.mpr ⟨hpr.busy, hpr.responses 0, fun j hj => by omega, by
        unfold flushDelay
        split
        · exact (hpr.responses 1).1
        · exact (hpr.commits _).1⟩
      rw [h0] at hr
      cases hr
    by_cases hp : p = 1
    · refine ⟨_, d', before .flushFailed, hstep, fun later => ?_, h.later.keeps hk, fun hpr => absurd hpr hno⟩
      rw [hput hp, hr]
      rfl
    · refine ⟨_, d', before .refused, hstep, fun later => ?_, h.later.keeps hk, fun hpr => absurd hpr hno⟩
      rw [hsame (by omega), hr]
      rfl

end Step

/-- **Any run of calls through the ports is a run of calls of a disk**; a prompt drive is a reliable disk. -/
theorem drive_refines_disk (m : Mem) {buffer : Nat} (hb : buffer ≠ 0) {d : Drive} (hk : d.Keeps)
    (calls : List SectorCall) :
    ∃ outcomes answers d' k', runFrom (portStep m buffer) d calls = .ok (answers, d') ∧
      runFrom diskStep ⟨d.sectors, outcomes⟩ calls = .ok (answers, k') ∧ k'.sectors = d'.sectors ∧
      (d.Prompt → Disk.Reliable ⟨d.sectors, outcomes⟩) := by
  induction calls generalizing d with
  | nil => exact ⟨fun _ => .done, [], d, ⟨d.sectors, fun _ => .done⟩, rfl, rfl, rfl, fun _ _ => rfl⟩
  | cons call calls ih =>
    obtain ⟨a, d₁, now, hport, hmatch⟩ :
        ∃ a d₁ now, portStep m buffer d call = .ok (a, d₁) ∧ Matches d call a d₁ now := by
      cases call with
      | init => exact ⟨_, _, _, rfl, init_matches hk⟩
      | read lba => exact read_matches m hb hk lba
      | write lba s => exact write_matches m hb hk lba s
    obtain ⟨outcomes, answers, d', k', hrun, hdisk, hs, hrel⟩ := ih hmatch.keeps
    refine ⟨now outcomes, a :: answers, d', k', runFrom_cons hport hrun, runFrom_cons (hmatch.disk outcomes) hdisk,
      hs, fun hp => ?_⟩
    obtain ⟨hp', hdone⟩ := hmatch.prompt hp
    exact hdone outcomes (hrel hp')

/-- A drive that answers each time at the third reading. -/
def thirdReading : Drive where
  sectors := fun _ => Vector.replicate 512 0
  identity := List.replicate 256 0
  secCount := 0
  lbaLo := 0
  lbaMid := 0
  lbaHi := 0
  device := 0
  busy := 0
  stage := .idle false
  responses := fun _ => ⟨2, false⟩
  commits := fun _ => ⟨2, false⟩

theorem drive_refines_disk_thirdReading :
    ∃ outcomes answers d' k', runFrom (portStep (fun _ => 0) 4096) thirdReading
        [.init, .write 7 (Vector.replicate 512 1), .read 7] = .ok (answers, d') ∧
      runFrom diskStep ⟨thirdReading.sectors, outcomes⟩ [.init, .write 7 (Vector.replicate 512 1), .read 7] =
        .ok (answers, k') ∧ k'.sectors = d'.sectors ∧
      (thirdReading.Prompt → Disk.Reliable ⟨thirdReading.sectors, outcomes⟩) :=
  drive_refines_disk (fun _ => 0) (by decide) (fun _ => rfl) _

end AmqOs.Ata
