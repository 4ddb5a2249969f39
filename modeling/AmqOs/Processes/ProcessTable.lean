import AmqOs.Processes.ThreadLists

/-!
# The process table is not recycled

`thread_exit` marks a process whose last thread is gone as terminated; `find_free_process` and `get_process` look at
`used`, which nothing clears. So the processes keep their entries in the order of their creation (`Numbered`): the first
64 calls of `process_create` succeed and every later one fails, whatever has become of the processes, and a terminated
process is still found by its id.

`TableOk` is what the table is for: `process_create` fails only when all entries are taken by processes that are not
terminated, and no thread is created for a terminated process. A run meets it if and only if its steps meet `RoomLeft`
(`process_table_run`).
-/

set_option autoImplicit false

namespace AmqOs.Processes

open AmqOs.Lib

variable {π : Type}

/-! ## The entries in order of creation -/

/-- The first `n` entries are used, with the ids from 1 on. -/
structure Numbered (a : Lists π) (n : Nat) : Prop where
  le : n ≤ 64
  next : a.nextPid.toNat = n + 1
  used : ∀ p, (a.fifo.processTable p).used = true ↔ p.val < n
  pid : ∀ p, p.val < n → (a.fifo.processTable p).pid.toNat = p.val + 1

/-- A call of the scheduler keeps the ids, and the used entries. -/
theorem step_processTable {a : Fifo π} (ho : Owned a) (hi : FifoInv a) (op : SchedOp π) (p : ProcSlot) :
    ((a.step op).2.processTable p).used = (a.processTable p).used ∧
      ((a.step op).2.processTable p).pid = (a.processTable p).pid := by
  rcases step_owners a op with hs | ⟨pid, _, _, entry, proc, slot, -, -, -, -, hs⟩ | ⟨c, hc, hs⟩
  · rw [hs.processTable]
    exact ⟨rfl, rfl⟩
  · rw [hs.processTable]
    by_cases hp : p = proc
    · subst hp
      simp [Fifo.enter, Fifo.record, Fifo.modifyProcess, Fifo.modify]
    · simp [Fifo.enter, Fifo.record, Fifo.modifyProcess, Fifo.modify, hp]
  · obtain ⟨proc, hparent, -, -⟩ := ho.listed c (hi.current c hc).1
    rw [hs.processTable, Owned.retire_processTable hparent]
    split <;> exact ⟨rfl, rfl⟩

namespace Numbered

variable {a : Lists π} {n : Nat}

theorem thread (h : Numbered a n) (hi : KernelInv a) (op : SchedOp π) : Numbered (a.step (.thread op)).2 n := by
  refine ⟨h.le, h.next, fun p => ?_, fun p hp => ?_⟩
  · show ((a.fifo.step op).2.processTable p).used = true ↔ _
    rw [(step_processTable hi.owned hi.fifo op p).1]
    exact h.used p
  · show ((a.fifo.step op).2.processTable p).pid.toNat = _
    rw [(step_processTable hi.owned hi.fifo op p).2]
    exact h.pid p hp

/-- When all entries are used, `process_create` fails. -/
theorem createProcess_full (h : Numbered a n) (hn : n = 64) (name : List UInt8) (memorySpace : UInt64) :
    a.createProcess name memorySpace = (-1, a) := by
  have hnone : (firstFin 0 fun i => !(a.fifo.processTable i).used) = none := by
    refine firstFin_eq_none.mpr fun p _ => ?_
    rw [(h.used p).mpr (by omega)]
    rfl
  unfold Lists.createProcess
  rw [hnone]

/-- Otherwise it takes the first entry that was never used. -/
theorem createProcess (h : Numbered a n) (hn : n < 64) (name : List UInt8) (memorySpace : UInt64) :
    (a.createProcess name memorySpace).1 = (n + 1 : Nat) ∧ Numbered (a.createProcess name memorySpace).2 (n + 1) ∧
      (a.createProcess name memorySpace).2.fifo =
        a.fifo.modifyProcess ⟨n, hn⟩ fun _ => ⟨a.nextPid, .ready, [], true⟩ := by
  have hfirst : (firstFin 0 fun i => !(a.fifo.processTable i).used) = some ⟨n, hn⟩ := by
    refine firstFin_eq_some.mpr ⟨Nat.zero_le n, ?_, fun j _ hj => ?_⟩
    · have hfree : ¬(a.fifo.processTable ⟨n, hn⟩).used = true := fun hu => lt_irrefl n ((h.used ⟨n, hn⟩).mp hu)
      simpa using hfree
    · rw [(h.used j).mpr hj]
      rfl
  have hnext := h.next
  unfold Lists.createProcess
  rw [hfirst]
  refine ⟨?_, ⟨hn, ?_, fun p => ?_, fun p hp => ?_⟩, rfl⟩
  · simp only [hnext, asInt, Int.bmod]
    split <;> omega
  · rw [UInt32.toNat_add, hnext]
    show (n + 1 + 1) % 2 ^ 32 = _
    omega
  · show (if p = ⟨n, hn⟩ then _ else a.fifo.processTable p).used = true ↔ _
    by_cases hp : p = ⟨n, hn⟩
    · rw [if_pos hp, hp]
      simp
    · rw [if_neg hp, h.used p]
      have hne : p.val ≠ n := fun e => hp (Fin.ext e)
      omega
  · show (if p = ⟨n, hn⟩ then (⟨a.nextPid, .ready, [], true⟩ : Process) else a.fifo.processTable p).pid.toNat = _
    by_cases hpn : p = ⟨n, hn⟩
    · rw [if_pos hpn, hpn]
      exact hnext
    · rw [if_neg hpn]
      have hne : p.val ≠ n := fun e => hpn (Fin.ext e)
      exact h.pid p (by omega)

theorem step (h : Numbered a n) (hi : KernelInv a) (op : KernelOp π) : ∃ n', Numbered (a.step op).2 n' := by
  cases op with
  | processCreate name memorySpace =>
    by_cases hn : n = 64
    · refine ⟨n, ?_⟩
      rw [Lists.step, h.createProcess_full hn]
      exact h
    · exact ⟨n + 1, (h.createProcess (lt_of_le_of_ne h.le hn) name memorySpace).2.1⟩
  | thread op => exact ⟨n, h.thread hi op⟩

/-- A used process is found by its id. -/
theorem getProcess (h : Numbered a n) {p : ProcSlot} (hp : (a.fifo.processTable p).used = true) :
    a.fifo.getProcess (a.fifo.processTable p).pid = some p := by
  refine firstFin_of_unique (Nat.zero_le _) (by simp [hp]) fun q hq => ?_
  simp only [Bool.and_eq_true, beq_iff_eq] at hq
  have hpid := h.pid p ((h.used p).mp hp)
  have hqid := h.pid q ((h.used q).mp hq.1)
  rw [hq.2] at hqid
  exact Fin.ext (by omega)

theorem boot (cpu : π) : Numbered ⟨(bootKernel cpu).sched.toFifo [], 1, fun _ => ⟨[], 0⟩⟩ 0 := by
  have hunused : ∀ p, (((bootKernel cpu).sched.toFifo []).processTable p).used = false := fun p => rfl
  refine ⟨Nat.zero_le _, rfl, fun p => ?_, fun p hp => absurd hp (Nat.not_lt_zero _)⟩
  simp [hunused]

end Numbered

/-! ## What the table is for -/

/-- `process_create` fails only when all 64 entries hold processes that are not terminated, and a process that gets a
thread is not terminated. -/
def TableOk (k : Kernel π) : KernelOp π → Prop
  | .processCreate name memorySpace => (processCreate k name memorySpace).1 = -1 →
      ∀ p, (k.sched.processTable p).used = true ∧ (k.sched.processTable p).state ≠ .terminated
  | .thread (.create pid _ _) => ∀ p, getProcess k.sched pid = some p → (k.sched.processTable p).state ≠ .terminated
  | .thread _ => True

/-- At most 64 processes have been created or none is terminated; and no terminated process has the given id. -/
def RoomLeft (k : Kernel π) : KernelOp π → Prop
  | .processCreate _ _ => k.nextPid ≤ 64 ∨ ∀ p, (k.sched.processTable p).state ≠ .terminated
  | .thread (.create pid _ _) => ∀ p, (k.sched.processTable p).used = true → (k.sched.processTable p).pid = pid →
      (k.sched.processTable p).state ≠ .terminated
  | .thread _ => True

section Table

variable {k : Kernel π} {a : Lists π} {n : Nat}

theorem processCreate_iff (hr : RepKernel k a) (h : Numbered a n) (name : List UInt8) (memorySpace : UInt64) :
    (processCreate k name memorySpace).1 = -1 ↔ n = 64 := by
  rw [(processCreate_spec hr name memorySpace).1]
  constructor
  · intro hfail
    by_contra hn
    rw [(h.createProcess (lt_of_le_of_ne h.le hn) name memorySpace).1] at hfail
    omega
  · intro hn
    rw [h.createProcess_full hn]

theorem tableOk_iff (hr : RepKernel k a) (h : Numbered a n) (op : KernelOp π) : RoomLeft k op ↔ TableOk k op := by
  have htable := hr.sched.processTable_eq
  cases op with
  | processCreate name memorySpace =>
    have hroom : k.nextPid ≤ 64 ↔ n ≠ 64 := by
      rw [hr.nextPid, UInt32.le_iff_toNat_le, h.next]
      have hle := h.le
      show n + 1 ≤ 64 ↔ _
      omega
    show (k.nextPid ≤ 64 ∨ ∀ p, _) ↔ (_ → ∀ p, _)
    rw [processCreate_iff hr h, hroom, htable]
    by_cases hn : n = 64
    · have hused : ∀ p, (a.fifo.processTable p).used = true := fun p => (h.used p).mpr (by omega)
      simp [hn, hused]
    · simp [hn]
  | thread op =>
    cases op with
    | create pid entryPoint stack =>
      have hget : getProcess k.sched pid = a.fifo.getProcess pid := by
        unfold getProcess Fifo.getProcess
        rw [htable]
      show (∀ p, _ → _ → _) ↔ (∀ p, getProcess k.sched pid = some p → _)
      rw [hget, htable]
      constructor
      · intro hroom p hp
        have hfound := (firstFin_eq_some.mp hp).2.1
        simp only [Bool.and_eq_true, beq_iff_eq] at hfound
        exact hroom p hfound.1 hfound.2
      · intro hok p hused hpid
        exact hok p (hpid ▸ h.getProcess hused)
    | block _ | unblock _ | yield | tick | exit | schedule | enable | run _ => exact Iff.rfl

/-- **The process table.** In a run `process_create` fails only for lack of entries without a terminated process, and no
terminated process gets a thread, if and only if at each step there is room left. -/
theorem process_table_run (cpu : π) (ops : List (KernelOp π)) :
    Along kernelStep TableOk (bootKernel cpu) ops ↔ Along kernelStep RoomLeft (bootKernel cpu) ops := by
  symm
  refine along_congr (fun k => ∃ a n, RepKernel k a ∧ KernelInv a ∧ Numbered a n) ?_ ?_
    ⟨_, 0, bootKernel_rep cpu, KernelInv.boot cpu, Numbered.boot cpu⟩ ops
  · rintro k op r k' ⟨a, n, hr, hi, hn⟩ hstep
    obtain ⟨k₁, hk₁, hrep⟩ := kernelStep_refines hr hi.fifo.members op
    obtain ⟨-, rfl⟩ := Prod.mk.inj (Except.ok.inj (hstep.symm.trans hk₁))
    obtain ⟨n', hn'⟩ := hn.step hi op
    exact ⟨_, n', hrep, hi.step op, hn'⟩
  · rintro k op ⟨a, n, hr, hi, hn⟩
    exact tableOk_iff hr hn op

end Table

/-! ## 64 lives of processes -/

section Rounds

variable {a : Lists Unit} {n : Nat}

/-- `n` processes, one after the other, each with a thread that exits. -/
def roundsOps : Nat → List (KernelOp Unit)
  | 0 => [.thread .enable]
  | n + 1 => roundsOps n ++ .processCreate [] 0 :: lifeOps (UInt32.ofNat (n + 1)) ()

/-- All processes so far are terminated. -/
structure Rounds (a : Lists Unit) (n : Nat) : Prop where
  kernel : KernelInv a
  numbered : Numbered a n
  resting : Resting a.fifo
  ended : ∀ p, (a.fifo.processTable p).state = .terminated ∧ (a.fifo.processTable p).threads = []

theorem Rounds.round (h : Rounds a n) (hn : n < 64) :
    Rounds (a.run (.processCreate [] 0 :: lifeOps (UInt32.ofNat (n + 1)) ())).2 (n + 1) := by
  obtain ⟨-, hnum, hfifo⟩ := h.numbered.createProcess hn [] 0
  have hinv := h.kernel.step (.processCreate [] 0)
  show Rounds ((a.createProcess [] 0).2.run _).2 (n + 1)
  change KernelInv (a.createProcess [] 0).2 at hinv
  generalize (a.createProcess [] 0).2 = b at hnum hfifo hinv
  have hrest : Resting b.fifo := by
    rw [hfifo]
    exact ⟨h.resting.enabled, h.resting.current, h.resting.queue, h.resting.free⟩
  have hnew : b.fifo.processTable ⟨n, hn⟩ = ⟨a.nextPid, .ready, [], true⟩ := by
    rw [hfifo]
    exact if_pos rfl
  have hproc : b.fifo.getProcess (UInt32.ofNat (n + 1)) = some ⟨n, hn⟩ := by
    have hpid : a.nextPid = UInt32.ofNat (n + 1) := by rw [← h.numbered.next, UInt32.ofNat_toNat]
    have hfound := hnum.getProcess (p := ⟨n, hn⟩) (by rw [hnew])
    rwa [hnew, hpid] at hfound
  obtain ⟨hrest', htable, -, -⟩ := hrest.life hproc (by rw [hnew]) ()
  refine ⟨(hinv.step _).step _, (hnum.thread hinv _).thread (hinv.step _) _, hrest', fun p => ?_⟩
  rw [htable]
  by_cases hp : p = ⟨n, hn⟩
  · rw [hp, Function.update_self, hnew]
    exact ⟨rfl, rfl⟩
  · rw [Function.update_of_ne hp, hfifo]
    show (if p = ⟨n, hn⟩ then _ else a.fifo.processTable p).state = _ ∧ _
    rw [if_neg hp]
    refine ⟨(h.ended p).1, ?_⟩
    show (if p = ⟨n, hn⟩ then _ else a.fifo.processTable p).threads = _
    rw [if_neg hp]
    exact (h.ended p).2

theorem rounds_run (hn : n ≤ 64) : ∃ k a, (∃ rs, runFrom kernelStep (bootKernel ()) (roundsOps n) = .ok (rs, k)) ∧
    RepKernel k a ∧ Rounds a n := by
  obtain ⟨k, hrun, hrep, -⟩ := kernel_run (bootKernel_rep ()) (KernelInv.boot ()) (roundsOps n)
  refine ⟨k, _, ⟨_, hrun⟩, hrep, ?_⟩
  clear hrun hrep
  induction n with
  | zero =>
    exact ⟨(KernelInv.boot ()).step _, (Numbered.boot ()).thread (KernelInv.boot ()) _,
      ⟨rfl, rfl, rfl, fun _ => rfl⟩, fun _ => ⟨rfl, rfl⟩⟩
  | succ n ih =>
    rw [roundsOps, Lists.run_append]
    exact (ih (by omega)).round hn

/-- All 64 processes are terminated and there are no threads; no process can be created, and the first is found. -/
theorem terminated_fill_table : ∃ rs k, runFrom kernelStep (bootKernel ()) (roundsOps 64) = .ok (rs, k) ∧
    (processCreate k [] 0).1 = -1 ∧ (∀ p, (k.sched.processTable p).state = .terminated) ∧
    (∀ t, (k.sched.threadTable t).used = false) ∧ getProcess k.sched 1 = some 0 := by
  obtain ⟨k, a, ⟨rs, hrun⟩, hrep, h⟩ := rounds_run (le_refl 64)
  have htable := hrep.sched.processTable_eq
  refine ⟨rs, k, hrun, (processCreate_iff hrep h.numbered [] 0).mpr rfl, fun p => ?_, fun t => ?_, ?_⟩
  · rw [htable]
    exact (h.ended p).1
  · rw [hrep.sched.used_eq]
    exact h.resting.free t
  · have hused : (a.fifo.processTable 0).used = true := (h.numbered.used 0).mpr (by norm_num)
    have hpid : (a.fifo.processTable 0).pid = 1 := UInt32.toNat_inj.mp (h.numbered.pid 0 (by norm_num))
    have hfound := h.numbered.getProcess hused
    rw [hpid] at hfound
    rw [← hfound]
    unfold getProcess Fifo.getProcess
    rw [htable]

end Rounds

end AmqOs.Processes
