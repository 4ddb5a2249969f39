import AmqOs.Processes.SchedulerFifo

/-!
# The process table

`process_create` over the tables of the scheduler. `Kernel` is the scheduler with the variables of `process.c` that it
does not look at. A step is `process_create` or a call of the scheduler, with the result as an `int`: an id of
`2 ^ 31` or more comes back negative.

`Lists` is the state with a list for the ready queue; `kernelStep_refines` carries the refinement of the scheduler over.
-/

set_option autoImplicit false

namespace AmqOs.Processes

open AmqOs.Lib

/-- What `process_create` stores in a `process_t` besides its ids, state and threads. -/
structure ProcessInfo where
  name : List UInt8
  memorySpace : UInt64

structure Kernel (π : Type) where
  sched : Sched π
  nextPid : UInt32
  info : ProcSlot → ProcessInfo

/-- A number returned as an `int`. -/
def asInt (x : Int) : Int := x.bmod (2 ^ 32)

section Defs

variable {π : Type}

/-- The state after `process_init` and `scheduler_init`; before them all variables are zero. -/
def bootKernel (cpu : π) : Kernel π where
  sched := schedulerInit
    { threadTable := fun _ => ⟨0, none, .ready, cpu, none, false⟩
      processTable := fun _ => ⟨0, .terminated, [], false⟩
      currentThread := none
      nextTid := 1
      schedulerEnabled := false
      inScheduler := false
      readyQueueHead := none
      readyQueueTail := none
      cpu := cpu
      log := [] }
  nextPid := 1
  info := fun _ => ⟨[], 0⟩

/-- `find_free_process`. -/
def findFreeProcess (s : Sched π) : Option ProcSlot := firstFin 0 fun i => !(s.processTable i).used

/-- `process_create`; `name` has no byte 0. -/
def processCreate (k : Kernel π) (name : List UInt8) (memorySpace : UInt64) : Int × Kernel π :=
  match findFreeProcess k.sched with
  | none => (-1, k)
  | some idx =>
    let pid := k.nextPid
    (asInt pid.toNat,
      { sched := k.sched.modifyProcess idx fun _ => { pid, state := .ready, threads := [], used := true }
        nextPid := pid + 1
        info := Function.update k.info idx ⟨name.take 63, memorySpace⟩ })

inductive KernelOp (π : Type)
  | processCreate (name : List UInt8) (memorySpace : UInt64)
  | thread (op : SchedOp π)

def kernelStep (k : Kernel π) : KernelOp π → Except SchedFault (Int × Kernel π)
  | .processCreate name memorySpace => .ok (processCreate k name memorySpace)
  | .thread op => do
    let (r, sched) ← schedStep k.sched op
    .ok (asInt r, { k with sched })

/-! ## The same on lists -/

/-- The state with a list for the ready queue. -/
structure Lists (π : Type) where
  fifo : Fifo π
  nextPid : UInt32
  info : ProcSlot → ProcessInfo

namespace Lists

def createProcess (a : Lists π) (name : List UInt8) (memorySpace : UInt64) : Int × Lists π :=
  match firstFin 0 fun i => !(a.fifo.processTable i).used with
  | none => (-1, a)
  | some idx =>
    (asInt a.nextPid.toNat,
      { fifo := a.fifo.modifyProcess idx fun _ => ⟨a.nextPid, .ready, [], true⟩
        nextPid := a.nextPid + 1
        info := Function.update a.info idx ⟨name.take 63, memorySpace⟩ })

def step (a : Lists π) : KernelOp π → Int × Lists π
  | .processCreate name memorySpace => a.createProcess name memorySpace
  | .thread op => (asInt (a.fifo.step op).1, { a with fifo := (a.fifo.step op).2 })

/-- All the calls in order. -/
def run (a : Lists π) : List (KernelOp π) → List Int × Lists π
  | [] => ([], a)
  | op :: ops =>
    let rest := (a.step op).2.run ops
    ((a.step op).1 :: rest.1, rest.2)

end Lists

/-- The links of `k` are the queue of `a`, and the rest is the same. -/
structure RepKernel (k : Kernel π) (a : Lists π) : Prop where
  sched : Rep k.sched a.fifo
  idle : k.sched.inScheduler = false
  nextPid : k.nextPid = a.nextPid
  info : k.info = a.info

end Defs

section Refinement

variable {π : Type} {k : Kernel π} {a : Lists π}

theorem processCreate_spec (h : RepKernel k a) (name : List UInt8) (memorySpace : UInt64) :
    (processCreate k name memorySpace).1 = (a.createProcess name memorySpace).1 ∧
      RepKernel (processCreate k name memorySpace).2 (a.createProcess name memorySpace).2 := by
  have hfree : findFreeProcess k.sched = firstFin 0 fun i => !(a.fifo.processTable i).used := by
    unfold findFreeProcess
    rw [h.sched.processTable_eq]
  unfold processCreate Lists.createProcess
  rw [hfree]
  cases firstFin 0 fun i => !(a.fifo.processTable i).used with
  | none => exact ⟨rfl, h⟩
  | some idx =>
    refine ⟨by rw [h.nextPid], ⟨h.sched.queue, ?_⟩, h.idle, by simp only [h.nextPid], by simp only [h.info]⟩
    simp only [h.nextPid]
    rw [← h.sched.view]
    rfl

/-- **Refinement.** A call neither faults nor diverges and does what it does on lists. -/
theorem kernelStep_refines (h : RepKernel k a) (hm : a.fifo.Members) (op : KernelOp π) :
    ∃ k', kernelStep k op = .ok ((a.step op).1, k') ∧ RepKernel k' (a.step op).2 := by
  cases op with
  | processCreate name memorySpace =>
    obtain ⟨hr, hrep⟩ := processCreate_spec h name memorySpace
    exact ⟨_, by rw [kernelStep, Lists.step, ← hr], hrep⟩
  | thread op =>
    obtain ⟨s', hs', hrep, hidle⟩ := schedStep_refines h.sched h.idle hm op
    refine ⟨{ k with sched := s' }, ?_, hrep, hidle, h.nextPid, h.info⟩
    rw [kernelStep, hs']
    rfl

theorem bootKernel_rep (cpu : π) :
    RepKernel (bootKernel cpu) ⟨(bootKernel cpu).sched.toFifo [], 1, fun _ => ⟨[], 0⟩⟩ :=
  ⟨.of_view .nil, rfl, rfl, rfl⟩

end Refinement

end AmqOs.Processes
