import AmqOs.Lib.Queue
import AmqOs.Lib.Loop
import AmqOs.Lib.Run

/-!
# The scheduler

The thread table, the ready queue and the context switches of `scheduler.c`. A thread is an entry of `thread_table`;
`next` links the ready queue. The processor is at an execution point `cpu` of some type `π`, which moves on while a
thread runs. `switch_to_thread` saves it in the context of the thread that is left and takes it from the context of the
thread that is entered; the path for the first thread only takes it.

A call is one step. The `sti; hlt` of `schedule` ends the step: what the interrupts do while the processor halts are
steps of their own, and so is the `schedule()` after the halt. `log` records what happened, the newest event first; no
code reads it.

Following a `NULL` tail is the fault `nullPointer`, walking a queue without end the fault `diverges`.
-/

set_option autoImplicit false

namespace AmqOs.Processes

open AmqOs.Lib

inductive SchedFault
  | nullPointer
  | diverges
  deriving DecidableEq

/-- `thread_state_t`. -/
inductive ThreadState
  | ready
  | running
  | blocked
  | terminated
  deriving DecidableEq

/-- `process_state_t`. -/
inductive ProcessState
  | ready
  | running
  | blocked
  | terminated
  deriving DecidableEq

/-- An index of `thread_table`, which has `MAX_THREADS_GLOBAL` entries. -/
abbrev Slot := Fin 256

/-- An index of `process_table`, which has `MAX_PROCESSES` entries. -/
abbrev ProcSlot := Fin 64

/-- `thread_t`. -/
structure Thread (π : Type) where
  tid : UInt32
  parent : Option ProcSlot
  state : ThreadState
  context : π
  next : Option Slot
  used : Bool

/-- `process_t`; `threads` are the first `thread_count` entries of its array. -/
structure Process where
  pid : UInt32
  state : ProcessState
  threads : List Slot
  used : Bool

/-- What happens to threads. -/
inductive Event (π : Type)
  | created (thread : Slot) (entry : π)
  | ready (thread : Slot)
  | blocked (thread : Slot)
  | schedule
  | leave (thread : Slot) (point : π)
  | dispatch (thread : Slot) (point : π)
  deriving DecidableEq

structure Sched (π : Type) where
  threadTable : Slot → Thread π
  processTable : ProcSlot → Process
  currentThread : Option Slot
  nextTid : UInt32
  schedulerEnabled : Bool
  inScheduler : Bool
  readyQueueHead : Option Slot
  readyQueueTail : Option Slot
  cpu : π
  log : List (Event π)

section Defs

variable {π : Type}

/-- Assignments to fields of a thread. -/
def Sched.modify (s : Sched π) (t : Slot) (f : Thread π → Thread π) : Sched π :=
  { s with threadTable := fun x => if x = t then f (s.threadTable x) else s.threadTable x }

def Sched.record (s : Sched π) (e : Event π) : Sched π := { s with log := e :: s.log }

/-- `scheduler_init`. -/
def schedulerInit (s : Sched π) : Sched π :=
  { s with
    threadTable := fun x => { s.threadTable x with
      used := false, tid := 0, parent := none, state := .terminated, next := none }
    readyQueueHead := none
    readyQueueTail := none
    currentThread := none
    schedulerEnabled := false
    inScheduler := false
    log := [] }

/-! ## The ready queue -/

/-- `ready_queue_add`. -/
def readyQueueAdd (s : Sched π) (thread : Slot) : Except SchedFault (Sched π) :=
  let s := s.modify thread fun t => { t with next := none }
  if s.readyQueueHead = none then .ok { s with readyQueueHead := some thread, readyQueueTail := some thread }
  else
    match s.readyQueueTail with
    | none => .error .nullPointer
    | some last =>
      let s := s.modify last fun t => { t with next := some thread }
      .ok { s with readyQueueTail := some thread }

/-- The loop of `ready_queue_remove`. -/
def removeLoop (s : Sched π) (thread : Slot) : Nat → Slot → Except SchedFault (Sched π)
  | 0, _ => .error .diverges
  | fuel + 1, current =>
    match (s.threadTable current).next with
    | none => .ok s
    | some n =>
      if n = thread then
        let s := s.modify current fun t => { t with next := (s.threadTable thread).next }
        let s := { s with readyQueueTail := if s.readyQueueTail = some thread then some current else s.readyQueueTail }
        .ok (s.modify thread fun t => { t with next := none })
      else removeLoop s thread fuel n

/-- `ready_queue_remove`. -/
def readyQueueRemove (s : Sched π) (thread : Slot) : Except SchedFault (Sched π) :=
  match s.readyQueueHead with
  | none => .ok s
  | some head =>
    if head = thread then
      let s := { s with
        readyQueueHead := (s.threadTable thread).next
        readyQueueTail := if s.readyQueueTail = some thread then none else s.readyQueueTail }
      .ok (s.modify thread fun t => { t with next := none })
    else removeLoop s thread 257 head

/-! ## Switching -/

/-- A thread becomes ready and goes to the end of the queue. -/
def makeReady (s : Sched π) (thread : Slot) : Except SchedFault (Sched π) :=
  readyQueueAdd ((s.modify thread fun t => { t with state := .ready }).record (.ready thread)) thread

/-- `schedule` up to the choice of `next`: the current thread, if it is running, becomes ready. -/
def requeue (s : Sched π) : Except SchedFault (Sched π) :=
  match s.currentThread with
  | none => .ok s
  | some prev => if (s.threadTable prev).state = .running then makeReady s prev else .ok s

/-- The head of the queue is taken off and runs. -/
def takeHead (s : Sched π) (next : Slot) : Sched π :=
  let s := { s with
    readyQueueHead := (s.threadTable next).next
    readyQueueTail := if s.readyQueueTail = some next then none else s.readyQueueTail }
  s.modify next fun t => { t with next := none, state := .running }

/-- `schedule` from `if (!prev)` on. -/
def switchTo (s : Sched π) (prev : Option Slot) (next : Slot) : Sched π :=
  let point := (s.threadTable next).context
  match prev with
  | none => { s.record (.dispatch next point) with currentThread := some next, inScheduler := false, cpu := point }
  | some p =>
    if p = next then { s with inScheduler := false }
    else
      -- `switch_to_thread(&prev->context, &next->context)`
      let left := (s.modify p fun t => { t with context := s.cpu }).record (.leave p s.cpu)
      { left.record (.dispatch next point) with currentThread := some next, inScheduler := false, cpu := point }

/-- `schedule` from the choice of `next` on. -/
def dispatch (s : Sched π) (prev : Option Slot) : Sched π :=
  match s.readyQueueHead with
  | none =>
    let s := { s with inScheduler := false }
    match prev with
    | none => s
    | some p =>
      if (s.threadTable p).state = .blocked then { s.record (.leave p s.cpu) with currentThread := none } else s
  | some next => switchTo (takeHead s next) prev next

/-- `schedule`. -/
def schedule (s : Sched π) : Except SchedFault (Sched π) :=
  if s.schedulerEnabled = false then .ok s
  else if s.inScheduler = true then .ok s
  else do
    let prev := s.currentThread
    let s ← requeue { s.record .schedule with inScheduler := true }
    .ok (dispatch s prev)

/-! ## The calls -/

/-- `scheduler_enable`. -/
def schedulerEnable (s : Sched π) : Except SchedFault (Sched π) :=
  let s := { s with schedulerEnabled := true }
  if s.currentThread = none ∧ s.readyQueueHead ≠ none then schedule s else .ok s

/-- `find_free_thread_slot`. -/
def findFreeThreadSlot (s : Sched π) : Option Slot := firstFin 0 fun i => !(s.threadTable i).used

/-- `get_process`. -/
def getProcess (s : Sched π) (pid : UInt32) : Option ProcSlot :=
  firstFin 0 fun i => (s.processTable i).used && (s.processTable i).pid == pid

/-- `get_thread`. -/
def getThread (s : Sched π) (tid : UInt32) : Option Slot :=
  firstFin 0 fun i => (s.threadTable i).used && (s.threadTable i).tid == tid

def Sched.modifyProcess (s : Sched π) (p : ProcSlot) (f : Process → Process) : Sched π :=
  { s with processTable := fun x => if x = p then f (s.processTable x) else s.processTable x }

/-- The new entry that `thread_create` makes in the thread and process tables. -/
def enterThread (s : Sched π) (slot : Slot) (proc : ProcSlot) (entry : π) : Sched π :=
  let s := s.modify slot fun t => { t with
    tid := s.nextTid, parent := some proc, state := .ready, used := true, next := none, context := entry }
  let s := { s with nextTid := s.nextTid + 1 }
  (s.modifyProcess proc fun p => { p with threads := p.threads ++ [slot] }).record (.created slot entry)

/-- The end of `thread_create`: the first thread starts at once. -/
def autoStart (s : Sched π) : Except SchedFault (Sched π) :=
  if s.schedulerEnabled = true ∧ s.currentThread = none then schedule s else .ok s

/-- `thread_create`; `stack` tells whether the allocation of the stack succeeded. The result is the new identifier as a number;
`(int)tid` is the same number up to the 2^31st thread, and negative from there on. -/
def threadCreate (s : Sched π) (pid : UInt32) (entryPoint : Option π) (stack : Bool) :
    Except SchedFault (Int × Sched π) :=
  match entryPoint, getProcess s pid with
  | some entry, some proc =>
    if (s.processTable proc).threads.length ≥ 16 then .ok (-1, s)
    else
      match findFreeThreadSlot s with
      | none => .ok (-1, s)
      | some slot =>
        if stack = false then .ok (-1, s)
        else do
          let tid := s.nextTid
          let s ← readyQueueAdd ((enterThread s slot proc entry).record (.ready slot)) slot
          let s ← autoStart s
          .ok (tid.toNat, s)
  | _, _ => .ok (-1, s)

/-- `thread_block`. -/
def threadBlock (s : Sched π) (tid : UInt32) : Except SchedFault (Sched π) :=
  match getThread s tid with
  | none => .ok s
  | some thread =>
    if (s.threadTable thread).state = .blocked then .ok s
    else do
      let s := (s.modify thread fun t => { t with state := .blocked }).record (.blocked thread)
      let s ← readyQueueRemove s thread
      if some thread = s.currentThread then schedule s else .ok s

/-- `thread_unblock`. -/
def threadUnblock (s : Sched π) (tid : UInt32) : Except SchedFault (Sched π) :=
  match getThread s tid with
  | none => .ok s
  | some thread => if (s.threadTable thread).state ≠ .blocked then .ok s else makeReady s thread

/-- The process loses a thread, and terminates with its last one. -/
def leaveProcess (s : Sched π) (thread : Slot) : Sched π :=
  match (s.threadTable thread).parent with
  | none => s
  | some proc => s.modifyProcess proc fun p =>
    let threads := p.threads.erase thread
    { p with threads, state := if threads.length = 0 then .terminated else p.state }

/-- `thread_exit`. It does not return; without a current thread it halts at once. -/
def threadExit (s : Sched π) : Except SchedFault (Sched π) :=
  match s.currentThread with
  | none => .ok s
  | some c =>
    let s := s.modify c fun t => { t with state := .terminated, used := false }
    schedule { leaveProcess s c with currentThread := none }

/-- `thread_yield`. -/
def threadYield (s : Sched π) : Except SchedFault (Sched π) :=
  if s.schedulerEnabled = false then .ok s
  else if s.currentThread = none then
    if s.readyQueueHead ≠ none then schedule s else .ok s
  else schedule s

/-- `scheduler_tick`. -/
def schedulerTick (s : Sched π) : Except SchedFault (Sched π) :=
  if s.schedulerEnabled = false then .ok s
  else if s.inScheduler = true then .ok s
  else if s.readyQueueHead ≠ none then schedule s
  else .ok s

/-! ## Steps -/

/-- A call; `run` lets the processor move on to another execution point. -/
inductive SchedOp (π : Type)
  | create (pid : UInt32) (entryPoint : Option π) (stack : Bool)
  | block (tid : UInt32)
  | unblock (tid : UInt32)
  | yield
  | tick
  | exit
  | schedule
  | enable
  | run (point : π)

def schedStep (s : Sched π) : SchedOp π → Except SchedFault (Int × Sched π)
  | .create pid entryPoint stack => threadCreate s pid entryPoint stack
  | .block tid => do .ok (0, ← threadBlock s tid)
  | .unblock tid => do .ok (0, ← threadUnblock s tid)
  | .yield => do .ok (0, ← threadYield s)
  | .tick => do .ok (0, ← schedulerTick s)
  | .exit => do .ok (0, ← threadExit s)
  | .schedule => do .ok (0, ← Processes.schedule s)
  | .enable => do .ok (0, ← schedulerEnable s)
  | .run point => .ok (0, { s with cpu := point })

end Defs

end AmqOs.Processes
