import AmqOs.Processes.SchedulerDefs

/-!
# Sleeping threads

`sleep_ticks` of `sleep.c`, the job table of `fg.c` and the timer interrupt of `irq.c`, on top of the scheduler. The
execution point of a thread is the statement of `sleep_ticks` that it is about to execute (`Pc`), with the local
variables that are still needed, and the number of timer handlers on its stack that have yet to reach
`update_jobs_safe`: `scheduler_tick` may switch to another thread in the middle of a handler, which goes on when the
thread is dispatched again.

A step is one statement of `sleep_ticks`, one call from elsewhere, or a timer interrupt. The interrupt can come before
any step. The `update_jobs_safe` at the end of its handler is a step of its own. When `thread_block` halts because no
thread is ready, the `schedule()` after the halt and the one that follows in `sleep_ticks` are the same call twice with
nothing between them, and are one step here.
-/

set_option autoImplicit false

namespace AmqOs.Processes

open AmqOs.Lib

/-- `job_state_t`. -/
inductive JobState
  | running
  | stopped
  | sleeping
  | done
  deriving DecidableEq

/-- An index of `job_table`, which has `MAX_JOBS` entries. -/
abbrev JobSlot := Fin 32

/-- `job_t`. -/
structure Job where
  used : Bool
  jobId : Int
  tid : UInt32
  state : JobState
  sleepUntil : UInt64

/-- The next statement of `sleep_ticks`; `current` is the variable of that name. -/
inductive Pc
  /-- outside of `sleep_ticks` -/
  | idle
  /-- `current = get_current_thread()` -/
  | entered (ticks : UInt64)
  /-- `while (get_timer_ticks() < target) hlt` -/
  | spin (target : UInt64)
  /-- `current_time_ms = get_uptime_ms()` -/
  | time (current : Slot) (ticks : UInt64)
  /-- `wake_time_ms = current_time_ms + sleep_duration_ms` -/
  | wake (current : Slot) (ticks currentTime : UInt64)
  /-- `if (job->used && job->tid == current->tid)` for entry `i` -/
  | scan (current : Slot) (wakeTime : UInt64) (i : Nat)
  /-- `job->state = JOB_SLEEPING` -/
  | arm (current : Slot) (wakeTime : UInt64) (i : JobSlot)
  /-- `job->sleep_until = wake_time_ms` -/
  | set (current : Slot) (wakeTime : UInt64) (i : JobSlot)
  /-- `thread_block(current->tid)` -/
  | block (current : Slot)
  /-- `schedule()` -/
  | woken
  deriving DecidableEq

structure Point where
  pc : Pc
  pending : Nat
  deriving DecidableEq

/-- Outside of `sleep_ticks` and of the handler. -/
def Point.rest : Point := ⟨.idle, 0⟩

structure Sleepers where
  sched : Sched Point
  jobTable : JobSlot → Job
  nextJobId : Int
  jobsEnabled : Bool
  timerTicks : UInt64

def Sleepers.setJob (s : Sleepers) (i : JobSlot) (job : Job) : Sleepers :=
  { s with jobTable := fun j => if j = i then job else s.jobTable j }

def Sleepers.goto (s : Sleepers) (pc : Pc) : Sleepers :=
  { s with sched := { s.sched with cpu := { s.sched.cpu with pc } } }

/-- `scheduler_init`, `jobs_init` and `jobs_set_active(1)`. -/
def sleepInit (s : Sleepers) : Sleepers :=
  { s with
    sched := { schedulerInit s.sched with cpu := .rest }
    jobTable := fun _ => ⟨false, 0, 0, .done, 0⟩
    jobsEnabled := true }

/-- `get_uptime_ms`. -/
def getUptimeMs (timerTicks : UInt64) : UInt64 := timerTicks * 1000 / 1000

/-- `wake_time_ms` of `sleep_ticks`. -/
def wakeTimeMs (currentTime ticks : UInt64) : UInt64 := currentTime + ticks * 1000 / 1000

/-- `add_fg_job` and `add_bg_job`. -/
def addJob (s : Sleepers) (tid : UInt32) : Int × Sleepers :=
  match firstFin 0 fun i => !(s.jobTable i).used with
  | none => (-1, s)
  | some slot => (s.nextJobId, { s.setJob slot ⟨true, s.nextJobId, tid, .running, 0⟩ with nextJobId := s.nextJobId + 1 })

/-! ## `update_jobs_safe` -/

/-- The last switch of `update_jobs_safe`: the state of a job follows the one of its thread. -/
def followState (job : Job) : ThreadState → JobState
  | .ready | .running => .running
  | .blocked => if job.sleepUntil > 0 then .sleeping else .stopped
  | .terminated => job.state

/-- One iteration of `update_jobs_safe`. -/
def updateJob (now : UInt64) (s : Sleepers) (i : JobSlot) : Except SchedFault Sleepers :=
  let job := s.jobTable i
  if job.used = false then .ok s
  else
    match getThread s.sched job.tid with
    | none => .ok (s.setJob i { job with used := false, state := .done })
    | some t =>
      if (s.sched.threadTable t).state = .terminated then .ok (s.setJob i { job with used := false, state := .done })
      else if job.state = .sleeping ∧ job.sleepUntil > 0 then
        if now ≥ job.sleepUntil then do
          let sched ← threadUnblock s.sched job.tid
          .ok ({ s with sched }.setJob i { job with state := .running, sleepUntil := 0 })
        else .ok s
      else .ok (s.setJob i { job with state := followState job (s.sched.threadTable t).state })

/-- `update_jobs_safe`. -/
def updateJobsSafe (s : Sleepers) : Except SchedFault Sleepers :=
  if s.jobsEnabled = false then .ok s
  else (List.finRange 32).foldlM (updateJob (getUptimeMs s.timerTicks)) s

/-! ## `sleep_ticks` -/

/-- The next statement of `sleep_ticks`. -/
def sleepTicks (s : Sleepers) : Except SchedFault Sleepers :=
  match s.sched.cpu.pc with
  | .idle => .ok s
  | .entered ticks =>
    match s.sched.currentThread with
    | none => .ok (s.goto (.spin (s.timerTicks + ticks)))
    | some current => .ok (s.goto (.time current ticks))
  | .spin target => .ok (if s.timerTicks < target then s else s.goto .idle)
  | .time current ticks => .ok (s.goto (.wake current ticks (getUptimeMs s.timerTicks)))
  | .wake current ticks currentTime => .ok (s.goto (.scan current (wakeTimeMs currentTime ticks) 0))
  | .scan current wakeTime i =>
    if h : i < 32 then
      let job := s.jobTable ⟨i, h⟩
      if job.used = true ∧ job.tid = (s.sched.threadTable current).tid then
        .ok (s.goto (.arm current wakeTime ⟨i, h⟩))
      else .ok (s.goto (.scan current wakeTime (i + 1)))
    else .ok (s.goto (.block current))
  | .arm current wakeTime i =>
    .ok ((s.setJob i { s.jobTable i with state := .sleeping }).goto (.set current wakeTime i))
  | .set current wakeTime i => .ok ((s.setJob i { s.jobTable i with sleepUntil := wakeTime }).goto (.block current))
  | .block current => do
    let s := s.goto .woken
    let sched ← threadBlock s.sched (s.sched.threadTable current).tid
    .ok { s with sched }
  | .woken => do
    let s := s.goto .idle
    let sched ← schedule s.sched
    .ok { s with sched }

/-! ## The timer -/

/-- `timer_handler_c` up to the call of `update_jobs_safe`. -/
def timerHandler (s : Sleepers) : Except SchedFault Sleepers := do
  let s := { s with
    timerTicks := s.timerTicks + 1
    sched := { s.sched with cpu := { s.sched.cpu with pending := s.sched.cpu.pending + 1 } } }
  let sched ← schedulerTick s.sched
  .ok { s with sched }

/-- What the processor does next: the rest of a timer handler, or a statement of `sleep_ticks`. -/
def execNext (s : Sleepers) : Except SchedFault Sleepers :=
  match s.sched.cpu.pending with
  | 0 => sleepTicks s
  | pending + 1 => updateJobsSafe { s with sched := { s.sched with cpu := { s.sched.cpu with pending } } }

/-! ## Steps -/

/-- The calls other than `exec` and `timer` come from code outside of `sleep_ticks`. -/
inductive SleepOp
  | create (pid : UInt32) (stack : Bool)
  | addJob (tid : UInt32)
  | enable
  | yield
  | exit
  | sleep (ticks : UInt64)
  | exec
  | timer

/-- A call of the scheduler. -/
def Sleepers.call (s : Sleepers) (f : Sched Point → Except SchedFault (Sched Point)) :
    Except SchedFault (Int × Sleepers) := do
  let sched ← f s.sched
  .ok (0, { s with sched })

def sleepStep (s : Sleepers) : SleepOp → Except SchedFault (Int × Sleepers)
  | .exec => do .ok (0, ← execNext s)
  | .timer => do .ok (0, ← timerHandler s)
  | op =>
    if s.sched.cpu ≠ .rest then .ok (0, s)
    else
      match op with
      | .create pid stack => do
        let (tid, sched) ← threadCreate s.sched pid (some .rest) stack
        .ok (tid, { s with sched })
      | .addJob tid => .ok (addJob s tid)
      | .enable => s.call schedulerEnable
      | .yield => s.call threadYield
      | .exit => s.call threadExit
      | .sleep ticks => .ok (0, if ticks = 0 then s else s.goto (.entered ticks))
      | .exec | .timer => .ok (0, s)

end AmqOs.Processes
