import AmqOs.Processes.SchedulerInv

/-!
# Threads resume where they left off

`lastPoint log t` is the execution point at which `t` was last left, or its entry point. `Resumes log` says that every
dispatch restored that point.

The context of a thread that is not the current one holds its last point (`ResumeInv`): `switch_to_thread` saves it on
the way out. One path out of a thread does not. When the current thread blocks itself and no other is ready, `schedule`
forgets it without saving anything, and it resumes where it was dispatched the time before. Where a thread only blocks
itself while another is ready, every dispatch of every run resumes the thread where it was left (`resume_run`).
-/

set_option autoImplicit false

namespace AmqOs.Processes

open AmqOs.Lib

variable {π : Type}

/-- Where a thread was last left, or its entry point. -/
def lastPoint : List (Event π) → Slot → Option π
  | [], _ => none
  | .created x p :: log, t => if x = t then some p else lastPoint log t
  | .leave x p :: log, t => if x = t then some p else lastPoint log t
  | _ :: log, t => lastPoint log t

/-- Every dispatch restored the last point of its thread. -/
def Resumes : List (Event π) → Prop
  | [] => True
  | .dispatch t p :: log => lastPoint log t = some p ∧ Resumes log
  | _ :: log => Resumes log

structure ResumeInv (a : Fifo π) : Prop where
  resumes : Resumes a.log
  saved : ∀ t, (a.table t).used = true → a.currentThread ≠ some t → lastPoint a.log t = some (a.table t).context

/-- A thread that blocks itself leaves another that is ready. -/
def BlocksWithOthers (s : Sched π) : SchedOp π → Prop
  | .block tid => getThread s tid ≠ none → s.currentThread = getThread s tid → s.readyQueueHead ≠ none
  | _ => True

instance (s : Sched π) : ∀ op, Decidable (BlocksWithOthers s op)
  | .block tid => inferInstanceAs
    (Decidable (getThread s tid ≠ none → s.currentThread = getThread s tid → s.readyQueueHead ≠ none))
  | .create _ _ _ | .unblock _ | .yield | .tick | .exit | .schedule | .enable | .run _ => .isTrue trivial

section Schedule

variable {a : Fifo π} {t : Slot}

theorem setState_context (a : Fifo π) (t x : Slot) (state : ThreadState) :
    ((a.setState t state).table x).context = (a.table x).context := by
  rw [setState_table]
  split <;> rfl

theorem setState_tid (a : Fifo π) (t x : Slot) (state : ThreadState) :
    ((a.setState t state).table x).tid = (a.table x).tid := by
  rw [setState_table]
  split <;> rfl

theorem setState_used (a : Fifo π) (t x : Slot) (state : ThreadState) :
    ((a.setState t state).table x).used = (a.table x).used := by
  rw [setState_table]
  split <;> rfl

/-- States of threads and the queue do not matter. -/
theorem ResumeInv.congr {a' : Fifo π} (h : ResumeInv a) (hused : ∀ x, (a'.table x).used = (a.table x).used)
    (hcontext : ∀ x, (a'.table x).context = (a.table x).context) (hcur : a'.currentThread = a.currentThread)
    (hlast : ∀ x, lastPoint a'.log x = lastPoint a.log x) (hres : Resumes a'.log ↔ Resumes a.log) : ResumeInv a' := by
  refine ⟨hres.mpr h.resumes, ?_⟩
  intro x hx hne
  rw [hused] at hx
  rw [hcur] at hne
  rw [hlast, hcontext]
  exact h.saved x hx hne

theorem makeReady_resume (h : ResumeInv a) : ResumeInv (a.makeReady t) :=
  h.congr (fun x => setState_used a t x .ready) (fun x => setState_context a t x .ready) rfl (fun _ => rfl) Iff.rfl

theorem stop_resume (h : ResumeInv a) : ResumeInv (a.stop t) :=
  h.congr (fun x => setState_used a t x .blocked) (fun x => setState_context a t x .blocked) rfl (fun _ => rfl) Iff.rfl

theorem requeue_resume (h : ResumeInv a) : ResumeInv (a.record .schedule).requeue := by
  have hrec : ResumeInv (a.record .schedule) :=
    h.congr (fun _ => rfl) (fun _ => rfl) rfl (fun _ => rfl) Iff.rfl
  unfold Fifo.requeue
  split
  · exact hrec
  · split
    · exact makeReady_resume hrec
    · exact hrec

theorem switchTo_resume {next : Slot} (h : ResumeInv a) (hnext : (a.table next).used = true) :
    ResumeInv (a.switchTo a.currentThread next) := by
  unfold Fifo.switchTo
  split
  · rename_i hc
    have hpoint := h.saved next hnext (by simp [hc])
    refine ⟨⟨hpoint, h.resumes⟩, ?_⟩
    intro x hx _
    exact h.saved x hx (by simp [hc])
  · rename_i p hc
    by_cases hpn : p = next
    · rw [if_pos hpn]
      exact h
    · rw [if_neg hpn]
      have hne : a.currentThread ≠ some next := by
        rw [hc]
        exact fun e => hpn (Option.some.inj e)
      have hpoint : lastPoint (.leave p a.cpu :: a.log) next = some (a.table next).context := by
        simp only [lastPoint, if_neg hpn]
        exact h.saved next hnext hne
      refine ⟨⟨hpoint, h.resumes⟩, ?_⟩
      intro x hx _
      by_cases hxp : x = p
      · simp [Fifo.record, Fifo.modify, lastPoint, hxp]
      · simp only [Fifo.record, Fifo.modify, if_neg hxp, lastPoint, if_neg (Ne.symm hxp)] at hx ⊢
        refine h.saved x hx ?_
        rw [hc]
        exact fun e => hxp (Option.some.inj e).symm

/-- `schedule` saves the point of the thread it leaves, unless that thread is blocked and no other is ready. -/
theorem schedule_resume (hp : FifoPre a) (h : ResumeInv a)
    (hok : ∀ c, a.currentThread = some c → (a.table c).state = .blocked → a.queue ≠ []) : ResumeInv a.schedule := by
  unfold Fifo.schedule
  by_cases he : a.schedulerEnabled = false
  · rw [if_pos he]
    exact h
  · rw [if_neg he, ← requeue_current]
    have hb := requeue_between hp (by simpa using he)
    have hr := requeue_resume h
    obtain ⟨extra, hextra⟩ := requeue_queue a
    cases hq : (a.record .schedule).requeue.queue with
    | nil =>
      rw [dispatch_nil hb hq, requeue_current]
      rw [hextra, List.append_eq_nil_iff] at hq
      cases hc : a.currentThread with
      | none => exact hr
      | some c =>
        -- a running thread would be in the queue now, a blocked one had company
        exfalso
        obtain ⟨-, hrun | hblocked⟩ := hp.current c hc
        · have hmem : c ∈ (a.record .schedule).requeue.queue := by
            have hreq : (a.record .schedule).requeue = (a.record .schedule).makeReady c := by
              unfold Fifo.requeue
              rw [show (a.record .schedule).currentThread = some c from hc]
              exact if_pos hrun
            rw [hreq]
            exact List.mem_append_right _ List.mem_cons_self
          rw [hextra, hq.1, hq.2] at hmem
          cases hmem
        · exact hok c hc hblocked hq.1
    | cons next rest =>
      unfold Fifo.dispatch
      rw [hq]
      have hnext : ((a.record .schedule).requeue.table next).used = true := ((hb.members next).mp (by simp [hq])).1
      have hr' : ResumeInv { (a.record .schedule).requeue.setState next .running with queue := rest } :=
        hr.congr (fun x => setState_used _ next x .running) (fun x => setState_context _ next x .running) rfl
          (fun _ => rfl) Iff.rfl
      exact switchTo_resume hr' (by rw [← hnext]; exact setState_used _ next next .running)

end Schedule

section Steps

variable {a : Fifo π}

theorem schedule_resume_of_inv (hi : FifoInv a) (h : ResumeInv a) : ResumeInv a.schedule := by
  refine schedule_resume hi.toFifoPre h ?_
  intro c hc hb
  cases (hi.runs c hc).symm.trans hb

theorem scheduleIf_resume {P : Prop} [Decidable P] (hi : FifoInv a) (h : ResumeInv a) :
    ResumeInv (if P then a.schedule else a) := by
  split
  · exact schedule_resume_of_inv hi h
  · exact h

theorem block_resume {tid : UInt32} (hi : FifoInv a) (h : ResumeInv a)
    (hok : ∀ t, a.getThread tid = some t → a.currentThread = some t → a.queue ≠ []) : ResumeInv (a.block tid) := by
  unfold Fifo.block
  split
  · exact h
  · rename_i t ht
    split
    · exact h
    · split
      · rename_i hc
        refine schedule_resume (stop_pre hi) (stop_resume h) ?_
        intro _ _ _ hnil
        have hout : t ∉ a.queue := hi.notMem (by simp [hi.runs t hc.symm])
        have herase : (a.stop t).queue = a.queue := List.erase_of_not_mem hout
        exact hok t ht hc.symm (herase.symm.trans hnil)
      · exact stop_resume h

theorem exit_resume (hi : FifoInv a) (h : ResumeInv a) : ResumeInv a.exit := by
  unfold Fifo.exit
  split
  · exact h
  · rename_i c hc
    refine schedule_resume_of_inv (retire_inv hi hc) ⟨by rw [retire_log]; exact h.resumes, ?_⟩
    intro x hu _
    rw [retire_table] at hu ⊢
    by_cases hx : x = c
    · simp [hx] at hu
    · rw [if_neg hx] at hu ⊢
      rw [retire_log]
      refine h.saved x hu ?_
      rw [hc]
      exact fun e => hx (Option.some.inj e).symm

theorem create_resume (hi : FifoInv a) (h : ResumeInv a) (pid : UInt32) (entryPoint : Option π) (stack : Bool) :
    ResumeInv (a.create pid entryPoint stack).2 := by
  unfold Fifo.create
  split
  · rename_i entry proc _
    split
    · exact h
    · split
      · exact h
      · rename_i slot hslot
        split
        · exact h
        · have hfree := (firstFin_eq_some.mp hslot).2.1
          refine scheduleIf_resume (enter_inv hi (by simpa using hfree) proc entry) ⟨h.resumes, ?_⟩
          intro x hu hne
          by_cases hx : x = slot
          · simp [Fifo.enqueue, Fifo.record, Fifo.enter, Fifo.modifyProcess, Fifo.modify, lastPoint, hx]
          · simp only [Fifo.enqueue, Fifo.record, Fifo.enter, Fifo.modifyProcess, Fifo.modify, lastPoint,
              if_neg hx, if_neg (Ne.symm hx)] at hu ⊢
            exact h.saved x hu hne
  · exact h

theorem step_resume {op : SchedOp π} (hi : FifoInv a) (h : ResumeInv a)
    (hok : ∀ tid t, op = .block tid → a.getThread tid = some t → a.currentThread = some t → a.queue ≠ []) :
    ResumeInv (a.step op).2 := by
  cases op with
  | create pid entryPoint stack => exact create_resume hi h pid entryPoint stack
  | block tid => exact block_resume hi h fun t => hok tid t rfl
  | unblock tid =>
    show ResumeInv (a.unblock tid)
    unfold Fifo.unblock
    split
    · exact h
    · split
      · exact h
      · exact makeReady_resume h
  | yield =>
    show ResumeInv a.yield
    unfold Fifo.yield
    split
    · exact h
    · split
      · exact scheduleIf_resume hi h
      · exact schedule_resume_of_inv hi h
  | tick =>
    show ResumeInv a.tick
    unfold Fifo.tick
    split
    · exact h
    · exact scheduleIf_resume hi h
  | exit => exact exit_resume hi h
  | schedule => exact schedule_resume_of_inv hi h
  | enable =>
    have hon : ResumeInv { a with schedulerEnabled := true } := ⟨h.resumes, h.saved⟩
    exact scheduleIf_resume
      ⟨⟨hi.members, hi.order, hi.current, hi.running, fun e => absurd e (by simp)⟩, hi.runs⟩ hon
  | run point => exact ⟨h.resumes, h.saved⟩

end Steps

/-! ## Runs -/

theorem schedStep_resume {s : Sched π} {op : SchedOp π}
    (h : ∃ a, Rep s a ∧ s.inScheduler = false ∧ FifoInv a ∧ ResumeInv a) (hok : BlocksWithOthers s op) :
    ∃ r s', schedStep s op = .ok (r, s') ∧ ∃ a, Rep s' a ∧ s'.inScheduler = false ∧ FifoInv a ∧ ResumeInv a := by
  obtain ⟨a, hrep, hidle, hi, hr⟩ := h
  obtain ⟨s', hs', hrep', hidle'⟩ := schedStep_refines hrep hidle hi.members op
  refine ⟨_, s', hs', _, hrep', hidle', step_inv hi op, step_resume hi hr ?_⟩
  rintro tid t rfl ht hc hnil
  refine hok ?_ ?_ (hrep.head_eq_none.mpr hnil)
  · rw [hrep.getThread, ht]
    simp
  · rw [hrep.current_eq, hrep.getThread, ht, hc]

/-- **Resuming over every run.** -/
theorem resume_run (s₀ : Sched π) {ops : List (SchedOp π)}
    (hops : Along schedStep BlocksWithOthers (schedulerInit s₀) ops) :
    ∃ rs s, runFrom schedStep (schedulerInit s₀) ops = .ok (rs, s) ∧ Resumes s.log := by
  have hinit : ResumeInv ((schedulerInit s₀).toFifo []) :=
    ⟨trivial, fun x hu => by simp [Sched.toFifo, schedulerInit, Thread.bare] at hu⟩
  obtain ⟨rs, s, hrun, a, hrep, -, -, hr⟩ := runFrom_inv _ (fun _ _ => schedStep_resume)
    ⟨_, schedulerInit_rep s₀, rfl, schedulerInit_inv s₀, hinit⟩ hops
  refine ⟨rs, s, hrun, ?_⟩
  rw [hrep.log_eq]
  exact hr.resumes

/-- One process and no threads. -/
def bootSched : Sched Nat where
  threadTable _ := ⟨0, none, .terminated, 0, none, false⟩
  processTable _ := ⟨1, .ready, [], true⟩
  currentThread := none
  nextTid := 1
  schedulerEnabled := false
  inScheduler := false
  readyQueueHead := none
  readyQueueTail := none
  cpu := 0
  log := []

/-- Two threads: the first moves on, blocks itself, is unblocked and dispatched again. -/
def pairOps : List (SchedOp Nat) :=
  [.create 1 (some 10) true, .create 1 (some 20) true, .enable, .run 11, .block 1, .unblock 1, .yield]

theorem resume_run_pairOps : ∃ rs s, runFrom schedStep (schedulerInit bootSched) pairOps = .ok (rs, s) ∧ Resumes s.log :=
  resume_run bootSched (by decide)

/-- The same with one thread. -/
def loneOps : List (SchedOp Nat) := [.create 1 (some 10) true, .enable, .run 11, .block 1, .unblock 1, .tick]

/-- The thread is left at 11 and resumes at 10. -/
theorem loneOps_stale : ∃ rs s, runFrom schedStep (schedulerInit bootSched) loneOps = .ok (rs, s) ∧ ¬ Resumes s.log := by
  obtain ⟨out, hrun, hlog⟩ := exists_ok_of_map (f := fun out => out.2.log.take 4)
    (show (runFrom schedStep (schedulerInit bootSched) loneOps).toOption.map _ =
      some [.dispatch 0 10, .schedule, .ready 0, .leave 0 11] by decide)
  refine ⟨out.1, out.2, hrun, ?_⟩
  rw [← List.take_append_drop 4 out.2.log, hlog]
  simp [Resumes, lastPoint]

end AmqOs.Processes
