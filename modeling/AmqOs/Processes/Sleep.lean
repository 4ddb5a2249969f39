import AmqOs.Processes.SchedulerResume
import AmqOs.Processes.SleepDefs

/-!
# No lost wake-up

A thread that `sleep_ticks` has blocked sleeps on a job entry that will wake it: `NoLostWakeup`. The invariant
`SleepInv` says of every thread what its place in `sleep_ticks` means for the job table (`PointOk`), and that a blocked
thread does not resume between the arming of its entry and the block (`Calm`).

Four things break the property, and `SleepSafe` excludes them: there is no entry for the thread, or the wake time is 0;
`update_jobs_safe` runs while the entry of a thread that is not yet blocked is half armed, or due; the thread blocks with
no other thread ready while its saved context lies between arming and block, to which it then returns; and a thread
identifier is given out twice. Along every run without them no wake-up is lost (`wakeup_run`).
-/

set_option autoImplicit false

namespace AmqOs.Processes

open AmqOs.Lib

/-! ## Switching -/

section Points

variable {π : Type}

/-- `P` holds of the execution point of every thread and `C` of those of blocked threads; a context that is out of date
meets `P` if it meets `C`. Without a current thread, `N` holds of the processor. -/
structure Points (P : Slot → π → Prop) (C N : π → Prop) (a : Fifo π) : Prop where
  stale : ∀ x, (a.table x).used = true → C (a.table x).context → P x (a.table x).context
  saved : ∀ x, (a.table x).used = true → a.currentThread ≠ some x →
    P x (a.table x).context ∧ ((a.table x).state = .blocked → C (a.table x).context)
  cpu : ∀ c, a.currentThread = some c → P c a.cpu
  idle : a.currentThread = none → N a.cpu

/-- What `schedule` does to the table besides contexts. -/
structure TableFrame (T T' : Slot → Thread π) : Prop where
  used : ∀ x, (T' x).used = (T x).used
  tid : ∀ x, (T' x).tid = (T x).tid
  blocked : ∀ x, (T' x).state = .blocked ↔ (T x).state = .blocked
  terminated : ∀ x, (T' x).state = .terminated ↔ (T x).state = .terminated

variable {P : Slot → π → Prop} {C N : π → Prop} {a : Fifo π} {T T' T'' : Slot → Thread π}

theorem TableFrame.refl (T : Slot → Thread π) : TableFrame T T :=
  ⟨fun _ => rfl, fun _ => rfl, fun _ => Iff.rfl, fun _ => Iff.rfl⟩

theorem TableFrame.trans (h : TableFrame T T') (h' : TableFrame T' T'') : TableFrame T T'' :=
  ⟨fun x => (h'.used x).trans (h.used x), fun x => (h'.tid x).trans (h.tid x),
    fun x => (h'.blocked x).trans (h.blocked x), fun x => (h'.terminated x).trans (h.terminated x)⟩

theorem setState_frame {t : Slot} {state : ThreadState}
    (ht : (a.table t).state = .ready ∨ (a.table t).state = .running) (hs : state = .ready ∨ state = .running) :
    TableFrame a.table (a.setState t state).table := by
  refine ⟨fun x => setState_used a t x state, fun x => setState_tid a t x state, fun x => ?_, fun x => ?_⟩ <;>
    rw [setState_table] <;> by_cases hx : x = t <;> simp only [hx, if_true, if_false]
  · rcases ht with ht | ht <;> rcases hs with hs | hs <;> simp [ht, hs]
  · rcases ht with ht | ht <;> rcases hs with hs | hs <;> simp [ht, hs]

theorem requeue_frame (a : Fifo π) : TableFrame a.table (a.record .schedule).requeue.table := by
  unfold Fifo.requeue
  split
  · exact .refl a.table
  · split
    · rename_i hrun
      exact setState_frame (Or.inr hrun) (Or.inl rfl)
    · exact .refl a.table

theorem switchTo_tableFrame (a : Fifo π) (prev : Option Slot) (next : Slot) :
    TableFrame a.table (a.switchTo prev next).table := by
  unfold Fifo.switchTo
  split
  · exact .refl a.table
  · split
    · exact .refl a.table
    · refine ⟨?_, ?_, ?_, ?_⟩ <;> intro x <;> simp only [Fifo.record, Fifo.modify] <;> split <;> rfl

theorem schedule_frame (hp : FifoPre a) : TableFrame a.table a.schedule.table := by
  unfold Fifo.schedule
  by_cases he : a.schedulerEnabled = false
  · rw [if_pos he]
    exact .refl a.table
  · rw [if_neg he, ← requeue_current]
    have hb := requeue_between hp (by simpa using he)
    refine (requeue_frame a).trans ?_
    generalize (a.record .schedule).requeue = a₁ at hb
    cases hq : a₁.queue with
    | nil =>
      rw [dispatch_nil hb hq]
      split <;> exact .refl a₁.table
    | cons next rest =>
      have hready := ((hb.members next).mp (by simp [hq])).2
      unfold Fifo.dispatch
      rw [hq]
      exact (setState_frame (Or.inl hready) (Or.inr rfl)).trans
        (switchTo_tableFrame { a₁.setState next .running with queue := rest } _ next)

/-! ### Points -/

/-- States of live threads and the queue do not matter. -/
theorem Points.congr {a' : Fifo π} (h : Points P C N a) (hf : TableFrame a.table a'.table)
    (hcontext : ∀ x, (a'.table x).context = (a.table x).context) (hcur : a'.currentThread = a.currentThread)
    (hcpu : a'.cpu = a.cpu) : Points P C N a' := by
  refine ⟨?_, ?_, ?_, ?_⟩
  · intro x hx
    rw [hf.used] at hx
    rw [hcontext]
    exact h.stale x hx
  · intro x hx hne
    rw [hf.used] at hx
    rw [hcur] at hne
    rw [hcontext, hf.blocked]
    exact h.saved x hx hne
  · intro c hc
    rw [hcur] at hc
    rw [hcpu]
    exact h.cpu c hc
  · intro hc
    rw [hcur] at hc
    rw [hcpu]
    exact h.idle hc

theorem requeue_context (a : Fifo π) (x : Slot) :
    ((a.record .schedule).requeue.table x).context = (a.table x).context := by
  unfold Fifo.requeue
  split
  · rfl
  · split
    · exact setState_context a _ x .ready
    · rfl

theorem requeue_cpu (a : Fifo π) : (a.record .schedule).requeue.cpu = a.cpu := by
  unfold Fifo.requeue
  split
  · rfl
  · split <;> rfl

theorem switchTo_points {next : Slot} (h : Points P C N a) (hnext : (a.table next).used = true)
    (hblk : ∀ c, a.currentThread = some c → (a.table c).state = .blocked → C a.cpu) :
    Points P C N (a.switchTo a.currentThread next) := by
  unfold Fifo.switchTo
  split
  · rename_i hc
    have hout : ∀ x, a.currentThread ≠ some x := by simp [hc]
    refine ⟨h.stale, fun x hx _ => h.saved x hx (hout x), ?_, ?_⟩
    · intro c hcur
      cases hcur
      exact (h.saved next hnext (hout next)).1
    · intro hcur
      cases hcur
  · rename_i p hc
    by_cases hpn : p = next
    · rw [if_pos hpn]
      exact h
    · rw [if_neg hpn]
      have hout : ∀ x, x ≠ p → a.currentThread ≠ some x := by
        intro x hx e
        exact hx (Option.some.inj (e.symm.trans hc))
      refine ⟨?_, ?_, ?_, ?_⟩
      · intro x hx hC
        by_cases hxp : x = p
        · subst hxp
          simpa [Fifo.record, Fifo.modify] using h.cpu x hc
        · simp only [Fifo.record, Fifo.modify, if_neg hxp] at hx hC ⊢
          exact h.stale x hx hC
      · intro x hx _
        by_cases hxp : x = p
        · subst hxp
          simpa [Fifo.record, Fifo.modify] using And.intro (h.cpu x hc) (hblk x hc)
        · simp only [Fifo.record, Fifo.modify, if_neg hxp] at hx ⊢
          exact h.saved x hx (hout x hxp)
      · intro c hcur
        cases hcur
        exact (h.saved next hnext (hout next (Ne.symm hpn))).1
      · intro hcur
        cases hcur

/-- `schedule` keeps the points. A current thread that is blocked is at a point where it may be left, and if no thread
is ready it will resume at its old context. -/
theorem schedule_points (hp : FifoPre a) (h : Points P C N a)
    (hblk : ∀ c, a.currentThread = some c → (a.table c).state = .blocked →
      C a.cpu ∧ (a.queue = [] → C (a.table c).context ∧ N a.cpu)) : Points P C N a.schedule := by
  unfold Fifo.schedule
  by_cases he : a.schedulerEnabled = false
  · rw [if_pos he]
    exact h
  · rw [if_neg he, ← requeue_current]
    have hb := requeue_between hp (by simpa using he)
    have h₁ := h.congr (requeue_frame a) (requeue_context a) (requeue_current a) (requeue_cpu a)
    have hblk₁ : ∀ c, (a.record .schedule).requeue.currentThread = some c →
        ((a.record .schedule).requeue.table c).state = .blocked → C (a.record .schedule).requeue.cpu ∧
          ((a.record .schedule).requeue.queue = [] →
            C ((a.record .schedule).requeue.table c).context ∧ N (a.record .schedule).requeue.cpu) := by
      intro c hc hbl
      obtain ⟨extra, hextra⟩ := requeue_queue a
      rw [requeue_current] at hc
      rw [(requeue_frame a).blocked] at hbl
      rw [requeue_cpu, requeue_context, hextra, List.append_eq_nil_iff]
      exact ⟨(hblk c hc hbl).1, fun hnil => (hblk c hc hbl).2 hnil.1⟩
    generalize (a.record .schedule).requeue = a₁ at hb h₁ hblk₁
    cases hq : a₁.queue with
    | nil =>
      rw [dispatch_nil hb hq]
      cases hc : a₁.currentThread with
      | none => exact h₁
      | some c =>
        have hbl : (a₁.table c).state = .blocked := by
          rcases hb.current c hc with hm | hbl
          · rw [hq] at hm
            cases hm
          · exact hbl
        obtain ⟨-, hdead⟩ := hblk₁ c hc hbl
        obtain ⟨hC, hN⟩ := hdead hq
        refine ⟨h₁.stale, ?_, ?_, fun _ => hN⟩
        · intro x hx _
          by_cases hxc : x = c
          · subst hxc
            exact ⟨h₁.stale x hx hC, fun _ => hC⟩
          · exact h₁.saved x hx fun e => hxc (Option.some.inj (e.symm.trans hc))
        · intro y hy
          cases hy
    | cons next rest =>
      obtain ⟨hnext, hready⟩ := (hb.members next).mp (by simp [hq])
      have hf : TableFrame a₁.table (a₁.setState next .running).table := setState_frame (Or.inl hready) (Or.inr rfl)
      unfold Fifo.dispatch
      rw [hq]
      refine switchTo_points (a := { a₁.setState next .running with queue := rest })
        (h₁.congr hf (fun x => setState_context a₁ next x .running) rfl rfl) ((hf.used next).trans hnext) ?_
      intro c hc hbl
      exact (hblk₁ c hc ((hf.blocked c).mp hbl)).1

end Points

/-! ## The invariant -/

/-- A used entry from `i` on is for the thread. -/
def HasJob (jobs : JobSlot → Job) (tid : UInt32) (i : Nat) : Prop :=
  ∃ j : JobSlot, i ≤ j.val ∧ (jobs j).used = true ∧ (jobs j).tid = tid

/-- A used entry for the thread is in state `JOB_SLEEPING` with a wake time in `B`. -/
def Armed (B : UInt64 → Prop) (jobs : JobSlot → Job) (tid : UInt32) : Prop :=
  ∃ j, (jobs j).used = true ∧ (jobs j).tid = tid ∧ (jobs j).state = .sleeping ∧ B (jobs j).sleepUntil

/-- No thread sleeps with nothing left that will wake it. -/
def NoLostWakeup (s : Sleepers) : Prop :=
  ∀ t, (s.sched.threadTable t).used = true → (s.sched.threadTable t).state = .blocked →
    Armed (· ≠ 0) s.jobTable (s.sched.threadTable t).tid

/-- What the next statement of the thread `x` means for the job table; `S` and `B` are what is known of the wake time of
an entry that is being armed, and of one that is armed. -/
def PointOk (S B : UInt64 → Prop) (jobs : JobSlot → Job) (tid : UInt32) (x : Slot) : Pc → Prop
  | .idle | .entered _ | .spin _ | .woken => True
  | .time current _ => current = x
  | .wake current ticks currentTime => current = x ∧ wakeTimeMs currentTime ticks ≠ 0 ∧ HasJob jobs tid 0
  | .scan current wakeTime i => current = x ∧ wakeTime ≠ 0 ∧ HasJob jobs tid i
  | .arm current wakeTime i => current = x ∧ wakeTime ≠ 0 ∧ (jobs i).used = true ∧ (jobs i).tid = tid
  | .set current wakeTime i => current = x ∧ wakeTime ≠ 0 ∧
    (jobs i).used = true ∧ (jobs i).tid = tid ∧ (jobs i).state = .sleeping ∧ S (jobs i).sleepUntil
  | .block current => current = x ∧ Armed B jobs tid

/-- Not between the arming of an entry and the block. -/
def Calm : Pc → Prop
  | .set _ _ _ | .block _ => False
  | _ => True

/-- A point that the processor can be at without a current thread. -/
def Loose : Pc → Prop
  | .idle | .entered _ | .spin _ | .woken => True
  | _ => False

structure SleepInv (S B : UInt64 → Prop) (a : Fifo Point) (jobs : JobSlot → Job) : Prop where
  tids : ∀ x y, (a.table x).used = true → (a.table y).used = true → (a.table x).tid = (a.table y).tid → x = y
  alive : ∀ x, (a.table x).used = true → (a.table x).state ≠ .terminated
  points : Points (fun x p => PointOk S B jobs (a.table x).tid x p.pc) (fun p => Calm p.pc) (fun p => Loose p.pc) a
  wakes : ∀ x, (a.table x).used = true → (a.table x).state = .blocked → Armed (· ≠ 0) jobs (a.table x).tid

section Inv

variable {S B S' B' : UInt64 → Prop} {a a' : Fifo Point} {jobs jobs' : JobSlot → Job} {tid : UInt32} {x : Slot} {pc : Pc}

theorem PointOk.loose (h : Loose pc) : PointOk S B jobs tid x pc := by
  cases pc <;> first | exact trivial | exact h.elim

theorem Loose.calm (h : Loose pc) : Calm pc := by
  cases pc <;> first | exact trivial | exact h.elim

/-- The entries that matter to a thread are its own; between arming and block they have to stay as they are. -/
theorem PointOk.mono (h : PointOk S B jobs tid x pc)
    (hused : ∀ j, (jobs j).used = true → (jobs j).tid = tid → (jobs' j).used = true ∧ (jobs' j).tid = tid)
    (hkeep : ¬ Calm pc → ∀ j, (jobs j).used = true → (jobs j).tid = tid → (jobs j).state = .sleeping →
      (S (jobs j).sleepUntil → jobs' j = jobs j ∧ S' (jobs j).sleepUntil) ∧
      (B (jobs j).sleepUntil → jobs' j = jobs j ∧ B' (jobs j).sleepUntil)) : PointOk S' B' jobs' tid x pc := by
  have hjob : ∀ i, HasJob jobs tid i → HasJob jobs' tid i := by
    rintro i ⟨j, hi, hu, ht⟩
    exact ⟨j, hi, hused j hu ht⟩
  cases pc with
  | idle | entered _ | spin _ | woken => exact trivial
  | time c _ => exact h
  | wake c ticks now => exact ⟨h.1, h.2.1, hjob 0 h.2.2⟩
  | scan c w i => exact ⟨h.1, h.2.1, hjob i h.2.2⟩
  | arm c w i =>
    obtain ⟨h1, h2, hu, ht⟩ := h
    exact ⟨h1, h2, hused i hu ht⟩
  | set c w i =>
    obtain ⟨h1, h2, hu, ht, hs, hS⟩ := h
    obtain ⟨he, hS'⟩ := (hkeep (fun hc => hc) i hu ht hs).1 hS
    simp only [PointOk, he]
    exact ⟨h1, h2, hu, ht, hs, hS'⟩
  | block c =>
    obtain ⟨h1, j, hu, ht, hs, hB⟩ := h
    obtain ⟨he, hB'⟩ := (hkeep (fun hc => hc) j hu ht hs).2 hB
    refine ⟨h1, j, ?_⟩
    rw [he]
    exact ⟨hu, ht, hs, hB'⟩

theorem Armed.congr (h : Armed B jobs tid) (hkeep : ∀ j, (jobs j).used = true → (jobs j).tid = tid → jobs' j = jobs j) :
    Armed B jobs' tid := by
  obtain ⟨j, hu, ht, hs, hB⟩ := h
  refine ⟨j, ?_⟩
  rw [hkeep j hu ht]
  exact ⟨hu, ht, hs, hB⟩

/-- Entries of other threads do not matter. -/
theorem PointOk.congr (h : PointOk S B jobs tid x pc)
    (hkeep : ∀ j, (jobs j).used = true → (jobs j).tid = tid → jobs' j = jobs j) : PointOk S B jobs' tid x pc := by
  refine h.mono ?_ ?_
  · intro j hu ht
    rw [hkeep j hu ht]
    exact ⟨hu, ht⟩
  · intro _ j hu ht _
    exact ⟨fun hS => ⟨hkeep j hu ht, hS⟩, fun hB => ⟨hkeep j hu ht, hB⟩⟩

theorem getThread_of_used (h : SleepInv S B a jobs) (hu : (a.table x).used = true) :
    a.getThread (a.table x).tid = some x := by
  refine firstFin_eq_some.mpr ⟨Nat.zero_le _, by simp [hu], ?_⟩
  intro y _ hy
  by_contra hne
  simp only [Bool.not_eq_false, Bool.and_eq_true, beq_iff_eq] at hne
  exact absurd (h.tids y x hne.1 hu hne.2) (ne_of_lt hy)

end Inv

/-! ## Calls of the scheduler -/

section Calls

variable {S B : UInt64 → Prop} {a a' : Fifo Point} {jobs : JobSlot → Job}

/-- The invariant for a table with the same threads, given the points. -/
theorem SleepInv.frame (h : SleepInv S B a jobs) (hf : TableFrame a.table a'.table)
    (hp : Points (fun x p => PointOk S B jobs (a.table x).tid x p.pc) (fun p => Calm p.pc) (fun p => Loose p.pc) a') :
    SleepInv S B a' jobs := by
  refine ⟨?_, ?_, ?_, ?_⟩
  · intro x y hx hy
    rw [hf.used] at hx hy
    rw [hf.tid, hf.tid]
    exact h.tids x y hx hy
  · intro x hx ht
    rw [hf.used] at hx
    exact h.alive x hx ((hf.terminated x).mp ht)
  · simpa only [hf.tid] using hp
  · intro x hx hb
    rw [hf.used] at hx
    rw [hf.tid]
    exact h.wakes x hx ((hf.blocked x).mp hb)

theorem schedule_sleep (hi : FifoInv a) (h : SleepInv S B a jobs) : SleepInv S B a.schedule jobs := by
  refine h.frame (schedule_frame hi.toFifoPre) (schedule_points hi.toFifoPre h.points ?_)
  intro c hc hb
  cases (hi.runs c hc).symm.trans hb

theorem scheduleIf_sleep {Q : Prop} [Decidable Q] (hi : FifoInv a) (h : SleepInv S B a jobs) :
    SleepInv S B (if Q then a.schedule else a) jobs := by
  split
  · exact schedule_sleep hi h
  · exact h

theorem tick_sleep (hi : FifoInv a) (h : SleepInv S B a jobs) : SleepInv S B a.tick jobs := by
  unfold Fifo.tick
  split
  · exact h
  · exact scheduleIf_sleep hi h

theorem yield_sleep (hi : FifoInv a) (h : SleepInv S B a jobs) : SleepInv S B a.yield jobs := by
  unfold Fifo.yield
  split
  · exact h
  · split
    · exact scheduleIf_sleep hi h
    · exact schedule_sleep hi h

theorem enable_sleep (hi : FifoInv a) (h : SleepInv S B a jobs) : SleepInv S B a.enable jobs := by
  have hon : SleepInv S B { a with schedulerEnabled := true } jobs :=
    ⟨h.tids, h.alive, ⟨h.points.stale, h.points.saved, h.points.cpu, h.points.idle⟩, h.wakes⟩
  exact scheduleIf_sleep ⟨⟨hi.members, hi.order, hi.current, hi.running, fun e => absurd e (by simp)⟩, hi.runs⟩ hon

/-- The processor moves on. -/
theorem SleepInv.cpu (h : SleepInv S B a jobs) {p : Point}
    (hcur : ∀ c, a.currentThread = some c → PointOk S B jobs (a.table c).tid c p.pc)
    (hnone : a.currentThread = none → Loose p.pc) : SleepInv S B { a with cpu := p } jobs :=
  ⟨h.tids, h.alive, ⟨h.points.stale, h.points.saved, hcur, hnone⟩, h.wakes⟩

theorem SleepInv.cpu_loose (h : SleepInv S B a jobs) {p : Point} (hp : Loose p.pc) :
    SleepInv S B { a with cpu := p } jobs :=
  h.cpu (fun _ _ => .loose hp) fun _ => hp

theorem exit_sleep (hi : FifoInv a) (h : SleepInv S B a jobs) (hcpu : Loose a.cpu.pc) : SleepInv S B a.exit jobs := by
  unfold Fifo.exit
  split
  · exact h
  · rename_i c hc
    have htable : ∀ x, ((a.retire c).table x).used = true → x ≠ c ∧ (a.retire c).table x = a.table x := by
      intro x hx
      rw [retire_table] at hx ⊢
      by_cases hxc : x = c
      · simp [hxc] at hx
      · exact ⟨hxc, if_neg hxc⟩
    have hcpu' : (a.retire c).cpu = a.cpu := by
      simp only [Fifo.retire, Fifo.leaveProcess]
      split <;> rfl
    refine schedule_sleep (retire_inv hi hc) ⟨?_, ?_, ⟨?_, ?_, ?_, ?_⟩, ?_⟩
    · intro x y hx hy
      obtain ⟨-, hxt⟩ := htable x hx
      obtain ⟨-, hyt⟩ := htable y hy
      rw [hxt] at hx ⊢
      rw [hyt] at hy ⊢
      exact h.tids x y hx hy
    · intro x hx
      obtain ⟨-, hxt⟩ := htable x hx
      rw [hxt] at hx ⊢
      exact h.alive x hx
    · intro x hx
      obtain ⟨-, hxt⟩ := htable x hx
      rw [hxt] at hx ⊢
      exact h.points.stale x hx
    · intro x hx _
      obtain ⟨hxc, hxt⟩ := htable x hx
      rw [hxt] at hx ⊢
      exact h.points.saved x hx fun e => hxc (Option.some.inj (e.symm.trans hc))
    · intro y hy
      cases hy
    · intro _
      rw [hcpu']
      exact hcpu
    · intro x hx
      obtain ⟨-, hxt⟩ := htable x hx
      rw [hxt] at hx ⊢
      exact h.wakes x hx

/-- A new thread has a new identifier and has not called anything yet. -/
theorem enter_sleep {slot : Slot} {proc : ProcSlot} (hi : FifoInv a) (h : SleepInv S B a jobs)
    (hfree : (a.table slot).used = false)
    (hnew : ∀ x, (a.table x).used = true → (a.table x).tid ≠ a.nextTid) :
    SleepInv S B (((a.enter slot proc .rest).record (.ready slot)).enqueue slot) jobs := by
  have htable : ∀ x, x ≠ slot → (((a.enter slot proc .rest).record (.ready slot)).enqueue slot).table x = a.table x :=
    fun x hx => if_neg hx
  have hself : (((a.enter slot proc .rest).record (.ready slot)).enqueue slot).table slot = { a.table slot with
      tid := a.nextTid, parent := some proc, state := .ready, used := true, next := none, context := .rest } :=
    if_pos rfl
  refine ⟨?_, ?_, ⟨?_, ?_, ?_, h.points.idle⟩, ?_⟩
  · intro x y hx hy ht
    by_cases hxs : x = slot <;> by_cases hys : y = slot
    · rw [hxs, hys]
    · rw [htable y hys] at hy ht
      rw [hxs, hself] at ht
      exact absurd ht.symm (hnew y hy)
    · rw [htable x hxs] at hx ht
      rw [hys, hself] at ht
      exact absurd ht (hnew x hx)
    · rw [htable x hxs] at hx ht
      rw [htable y hys] at hy ht
      exact h.tids x y hx hy ht
  · intro x hx
    by_cases hxs : x = slot
    · rw [hxs, hself]
      simp
    · rw [htable x hxs] at hx ⊢
      exact h.alive x hx
  · intro x hx hC
    by_cases hxs : x = slot
    · rw [hxs, hself]
      exact trivial
    · rw [htable x hxs] at hx hC ⊢
      exact h.points.stale x hx hC
  · intro x hx hne
    by_cases hxs : x = slot
    · rw [hxs, hself]
      exact ⟨trivial, fun _ => trivial⟩
    · rw [htable x hxs] at hx ⊢
      exact h.points.saved x hx hne
  · intro c hc
    by_cases hcs : c = slot
    · rw [hcs] at hc
      exact absurd ((hi.current slot hc).1.symm.trans hfree) (by simp)
    · simp only [htable c hcs]
      exact h.points.cpu c hc
  · intro x hx hb
    by_cases hxs : x = slot
    · rw [hxs, hself] at hb
      cases hb
    · rw [htable x hxs] at hx hb ⊢
      exact h.wakes x hx hb

theorem create_sleep (hi : FifoInv a) (h : SleepInv S B a jobs)
    (hnew : ∀ x, (a.table x).used = true → (a.table x).tid ≠ a.nextTid) (pid : UInt32) (stack : Bool) :
    SleepInv S B (a.create pid (some .rest) stack).2 jobs := by
  unfold Fifo.create
  split
  · rename_i entry proc hentry _
    cases hentry
    split
    · exact h
    · split
      · exact h
      · rename_i slot hslot
        split
        · exact h
        · have hfree : (a.table slot).used = false := by
            simpa using (firstFin_eq_some.mp hslot).2.1
          exact scheduleIf_sleep (enter_inv hi hfree proc .rest) (enter_sleep hi h hfree hnew)
  · exact h

end Calls

/-! ## `update_jobs_safe` -/

section Update

variable {S B : UInt64 → Prop} {a : Fifo Point} {jobs jobs' : JobSlot → Job} {now : UInt64}

/-- Changes to the job table that matter to no thread. -/
theorem SleepInv.jobs_mono (hi : FifoInv a) (h : SleepInv S B a jobs)
    (hused : ∀ x j, (a.table x).used = true → (jobs j).used = true → (jobs j).tid = (a.table x).tid →
      (jobs' j).used = true ∧ (jobs' j).tid = (a.table x).tid)
    (hkeep : ∀ x j, (a.table x).used = true → (jobs j).used = true → (jobs j).tid = (a.table x).tid →
      (jobs j).state = .sleeping → S (jobs j).sleepUntil ∨ B (jobs j).sleepUntil → jobs' j = jobs j)
    (hwakes : ∀ x j, (a.table x).used = true → (a.table x).state = .blocked → (jobs j).used = true →
      (jobs j).tid = (a.table x).tid → (jobs j).state = .sleeping → (jobs j).sleepUntil ≠ 0 → jobs' j = jobs j) :
    SleepInv S B a jobs' := by
  have hmono : ∀ x pc, (a.table x).used = true → PointOk S B jobs (a.table x).tid x pc →
      PointOk S B jobs' (a.table x).tid x pc := by
    intro x pc hx hp
    refine hp.mono (hused x · hx) ?_
    intro _ j hu ht hs
    exact ⟨fun hS => ⟨hkeep x j hx hu ht hs (Or.inl hS), hS⟩, fun hB => ⟨hkeep x j hx hu ht hs (Or.inr hB), hB⟩⟩
  refine ⟨h.tids, h.alive, ⟨?_, ?_, ?_, h.points.idle⟩, ?_⟩
  · intro x hx hC
    exact hmono x _ hx (h.points.stale x hx hC)
  · intro x hx hne
    obtain ⟨hp, hC⟩ := h.points.saved x hx hne
    exact ⟨hmono x _ hx hp, hC⟩
  · intro c hc
    exact hmono c _ (hi.current c hc).1 (h.points.cpu c hc)
  · intro x hx hb
    obtain ⟨j, hu, ht, hs, h0⟩ := h.wakes x hx hb
    refine ⟨j, ?_⟩
    rw [hwakes x j hx hb hu ht hs h0]
    exact ⟨hu, ht, hs, h0⟩

theorem setJob_of_ne (s : Sleepers) {i j : JobSlot} (job : Job) (h : j ≠ i) :
    (s.setJob i job).jobTable j = s.jobTable j := if_neg h

theorem setJob_self (s : Sleepers) (i : JobSlot) (job : Job) : (s.setJob i job).jobTable i = job := if_pos rfl

/-- An entry is changed, but stays the entry of its thread. -/
theorem setJob_keeps (s : Sleepers) {i : JobSlot} {job : Job} (hu : job.used = (s.jobTable i).used)
    (ht : job.tid = (s.jobTable i).tid) {j : JobSlot} {tid : UInt32} (hj : (s.jobTable j).used = true)
    (hjt : (s.jobTable j).tid = tid) :
    ((s.setJob i job).jobTable j).used = true ∧ ((s.setJob i job).jobTable j).tid = tid := by
  by_cases hji : j = i
  · subst hji
    rw [setJob_self, hu, ht]
    exact ⟨hj, hjt⟩
  · rw [setJob_of_ne s _ hji]
    exact ⟨hj, hjt⟩

theorem makeReady_sleep {t : Slot} (h : SleepInv S B a jobs) : SleepInv S B (a.makeReady t) jobs := by
  have hstate : ∀ x, ((a.makeReady t).table x).state = .blocked ↔ x ≠ t ∧ (a.table x).state = .blocked := by
    intro x
    show ((a.setState t .ready).table x).state = .blocked ↔ _
    rw [setState_table]
    by_cases hx : x = t <;> simp [hx]
  have hused : ∀ x, ((a.makeReady t).table x).used = (a.table x).used := fun x => setState_used a t x .ready
  have hcontext : ∀ x, ((a.makeReady t).table x).context = (a.table x).context := fun x => setState_context a t x .ready
  have htid : ∀ x, ((a.makeReady t).table x).tid = (a.table x).tid := fun x => setState_tid a t x .ready
  refine ⟨?_, ?_, ⟨?_, ?_, ?_, h.points.idle⟩, ?_⟩
  · intro x y hx hy
    rw [hused] at hx hy
    rw [htid, htid]
    exact h.tids x y hx hy
  · intro x hx
    rw [hused] at hx
    show ((a.setState t .ready).table x).state ≠ _
    rw [setState_table]
    by_cases hxt : x = t
    · simp [hxt]
    · rw [if_neg hxt]
      exact h.alive x hx
  · intro x hx
    rw [hused] at hx
    rw [hcontext, htid]
    exact h.points.stale x hx
  · intro x hx hne
    rw [hused] at hx
    rw [hcontext, htid, hstate]
    obtain ⟨hp, hC⟩ := h.points.saved x hx hne
    exact ⟨hp, fun hbl => hC hbl.2⟩
  · intro c hc
    rw [htid]
    exact h.points.cpu c hc
  · intro x hx hbl
    rw [hused] at hx
    rw [htid]
    exact h.wakes x hx ((hstate x).mp hbl).2

theorem getThread_some {tid : UInt32} {t : Slot} (ht : a.getThread tid = some t) :
    (a.table t).used = true ∧ (a.table t).tid = tid := by
  simpa using (firstFin_eq_some.mp ht).2.1

/-- After `thread_unblock` the thread is not blocked. -/
theorem unblock_sleep {tid : UInt32} {t : Slot} (h : SleepInv S B a jobs) (ht : a.getThread tid = some t) :
    SleepInv S B (a.unblock tid) jobs ∧ ((a.unblock tid).table t).state ≠ .blocked ∧
      ((a.unblock tid).table t).used = true ∧ ((a.unblock tid).table t).tid = tid := by
  obtain ⟨htu, htt⟩ := getThread_some ht
  simp only [Fifo.unblock, ht]
  split
  · rename_i hne
    exact ⟨h, hne, htu, htt⟩
  · refine ⟨makeReady_sleep h, ?_, ?_, ?_⟩
    · simp [Fifo.makeReady, Fifo.enqueue, Fifo.record, setState_table]
    · exact (setState_used a t t .ready).trans htu
    · exact (setState_tid a t t .ready).trans htt

/-- The state with its lists, between steps. -/
def Good (S B : UInt64 → Prop) (s : Sleepers) : Prop :=
  ∃ a, Rep s.sched a ∧ s.sched.inScheduler = false ∧ FifoInv a ∧ SleepInv S B a s.jobTable

/-- An iteration of `update_jobs_safe`, while no entry that a thread is arming is due. -/
theorem updateJob_good {s : Sleepers} (h : Good (now < ·) (now < ·) s) (i : JobSlot) :
    ∃ s', updateJob now s i = .ok s' ∧ Good (now < ·) (now < ·) s' := by
  obtain ⟨a, hrep, hidle, hi, hs⟩ := h
  have hpos : ∀ u : UInt64, now < u → u > 0 := by
    intro u hu
    rw [UInt64.lt_iff_toNat_lt] at hu
    rw [gt_iff_lt, UInt64.lt_iff_toNat_lt]
    exact lt_of_le_of_lt (Nat.zero_le _) hu
  unfold updateJob
  by_cases hused : (s.jobTable i).used = false
  · simp only [if_pos hused]
    exact ⟨s, rfl, a, hrep, hidle, hi, hs⟩
  · simp only [if_neg hused, hrep.getThread]
    cases ht : a.getThread (s.jobTable i).tid with
    | none =>
      refine ⟨_, rfl, a, hrep, hidle, hi, ?_⟩
      have hne : ∀ x j, (a.table x).used = true → (s.jobTable j).tid = (a.table x).tid → j ≠ i := by
        rintro x j hx hj rfl
        rw [hj, getThread_of_used hs hx] at ht
        cases ht
      refine hs.jobs_mono hi ?_ ?_ ?_
      · intro x j hx hu hj
        rw [setJob_of_ne s _ (hne x j hx hj)]
        exact ⟨hu, hj⟩
      · intro x j hx _ hj _ _
        exact setJob_of_ne s _ (hne x j hx hj)
      · intro x j hx _ _ hj _ _
        exact setJob_of_ne s _ (hne x j hx hj)
    | some t =>
      simp only [hrep.state_eq, if_neg (hs.alive t (getThread_some ht).1)]
      by_cases hsleep : (s.jobTable i).state = .sleeping ∧ (s.jobTable i).sleepUntil > 0
      · simp only [if_pos hsleep]
        by_cases hdue : now ≥ (s.jobTable i).sleepUntil
        · simp only [if_pos hdue]
          obtain ⟨s₁, hs₁, hrep₁, hidle₁⟩ := threadUnblock_spec hrep hidle hi.members (s.jobTable i).tid
          obtain ⟨hun, hblocked, htu', htt'⟩ := unblock_sleep hs ht
          refine ⟨_, by rw [hs₁]; rfl, _, hrep₁, hidle₁, unblock_inv hi _, ?_⟩
          refine hun.jobs_mono (unblock_inv hi _) ?_ ?_ ?_
          · intro x j _ hu hj
            exact setJob_keeps { s with sched := s₁ } (by rfl) (by rfl) hu hj
          · intro x j _ _ _ _ hlt
            refine setJob_of_ne { s with sched := s₁ } _ ?_
            rintro rfl
            exact absurd (hlt.elim id id) (UInt64.not_lt.mpr hdue)
          · intro x j hx hb _ hj _ _
            refine setJob_of_ne { s with sched := s₁ } _ ?_
            rintro rfl
            obtain rfl : x = t := hun.tids x t hx htu' (hj.symm.trans htt'.symm)
            exact hblocked hb
        · simp only [if_neg hdue]
          exact ⟨s, rfl, a, hrep, hidle, hi, hs⟩
      · simp only [if_neg hsleep]
        refine ⟨_, rfl, a, hrep, hidle, hi, ?_⟩
        refine hs.jobs_mono hi ?_ ?_ ?_
        · intro x j _ hu hj
          exact setJob_keeps s (by rfl) (by rfl) hu hj
        · intro x j _ _ _ hst hlt
          refine setJob_of_ne s _ ?_
          rintro rfl
          exact hsleep ⟨hst, hpos _ (hlt.elim id id)⟩
        · intro x j _ _ _ _ hst h0
          refine setJob_of_ne s _ ?_
          rintro rfl
          exact hsleep ⟨hst, by simpa [UInt64.pos_iff_ne_zero] using h0⟩

theorem updateJobs_good {s : Sleepers} (h : Good (now < ·) (now < ·) s) (l : List JobSlot) :
    ∃ s', l.foldlM (updateJob now) s = .ok s' ∧ Good (now < ·) (now < ·) s' := by
  induction l generalizing s with
  | nil => exact ⟨s, rfl, h⟩
  | cons i l ih =>
    obtain ⟨s₁, hs₁, h₁⟩ := updateJob_good h i
    obtain ⟨s', hs', h'⟩ := ih h₁
    refine ⟨s', ?_, h'⟩
    rw [List.foldlM_cons, hs₁]
    exact hs'

/-- Every entry that is being armed, or is armed for a thread that is not yet blocked, wakes it later than `now`. -/
def NotYetDue (now : UInt64) (s : Sleepers) : Prop :=
  ∀ j, (s.jobTable j).used = true → (s.jobTable j).state = .sleeping →
    ∀ t, getThread s.sched (s.jobTable j).tid = some t → (s.sched.threadTable t).state ≠ .blocked →
      now < (s.jobTable j).sleepUntil

theorem Good.notYetDue {s : Sleepers} (h : Good (fun _ => True) (· ≠ 0) s) (hdue : NotYetDue now s) :
    Good (now < ·) (now < ·) s := by
  obtain ⟨a, hrep, hidle, hi, hs⟩ := h
  have hlater : ∀ x j, (a.table x).used = true → (a.table x).state ≠ .blocked → (s.jobTable j).used = true →
      (s.jobTable j).tid = (a.table x).tid → (s.jobTable j).state = .sleeping → now < (s.jobTable j).sleepUntil := by
    intro x j hx hb hu ht hst
    refine hdue j hu hst x ?_ (by rw [hrep.state_eq]; exact hb)
    rw [hrep.getThread, ht]
    exact getThread_of_used hs hx
  have hmono : ∀ x pc, (a.table x).used = true → ((a.table x).state = .blocked → Calm pc) →
      PointOk (fun _ => True) (· ≠ 0) s.jobTable (a.table x).tid x pc →
      PointOk (now < ·) (now < ·) s.jobTable (a.table x).tid x pc := by
    intro x pc hx hb hp
    refine hp.mono (fun j hu ht => ⟨hu, ht⟩) ?_
    intro hcalm j hu ht hst
    have hlt := hlater x j hx (fun e => hcalm (hb e)) hu ht hst
    exact ⟨fun _ => ⟨rfl, hlt⟩, fun _ => ⟨rfl, hlt⟩⟩
  refine ⟨a, hrep, hidle, hi, hs.tids, hs.alive, ⟨?_, ?_, ?_, hs.points.idle⟩, hs.wakes⟩
  · intro x hx hC
    exact hmono x _ hx (fun _ => hC) (hs.points.stale x hx hC)
  · intro x hx hne
    obtain ⟨hp, hC⟩ := hs.points.saved x hx hne
    exact ⟨hmono x _ hx hC hp, hC⟩
  · intro c hc
    refine hmono c _ (hi.current c hc).1 (fun hb => ?_) (hs.points.cpu c hc)
    cases (hi.runs c hc).symm.trans hb

theorem Good.weaken {s : Sleepers} (h : Good (now < ·) (now < ·) s) : Good (fun _ => True) (· ≠ 0) s := by
  obtain ⟨a, hrep, hidle, hi, hs⟩ := h
  have hne : ∀ u : UInt64, now < u → u ≠ 0 := by
    rintro u hu rfl
    exact absurd hu (by simp)
  have hmono : ∀ x pc, PointOk (now < ·) (now < ·) s.jobTable (a.table x).tid x pc →
      PointOk (fun _ => True) (· ≠ 0) s.jobTable (a.table x).tid x pc := by
    intro x pc hp
    refine hp.mono (fun j hu ht => ⟨hu, ht⟩) ?_
    intro _ j _ _ _
    exact ⟨fun _ => ⟨rfl, trivial⟩, fun hlt => ⟨rfl, hne _ hlt⟩⟩
  refine ⟨a, hrep, hidle, hi, hs.tids, hs.alive, ⟨?_, ?_, ?_, hs.points.idle⟩, hs.wakes⟩
  · intro x hx hC
    exact hmono x _ (hs.points.stale x hx hC)
  · intro x hx hne
    obtain ⟨hp, hC⟩ := hs.points.saved x hx hne
    exact ⟨hmono x _ hp, hC⟩
  · intro c hc
    exact hmono c _ (hs.points.cpu c hc)

theorem updateJobsSafe_good {s : Sleepers} (h : Good (fun _ => True) (· ≠ 0) s)
    (hdue : s.jobsEnabled = true → NotYetDue (getUptimeMs s.timerTicks) s) :
    ∃ s', updateJobsSafe s = .ok s' ∧ Good (fun _ => True) (· ≠ 0) s' := by
  unfold updateJobsSafe
  by_cases he : s.jobsEnabled = false
  · rw [if_pos he]
    exact ⟨s, rfl, h⟩
  · rw [if_neg he]
    obtain ⟨s', hs', h'⟩ := updateJobs_good (h.notYetDue (hdue (by simpa using he))) (List.finRange 32)
    exact ⟨s', hs', h'.weaken⟩

end Update

/-! ## `sleep_ticks` -/

section Statements

variable {S B : UInt64 → Prop} {a : Fifo Point} {s : Sleepers}

theorem goto_rep (h : Rep s.sched a) (pc : Pc) : Rep (s.goto pc).sched { a with cpu := { a.cpu with pc } } := by
  refine ⟨h.queue, ?_⟩
  rw [← h.view]
  rfl

theorem FifoInv.cpu {π : Type} {a : Fifo π} (h : FifoInv a) (p : π) : FifoInv { a with cpu := p } :=
  ⟨⟨h.members, h.order, h.current, h.running, h.disabled⟩, h.runs⟩

theorem Good.goto (hrep : Rep s.sched a) (hidle : s.sched.inScheduler = false) (hi : FifoInv a)
    (hs : SleepInv S B a s.jobTable) {pc : Pc}
    (hcur : ∀ c, a.currentThread = some c → PointOk S B s.jobTable (a.table c).tid c pc)
    (hnone : a.currentThread = none → Loose pc) : Good S B (s.goto pc) :=
  ⟨_, goto_rep hrep pc, hidle, hi.cpu _, hs.cpu hcur hnone⟩

/-- The current thread goes on to a point that is in order. -/
theorem Good.goto_current (hrep : Rep s.sched a) (hidle : s.sched.inScheduler = false) (hi : FifoInv a)
    (hs : SleepInv S B a s.jobTable) {c : Slot} (hc : a.currentThread = some c) {pc : Pc}
    (hpc : PointOk S B s.jobTable (a.table c).tid c pc) : Good S B (s.goto pc) := by
  apply Good.goto hrep hidle hi hs
  · intro c' hc'
    cases hc.symm.trans hc'
    exact hpc
  · intro hnone
    cases hc.symm.trans hnone

theorem Good.goto_loose (h : Good S B s) {pc : Pc} (hpc : Loose pc) : Good S B (s.goto pc) := by
  obtain ⟨a, hrep, hidle, hi, hs⟩ := h
  exact .goto hrep hidle hi hs (fun _ _ => .loose hpc) fun _ => hpc

/-- The current thread changes an entry of its own and moves on to a point that the new table allows. -/
theorem Good.ownJob {c : Slot} {i : JobSlot} {job : Job} {pc : Pc} (hrep : Rep s.sched a)
    (hidle : s.sched.inScheduler = false) (hi : FifoInv a) (hs : SleepInv S B a s.jobTable)
    (hc : a.currentThread = some c) (htid : (s.jobTable i).tid = (a.table c).tid) (hju : job.used = (s.jobTable i).used)
    (hjt : job.tid = (s.jobTable i).tid) (hpc : PointOk S B (s.setJob i job).jobTable (a.table c).tid c pc) :
    Good S B ((s.setJob i job).goto pc) := by
  have hcu := (hi.current c hc).1
  have hother : ∀ x j, x ≠ c → (a.table x).used = true → (s.jobTable j).tid = (a.table x).tid →
      (s.setJob i job).jobTable j = s.jobTable j := by
    intro x j hxc hx hj
    refine setJob_of_ne s job ?_
    rintro rfl
    exact hxc (hs.tids x c hx hcu (hj.symm.trans htid))
  have hmono : ∀ x pc, x ≠ c ∨ Calm pc → (a.table x).used = true → PointOk S B s.jobTable (a.table x).tid x pc →
      PointOk S B (s.setJob i job).jobTable (a.table x).tid x pc := by
    intro x pc hor hx hp
    refine hp.mono (fun j hu ht => setJob_keeps s hju hjt hu ht) ?_
    intro hcalm j _ hj _
    have hkeep := hother x j (hor.resolve_right hcalm) hx hj
    exact ⟨fun hS => ⟨hkeep, hS⟩, fun hB => ⟨hkeep, hB⟩⟩
  have hs' : SleepInv S B { a with cpu := { a.cpu with pc } } (s.setJob i job).jobTable := by
    refine ⟨hs.tids, hs.alive, ⟨?_, ?_, ?_, ?_⟩, ?_⟩
    · intro x hx hC
      exact hmono x _ (Or.inr hC) hx (hs.points.stale x hx hC)
    · intro x hx hne
      obtain ⟨hp, hC⟩ := hs.points.saved x hx hne
      refine ⟨hmono x _ (Or.inl fun e => hne ?_) hx hp, hC⟩
      rw [e]
      exact hc
    · intro c' hc'
      cases hc.symm.trans hc'
      exact hpc
    · intro hnone
      cases hc.symm.trans hnone
    · intro x hx hb
      have hxc : x ≠ c := by
        rintro rfl
        cases (hi.runs x hc).symm.trans hb
      exact (hs.wakes x hx hb).congr fun j _ hj => hother x j hxc hx hj
  exact ⟨_, goto_rep (s := s.setJob i job) hrep pc, hidle, hi.cpu _, hs'⟩

/-- `thread_block` of the current thread, whose entry is armed. -/
theorem threadBlock_good {c : Slot} (hrep : Rep s.sched a) (hidle : s.sched.inScheduler = false) (hi : FifoInv a)
    (hs : SleepInv S B a s.jobTable) (hc : a.currentThread = some c) (hcpu : Loose a.cpu.pc)
    (harmed : Armed (· ≠ 0) s.jobTable (a.table c).tid) (hcalm : a.queue ≠ [] ∨ Calm (a.table c).context.pc) :
    ∃ sched, threadBlock s.sched (s.sched.threadTable c).tid = .ok sched ∧ Good S B { s with sched } := by
  have hcu := (hi.current c hc).1
  rw [hrep.tid_eq]
  obtain ⟨sched, hsched, hrep', hidle'⟩ := threadBlock_spec hrep hidle (a.table c).tid
  refine ⟨sched, hsched, _, hrep', hidle', block_inv hi _, ?_⟩
  have hblock : a.block (a.table c).tid = (a.stop c).schedule := by
    unfold Fifo.block
    simp only [getThread_of_used hs hcu, hi.runs c hc, hc]
    rfl
  rw [hblock]
  have htable : ∀ x, x ≠ c → (a.stop c).table x = a.table x := fun x hx => if_neg hx
  have hused : ∀ x, ((a.stop c).table x).used = (a.table x).used := fun x => setState_used a c x .blocked
  have hcontext : ∀ x, ((a.stop c).table x).context = (a.table x).context :=
    fun x => setState_context a c x .blocked
  have htids : ∀ x, ((a.stop c).table x).tid = (a.table x).tid := fun x => setState_tid a c x .blocked
  have hstop : SleepInv S B (a.stop c) s.jobTable := by
    refine ⟨?_, ?_, ⟨?_, ?_, ?_, ?_⟩, ?_⟩
    · intro x y hx hy
      rw [hused] at hx hy
      rw [htids, htids]
      exact hs.tids x y hx hy
    · intro x hx
      rw [hused] at hx
      by_cases hxc : x = c
      · simp [hxc, Fifo.stop, Fifo.record, setState_table]
      · rw [htable x hxc]
        exact hs.alive x hx
    · intro x hx
      rw [hused] at hx
      rw [hcontext, htids]
      exact hs.points.stale x hx
    · intro x hx hne
      have hxc : x ≠ c := fun e => hne (e ▸ hc)
      rw [htable x hxc] at hx ⊢
      exact hs.points.saved x hx hne
    · intro _ _
      exact .loose hcpu
    · intro _
      exact hcpu
    · intro x hx hb
      rw [htids]
      by_cases hxc : x = c
      · rw [hxc]
        exact harmed
      · rw [htable x hxc] at hx hb
        exact hs.wakes x hx hb
  refine hstop.frame (schedule_frame (stop_pre hi)) (schedule_points (stop_pre hi) hstop.points ?_)
  intro c' hc' _
  cases hc.symm.trans hc'
  refine ⟨hcpu.calm, fun hnil => ⟨?_, hcpu⟩⟩
  have hout : c ∉ a.queue := hi.notMem (by simp [hi.runs c hc])
  have herase : (a.stop c).queue = a.queue := List.erase_of_not_mem hout
  rw [hcontext]
  exact hcalm.resolve_left fun hne => hne (herase.symm.trans hnil)

/-- What the next statement of `sleep_ticks` needs. -/
def StatementSafe (s : Sleepers) : Pc → Prop
  | .time current ticks => HasJob s.jobTable (s.sched.threadTable current).tid 0 ∧
    wakeTimeMs (getUptimeMs s.timerTicks) ticks ≠ 0
  | .block current => s.sched.readyQueueHead ≠ none ∨ Calm (s.sched.threadTable current).context.pc
  | _ => True

theorem sleepTicks_good (h : Good (fun _ => True) (· ≠ 0) s) (hsafe : StatementSafe s s.sched.cpu.pc) :
    ∃ s', sleepTicks s = .ok s' ∧ Good (fun _ => True) (· ≠ 0) s' := by
  obtain ⟨a, hrep, hidle, hi, hs⟩ := h
  have hpoint := hs.points.cpu
  have hloose := hs.points.idle
  rw [← hrep.cpu_eq] at hpoint hloose
  unfold sleepTicks
  generalize hpc : s.sched.cpu.pc = pc at hsafe hpoint hloose
  -- outside of the points without a current thread, there is one
  have hsome : ¬ Loose pc → ∃ c, a.currentThread = some c := by
    intro hl
    cases hc : a.currentThread with
    | none => exact absurd (hloose hc) hl
    | some c => exact ⟨c, rfl⟩
  cases pc with
  | idle => exact ⟨s, rfl, a, hrep, hidle, hi, hs⟩
  | entered ticks =>
    simp only [hrep.current_eq]
    cases hc : a.currentThread with
    | none => exact ⟨_, rfl, Good.goto_loose ⟨a, hrep, hidle, hi, hs⟩ trivial⟩
    | some c => exact ⟨_, rfl, .goto_current hrep hidle hi hs hc rfl⟩
  | spin target =>
    refine ⟨_, rfl, ?_⟩
    split
    · exact ⟨a, hrep, hidle, hi, hs⟩
    · exact Good.goto_loose ⟨a, hrep, hidle, hi, hs⟩ trivial
  | time current ticks =>
    obtain ⟨c, hc⟩ := hsome id
    obtain rfl : current = c := hpoint c hc
    rw [StatementSafe, hrep.tid_eq] at hsafe
    exact ⟨_, rfl, .goto_current hrep hidle hi hs hc ⟨rfl, hsafe.2, hsafe.1⟩⟩
  | wake current ticks currentTime =>
    obtain ⟨c, hc⟩ := hsome id
    obtain ⟨rfl, hw, hjob⟩ := hpoint c hc
    exact ⟨_, rfl, .goto_current hrep hidle hi hs hc ⟨rfl, hw, hjob⟩⟩
  | scan current wakeTime i =>
    obtain ⟨c, hc⟩ := hsome id
    obtain ⟨rfl, hw, j, hij, hju, hjt⟩ := hpoint c hc
    have hlt : i < 32 := lt_of_le_of_lt hij j.isLt
    simp only [dif_pos hlt, hrep.tid_eq]
    by_cases hfound : (s.jobTable ⟨i, hlt⟩).used = true ∧ (s.jobTable ⟨i, hlt⟩).tid = (a.table current).tid
    · rw [if_pos hfound]
      exact ⟨_, rfl, .goto_current hrep hidle hi hs hc ⟨rfl, hw, hfound⟩⟩
    · rw [if_neg hfound]
      refine ⟨_, rfl, .goto_current hrep hidle hi hs hc ⟨rfl, hw, j, ?_, hju, hjt⟩⟩
      -- the entry that exists is not the one just tested
      rcases Nat.lt_or_ge i j.val with h | h
      · exact h
      · have hji : j = ⟨i, hlt⟩ := Fin.ext (le_antisymm h hij)
        rw [hji] at hju hjt
        exact absurd ⟨hju, hjt⟩ hfound
  | arm current wakeTime i =>
    obtain ⟨c, hc⟩ := hsome id
    obtain ⟨rfl, hw, hju, hjt⟩ := hpoint c hc
    refine ⟨_, rfl, .ownJob hrep hidle hi hs hc hjt (by rfl) (by rfl) ?_⟩
    simp only [PointOk, setJob_self]
    exact ⟨trivial, hw, hju, hjt, trivial, trivial⟩
  | set current wakeTime i =>
    obtain ⟨c, hc⟩ := hsome id
    obtain ⟨rfl, hw, hju, hjt, hst, -⟩ := hpoint c hc
    refine ⟨_, rfl, .ownJob hrep hidle hi hs hc hjt (by rfl) (by rfl) ⟨rfl, i, ?_⟩⟩
    simp only [setJob_self]
    exact ⟨hju, hjt, hst, hw⟩
  | block current =>
    obtain ⟨c, hc⟩ := hsome id
    obtain ⟨rfl, harmed⟩ := hpoint c hc
    have hcalm : a.queue ≠ [] ∨ Calm (a.table current).context.pc := by
      rw [← hrep.context_eq]
      exact hsafe.imp_left fun hne hnil => hne (hrep.head_eq_none.mpr hnil)
    obtain ⟨sched, hsched, hgood⟩ := threadBlock_good (s := s.goto .woken) (goto_rep hrep .woken) hidle (hi.cpu _)
      (hs.cpu_loose trivial) hc trivial harmed hcalm
    simp only [hsched, ok_bind]
    exact ⟨_, rfl, hgood⟩
  | woken =>
    obtain ⟨sched, hsched, hrep', hidle'⟩ := schedule_spec (goto_rep hrep .idle) hidle
      (Fifo.Members.currentOut (a := { a with cpu := { a.cpu with pc := .idle } }) hi.members)
    simp only [hsched, ok_bind]
    exact ⟨_, rfl, _, hrep', hidle', schedule_inv (hi.cpu _).toFifoPre,
      schedule_sleep (hi.cpu _) (hs.cpu_loose (p := { a.cpu with pc := .idle }) trivial)⟩

end Statements

/-! ## Runs -/

section Steps

variable {s : Sleepers}

/-- What a step needs. -/
def SleepSafe (s : Sleepers) : SleepOp → Prop
  | .create _ _ => s.sched.cpu = .rest → ∀ t, (s.sched.threadTable t).used = true →
    (s.sched.threadTable t).tid ≠ s.sched.nextTid
  | .exec =>
    match s.sched.cpu.pending with
    | 0 => StatementSafe s s.sched.cpu.pc
    | _ + 1 => s.jobsEnabled = true → NotYetDue (getUptimeMs s.timerTicks) s
  | _ => True

/-- The number of pending handlers does not matter. -/
theorem Good.pending (h : Good (fun _ => True) (· ≠ 0) s) (pending : Nat) :
    Good (fun _ => True) (· ≠ 0) { s with sched := { s.sched with cpu := { s.sched.cpu with pending } } } := by
  obtain ⟨a, hrep, hidle, hi, hs⟩ := h
  have hrep' : Rep { s.sched with cpu := { s.sched.cpu with pending } } { a with cpu := { a.cpu with pending } } := by
    refine ⟨hrep.queue, ?_⟩
    rw [← hrep.view]
    rfl
  exact ⟨_, hrep', hidle, hi.cpu _, hs.cpu (fun c hc => hs.points.cpu c hc) fun hc => hs.points.idle hc⟩

theorem timerHandler_good (h : Good (fun _ => True) (· ≠ 0) s) :
    ∃ s', timerHandler s = .ok s' ∧ Good (fun _ => True) (· ≠ 0) s' := by
  obtain ⟨a, hrep, hidle, hi, hs⟩ := h.pending (s.sched.cpu.pending + 1)
  obtain ⟨sched, hsched, hrep', hidle'⟩ := schedulerTick_spec hrep hidle hi.members
  simp only [timerHandler, hsched, ok_bind]
  exact ⟨_, rfl, _, hrep', hidle', step_inv hi .tick, tick_sleep hi hs⟩

theorem execNext_good (h : Good (fun _ => True) (· ≠ 0) s) (hsafe : SleepSafe s .exec) :
    ∃ s', execNext s = .ok s' ∧ Good (fun _ => True) (· ≠ 0) s' := by
  unfold SleepSafe at hsafe
  unfold execNext
  cases hp : s.sched.cpu.pending with
  | zero =>
    rw [hp] at hsafe
    exact sleepTicks_good h hsafe
  | succ n =>
    rw [hp] at hsafe
    exact updateJobsSafe_good (h.pending n) hsafe

theorem addJob_good (h : Good (fun _ => True) (· ≠ 0) s) (tid : UInt32) :
    Good (fun _ => True) (· ≠ 0) (addJob s tid).2 := by
  unfold addJob
  split
  · exact h
  · rename_i slot hslot
    obtain ⟨a, hrep, hidle, hi, hs⟩ := h
    have hfree : (s.jobTable slot).used = false := by simpa using (firstFin_eq_some.mp hslot).2.1
    have hkeep : ∀ j job, (s.jobTable j).used = true → (s.setJob slot job).jobTable j = s.jobTable j := by
      intro j job hu
      refine setJob_of_ne s job ?_
      rintro rfl
      cases hu.symm.trans hfree
    refine ⟨a, hrep, hidle, hi, hs.jobs_mono hi ?_ ?_ ?_⟩
    · intro x j _ hu hj
      simp only [hkeep j _ hu]
      exact ⟨hu, hj⟩
    · intro x j _ hu _ _ _
      exact hkeep j _ hu
    · intro x j _ _ hu _ _ _
      exact hkeep j _ hu

theorem call_good {f : Sched Point → Except SchedFault (Sched Point)} {sched : Sched Point} (hf : f s.sched = .ok sched)
    (h : Good (fun _ => True) (· ≠ 0) { s with sched }) :
    ∃ r s', s.call f = .ok (r, s') ∧ Good (fun _ => True) (· ≠ 0) s' :=
  ⟨0, { s with sched }, by simp only [Sleepers.call, hf, ok_bind], h⟩

theorem sleepStep_good {op : SleepOp} (h : Good (fun _ => True) (· ≠ 0) s) (hsafe : SleepSafe s op) :
    ∃ r s', sleepStep s op = .ok (r, s') ∧ Good (fun _ => True) (· ≠ 0) s' := by
  unfold sleepStep
  by_cases hrest : s.sched.cpu = .rest
  · obtain ⟨a, hrep, hidle, hi, hs⟩ := id h
    have hcpu : Loose a.cpu.pc := by
      rw [← hrep.cpu_eq, hrest]
      exact trivial
    cases op with
    | exec =>
      obtain ⟨s', hs', h'⟩ := execNext_good h hsafe
      exact ⟨0, s', by simp only [hs', ok_bind], h'⟩
    | timer =>
      obtain ⟨s', hs', h'⟩ := timerHandler_good h
      exact ⟨0, s', by simp only [hs', ok_bind], h'⟩
    | create pid stack =>
      obtain ⟨sched, hsched, hrep', hidle'⟩ := threadCreate_spec hrep hidle hi.members pid (some .rest) stack
      have hnew : ∀ x, (a.table x).used = true → (a.table x).tid ≠ a.nextTid := by
        intro x hx
        have hview := hsafe hrest x
        rw [← hrep.view] at hx ⊢
        exact hview hx
      simp only [hrest, ne_eq, not_true_eq_false, if_false, hsched, ok_bind]
      exact ⟨_, _, rfl, _, hrep', hidle', create_inv hi pid _ stack, create_sleep hi hs hnew pid stack⟩
    | addJob tid =>
      refine ⟨(addJob s tid).1, (addJob s tid).2, ?_, addJob_good h tid⟩
      simp [hrest]
    | enable =>
      obtain ⟨sched, hsched, hrep', hidle'⟩ := schedulerEnable_spec hrep hidle hi.members
      simp only [hrest, ne_eq, not_true_eq_false, if_false]
      exact call_good hsched ⟨_, hrep', hidle', enable_inv hi, enable_sleep hi hs⟩
    | yield =>
      obtain ⟨sched, hsched, hrep', hidle'⟩ := threadYield_spec hrep hidle hi.members
      simp only [hrest, ne_eq, not_true_eq_false, if_false]
      exact call_good hsched ⟨_, hrep', hidle', step_inv hi .yield, yield_sleep hi hs⟩
    | exit =>
      obtain ⟨sched, hsched, hrep', hidle'⟩ := threadExit_spec hrep hidle
      simp only [hrest, ne_eq, not_true_eq_false, if_false]
      exact call_good hsched ⟨_, hrep', hidle', exit_inv hi, exit_sleep hi hs hcpu⟩
    | sleep ticks =>
      simp only [hrest, ne_eq, not_true_eq_false, if_false]
      refine ⟨0, _, rfl, ?_⟩
      split
      · exact h
      · exact h.goto_loose trivial
  · cases op with
    | exec =>
      obtain ⟨s', hs', h'⟩ := execNext_good h hsafe
      exact ⟨0, s', by simp only [hs', ok_bind], h'⟩
    | timer =>
      obtain ⟨s', hs', h'⟩ := timerHandler_good h
      exact ⟨0, s', by simp only [hs', ok_bind], h'⟩
    | create | addJob | enable | yield | exit | sleep => exact ⟨0, s, if_pos hrest, h⟩

theorem sleepInit_good (s₀ : Sleepers) : Good (fun _ => True) (· ≠ 0) (sleepInit s₀) := by
  have hunused : ∀ x, (((schedulerInit s₀.sched).toFifo []).table x).used ≠ true := by
    intro x
    simp [Sched.toFifo, schedulerInit, Thread.bare]
  refine ⟨{ (schedulerInit s₀.sched).toFifo [] with cpu := .rest }, ⟨.nil, rfl⟩, rfl,
    (schedulerInit_inv s₀.sched).cpu .rest, ?_, ?_, ⟨?_, ?_, ?_, fun _ => trivial⟩, ?_⟩
  · intro x _ hx
    exact absurd hx (hunused x)
  · intro x hx
    exact absurd hx (hunused x)
  · intro x hx
    exact absurd hx (hunused x)
  · intro x hx
    exact absurd hx (hunused x)
  · intro c hc
    cases hc
  · intro x hx
    exact absurd hx (hunused x)

/-- **No wake-up is lost** in any state of any run whose steps are safe. -/
theorem wakeup_run (s₀ : Sleepers) {ops : List SleepOp} (hops : Along sleepStep SleepSafe (sleepInit s₀) ops) :
    ∃ rs s, runFrom sleepStep (sleepInit s₀) ops = .ok (rs, s) ∧ NoLostWakeup s := by
  obtain ⟨rs, s, hrun, a, hrep, -, -, hs⟩ :=
    runFrom_inv _ (fun _ _ => sleepStep_good) (sleepInit_good s₀) hops
  refine ⟨rs, s, hrun, ?_⟩
  intro t hu hb
  have hwake := hs.wakes t
  rw [← hrep.view] at hwake
  exact hwake hu hb

end Steps

/-! ## Two runs -/

instance : DecidablePred Calm
  | .set _ _ _ | .block _ => .isFalse id
  | .idle | .entered _ | .spin _ | .time _ _ | .wake _ _ _ | .scan _ _ _ | .arm _ _ _ | .woken => .isTrue trivial

instance (jobs : JobSlot → Job) (tid : UInt32) (i : Nat) : Decidable (HasJob jobs tid i) :=
  inferInstanceAs (Decidable (∃ j : JobSlot, i ≤ j.val ∧ (jobs j).used = true ∧ (jobs j).tid = tid))

instance (jobs : JobSlot → Job) (tid : UInt32) : Decidable (Armed (· ≠ 0) jobs tid) :=
  inferInstanceAs (Decidable (∃ j, (jobs j).used = true ∧ (jobs j).tid = tid ∧ (jobs j).state = .sleeping ∧
    (jobs j).sleepUntil ≠ 0))

instance (now : UInt64) (s : Sleepers) : Decidable (NotYetDue now s) :=
  inferInstanceAs (Decidable (∀ j, (s.jobTable j).used = true → (s.jobTable j).state = .sleeping →
    ∀ t, getThread s.sched (s.jobTable j).tid = some t → (s.sched.threadTable t).state ≠ .blocked →
      now < (s.jobTable j).sleepUntil))

instance (s : Sleepers) : ∀ pc, Decidable (StatementSafe s pc)
  | .time current ticks => inferInstanceAs (Decidable (HasJob s.jobTable (s.sched.threadTable current).tid 0 ∧
      wakeTimeMs (getUptimeMs s.timerTicks) ticks ≠ 0))
  | .block current => inferInstanceAs
    (Decidable (s.sched.readyQueueHead ≠ none ∨ Calm (s.sched.threadTable current).context.pc))
  | .idle | .entered _ | .spin _ | .wake _ _ _ | .scan _ _ _ | .arm _ _ _ | .set _ _ _ | .woken => .isTrue trivial

instance (s : Sleepers) : ∀ op, Decidable (SleepSafe s op)
  | .create _ _ => inferInstanceAs (Decidable (s.sched.cpu = .rest → ∀ t, (s.sched.threadTable t).used = true →
      (s.sched.threadTable t).tid ≠ s.sched.nextTid))
  | .exec => by
    unfold SleepSafe
    cases s.sched.cpu.pending <;> infer_instance
  | .addJob _ | .enable | .yield | .exit | .sleep _ | .timer => .isTrue trivial

/-- One process, no threads and no jobs. -/
def bootSleepers : Sleepers where
  sched := { bootSched with
    threadTable := fun _ => ⟨0, none, .terminated, .rest, none, false⟩, cpu := .rest, log := [] }
  jobTable _ := ⟨false, 0, 0, .done, 0⟩
  nextJobId := 1
  jobsEnabled := false
  timerTicks := 0

/-- Of two threads the first sleeps for two ticks; the timer interrupts the other. -/
def napOps : List SleepOp :=
  [.create 1 true, .addJob 1, .create 1 true, .enable, .sleep 2, .exec, .exec, .exec, .exec, .exec, .exec, .exec,
    .timer, .exec]

theorem wakeup_run_napOps : ∃ rs s, runFrom sleepStep (sleepInit bootSleepers) napOps = .ok (rs, s) ∧ NoLostWakeup s :=
  wakeup_run bootSleepers (by decide +kernel)

/-- A thread sleeps for one tick, and the timer interrupts it between `job->sleep_until = wake_time_ms` and
`thread_block`. -/
def shortNapOps : List SleepOp :=
  [.create 1 true, .addJob 1, .enable, .sleep 1, .exec, .exec, .exec, .exec, .exec, .exec, .timer, .exec, .exec]

/-- The timer wakes the thread before it sleeps, and disarms its entry. -/
theorem shortNapOps_lost :
    ∃ rs s, runFrom sleepStep (sleepInit bootSleepers) shortNapOps = .ok (rs, s) ∧ ¬ NoLostWakeup s := by
  obtain ⟨out, hrun, hlost⟩ := exists_ok_of_map
    (f := fun out : List Int × Sleepers => decide ((out.2.sched.threadTable 0).used = true ∧
      (out.2.sched.threadTable 0).state = .blocked ∧
      ¬ Armed (· ≠ 0) out.2.jobTable (out.2.sched.threadTable 0).tid))
    (show (runFrom sleepStep (sleepInit bootSleepers) shortNapOps).toOption.map _ = some true by decide)
  obtain ⟨hused, hblocked, hnone⟩ := of_decide_eq_true hlost
  exact ⟨out.1, out.2, hrun, fun hno => hnone (hno 0 hused hblocked)⟩

end AmqOs.Processes
