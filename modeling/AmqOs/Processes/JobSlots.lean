import AmqOs.Processes.SleepTimes
import AmqOs.Processes.ThreadLists

/-!
# Job slots

An entry of the job table is released when `update_jobs_safe` finds its thread gone. The entry of a background job goes
with its thread; the one that `process_command` adds for a foreground sleep is for the shell itself, and stays.

Over a run, the entries whose threads are live at the end only become more: `Leaks` says of a step that it adds one. So the
table holds as many entries after a run as before it if and only if no step leaks, and no two are for the same live
thread if and only if none is added for a live thread that has one (`job_slots_run`).
-/

set_option autoImplicit false

namespace AmqOs.Processes

open AmqOs.Lib

/-! ## Live threads -/

section Live

variable {π : Type} {s s' s'' : Sched π} {tid : UInt32}

/-- There is a used thread with the id. -/
def Live (s : Sched π) (tid : UInt32) : Prop := ∃ x, (s.threadTable x).used = true ∧ (s.threadTable x).tid = tid

/-- The scheduler between calls. -/
def Sound (s : Sched π) : Prop := ∃ a, Rep s a ∧ s.inScheduler = false ∧ FifoInv a ∧ Alive a

theorem Alive.step {a : Fifo π} (h : Alive a) (op : SchedOp π) : Alive (a.step op).2 := by
  rcases step_owners a op with hs | ⟨pid, _, _, entry, proc, slot, -, -, -, -, hs⟩ | ⟨c, hc, hs⟩
  · exact hs.alive h
  · refine hs.alive fun x hu => ?_
    show (if x = slot then _ else a.table x).state ≠ _
    change (if x = slot then _ else a.table x).used = true at hu
    by_cases hx : x = slot
    · rw [if_pos hx]
      simp
    · rw [if_neg hx] at hu ⊢
      exact h x hu
  · refine hs.alive fun x hu => ?_
    rw [retire_table] at hu ⊢
    by_cases hx : x = c
    · simp [hx] at hu
    · rw [if_neg hx] at hu ⊢
      exact h x hu

/-- The same threads are used. -/
structure SameThreads (s s' : Sched π) : Prop where
  nextTid : s'.nextTid = s.nextTid
  used : ∀ x, (s'.threadTable x).used = (s.threadTable x).used
  tid : ∀ x, (s'.threadTable x).tid = (s.threadTable x).tid

/-- No thread is created. -/
structure NoNew (s s' : Sched π) : Prop where
  nextTid : s'.nextTid = s.nextTid
  slots : ∀ x, (s'.threadTable x).used = true →
    (s.threadTable x).used = true ∧ (s'.threadTable x).tid = (s.threadTable x).tid

/-- One thread is created, with the next id. -/
structure NewThread (s s' : Sched π) (slot : Slot) : Prop where
  nextTid : s'.nextTid = s.nextTid + 1
  free : (s.threadTable slot).used = false
  used : (s'.threadTable slot).used = true
  tid : (s'.threadTable slot).tid = s.nextTid
  slots : ∀ x, x ≠ slot → (s'.threadTable x).used = true →
    (s.threadTable x).used = true ∧ (s'.threadTable x).tid = (s.threadTable x).tid

theorem SameThreads.refl (s : Sched π) : SameThreads s s := ⟨rfl, fun _ => rfl, fun _ => rfl⟩

theorem SameThreads.trans (h : SameThreads s s') (h' : SameThreads s' s'') : SameThreads s s'' :=
  ⟨h'.nextTid.trans h.nextTid, fun x => (h'.used x).trans (h.used x), fun x => (h'.tid x).trans (h.tid x)⟩

theorem SameThreads.live (h : SameThreads s s') (tid : UInt32) : Live s' tid ↔ Live s tid := by
  unfold Live
  simp only [h.used, h.tid]

theorem SameThreads.noNew (h : SameThreads s s') : NoNew s s' :=
  ⟨h.nextTid, fun x hu => ⟨(h.used x).symm.trans hu, h.tid x⟩⟩

theorem NoNew.live (h : NoNew s s') (ht : Live s' tid) : Live s tid := by
  obtain ⟨x, hu, hx⟩ := ht
  obtain ⟨hused, htid⟩ := h.slots x hu
  exact ⟨x, hused, htid.symm.trans hx⟩

theorem NewThread.live {slot : Slot} (h : NewThread s s' slot) (ht : Live s' tid) : Live s tid ∨ tid = s.nextTid := by
  obtain ⟨x, hu, hx⟩ := ht
  by_cases hslot : x = slot
  · subst hslot
    exact Or.inr (hx.symm.trans h.tid)
  · obtain ⟨hused, htid⟩ := h.slots x hslot hu
    exact Or.inl ⟨x, hused, htid.symm.trans hx⟩

theorem SameOwners.sameThreads {a a' : Fifo π} (h : SameOwners a a') (hrep : Rep s a) (hrep' : Rep s' a') :
    SameThreads s s' := by
  refine ⟨?_, fun x => ?_, fun x => ?_⟩
  · rw [hrep'.nextTid_eq, hrep.nextTid_eq, h.nextTid]
  · rw [hrep'.used_eq, hrep.used_eq, h.used]
  · rw [hrep'.tid_eq, hrep.tid_eq, h.tid]

theorem SameOwners.newThread {a a' : Fifo π} {proc : ProcSlot} {slot : Slot} {entry : π}
    (h : SameOwners (a.enter slot proc entry) a') (hfree : (a.table slot).used = false) (hrep : Rep s a)
    (hrep' : Rep s' a') : NewThread s s' slot := by
  have hself : ((a.enter slot proc entry).table slot).used = true ∧
      ((a.enter slot proc entry).table slot).tid = a.nextTid := by
    simp [Fifo.enter, Fifo.modify, Fifo.modifyProcess, Fifo.record]
  have hother : ∀ x, x ≠ slot → (a.enter slot proc entry).table x = a.table x := by
    intro x hx
    simp [Fifo.enter, Fifo.modify, Fifo.modifyProcess, Fifo.record, hx]
  refine ⟨?_, ?_, ?_, ?_, fun x hx hu => ?_⟩
  · rw [hrep'.nextTid_eq, hrep.nextTid_eq, h.nextTid]
    rfl
  · rw [hrep.used_eq]
    exact hfree
  · rw [hrep'.used_eq, h.used]
    exact hself.1
  · rw [hrep'.tid_eq, h.tid, hrep.nextTid_eq]
    exact hself.2
  · rw [hrep'.used_eq, h.used, hother x hx] at hu
    rw [hrep'.tid_eq, h.tid, hother x hx, hrep.used_eq, hrep.tid_eq]
    exact ⟨hu, rfl⟩

/-- What a call of the scheduler does to live threads: only a creation makes one, with the next id. -/
theorem Sound.step (h : Sound s) (op : SchedOp π) : ∃ r s', schedStep s op = .ok (r, s') ∧ Sound s' ∧
    (NoNew s s' ∨ (∃ pid entryPoint stack, op = .create pid entryPoint stack) ∧ ∃ slot, NewThread s s' slot) := by
  obtain ⟨a, hrep, hidle, hi, ha⟩ := h
  obtain ⟨s', hs', hrep', hidle'⟩ := schedStep_refines hrep hidle hi.members op
  refine ⟨_, s', hs', ⟨_, hrep', hidle', step_inv hi op, ha.step op⟩, ?_⟩
  rcases step_owners a op with hs | ⟨pid, entryPoint, stack, entry, proc, slot, rfl, -, -, hfree, hs⟩ | ⟨c, hc, hs⟩
  · exact Or.inl (hs.sameThreads hrep hrep').noNew
  · exact Or.inr ⟨⟨pid, entryPoint, stack, rfl⟩, slot, hs.newThread hfree hrep hrep'⟩
  · refine Or.inl ⟨?_, fun x hu => ?_⟩
    · rw [hrep'.nextTid_eq, hrep.nextTid_eq, hs.nextTid, retire_nextTid]
    · rw [hrep'.used_eq, hs.used, retire_table] at hu
      rw [hrep'.tid_eq, hs.tid, retire_table, hrep.used_eq, hrep.tid_eq]
      by_cases hx : x = c
      · simp [hx] at hu
      · rw [if_neg hx] at hu ⊢
        exact ⟨hu, rfl⟩

theorem NoNew.refl (s : Sched π) : NoNew s s := ⟨rfl, fun _ hu => ⟨hu, rfl⟩⟩

theorem NoNew.trans (h : NoNew s s') (h' : NoNew s' s'') : NoNew s s'' := by
  refine ⟨h'.nextTid.trans h.nextTid, fun x hu => ?_⟩
  obtain ⟨hu', ht'⟩ := h'.slots x hu
  obtain ⟨hused, htid⟩ := h.slots x hu'
  exact ⟨hused, ht'.trans htid⟩

/-- A call that is no creation. -/
theorem Sound.call (h : Sound s) (op : SchedOp π) {r : Int} (hs : schedStep s op = .ok (r, s'))
    (hop : ∀ pid entryPoint stack, op ≠ .create pid entryPoint stack) : Sound s' ∧ NoNew s s' := by
  obtain ⟨r', s₁, hs₁, hsound, hnew⟩ := h.step op
  cases hs.symm.trans hs₁
  refine ⟨hsound, hnew.resolve_right ?_⟩
  rintro ⟨⟨pid, entryPoint, stack, rfl⟩, -⟩
  exact hop pid entryPoint stack rfl

theorem Sound.cpu (h : Sound s) (cpu : π) : Sound { s with cpu } := by
  obtain ⟨a, hrep, hidle, hi, ha⟩ := h
  have hrep' : Rep { s with cpu } { a with cpu } := by
    refine ⟨hrep.queue, ?_⟩
    rw [← hrep.view]
    rfl
  exact ⟨_, hrep', hidle, hi.cpu cpu, ha⟩

theorem Sound.unblock (h : Sound s) (hs : threadUnblock s tid = .ok s') : Sound s' ∧ SameThreads s s' := by
  obtain ⟨a, hrep, hidle, hi, ha⟩ := h
  obtain ⟨s₁, hs₁, hrep₁, hidle₁⟩ := threadUnblock_spec hrep hidle hi.members tid
  cases hs.symm.trans hs₁
  have hsame := unblock_owners a tid
  exact ⟨⟨_, hrep₁, hidle₁, unblock_inv hi tid, hsame.alive ha⟩, hsame.sameThreads hrep hrep₁⟩

theorem not_live_of_getThread (h : getThread s tid = none) : ¬Live s tid := by
  rintro ⟨x, hu, ht⟩
  have hx := firstFin_eq_none.mp h x (Nat.zero_le _)
  simp [hu, ht] at hx

theorem live_of_getThread {x : Slot} (h : getThread s tid = some x) : Live s tid := by
  have hx := (firstFin_eq_some.mp h).2.1
  simp only [Bool.and_eq_true, beq_iff_eq] at hx
  exact ⟨x, hx⟩

theorem Sound.alive (h : Sound s) {x : Slot} (hx : getThread s tid = some x) :
    (s.threadTable x).state ≠ .terminated := by
  obtain ⟨a, hrep, -, -, ha⟩ := h
  rw [hrep.getThread] at hx
  rw [hrep.state_eq]
  have hfound := (firstFin_eq_some.mp hx).2.1
  simp only [Bool.and_eq_true] at hfound
  exact ha x hfound.1

end Live

/-! ## The sweep of `update_jobs_safe` -/

section Sweep

variable {s s' : Sleepers} {i : JobSlot} {now : UInt64}

/-- The entries of `l` are released that have no live thread; nothing else changes in entries and threads. -/
structure Sweeps (l : List JobSlot) (s s' : Sleepers) : Prop where
  sound : Sound s'.sched
  threads : SameThreads s.sched s'.sched
  tid : ∀ j, (s'.jobTable j).tid = (s.jobTable j).tid
  swept : ∀ j ∈ l, ((s'.jobTable j).used = true ↔ (s.jobTable j).used = true ∧ Live s.sched (s.jobTable j).tid)
  other : ∀ j, j ∉ l → (s'.jobTable j).used = (s.jobTable j).used
  enabled : s'.jobsEnabled = s.jobsEnabled

theorem Sweeps.setJob {sched : Sched Point} (hsound : Sound sched) (hthreads : SameThreads s.sched sched)
    {job : Job} (htid : job.tid = (s.jobTable i).tid)
    (hused : job.used = true ↔ (s.jobTable i).used = true ∧ Live s.sched (s.jobTable i).tid) :
    Sweeps [i] s ({ s with sched }.setJob i job) := by
  have hself : ({ s with sched }.setJob i job).jobTable i = job := setJob_self _ i job
  have hother : ∀ j, j ≠ i → ({ s with sched }.setJob i job).jobTable j = s.jobTable j := fun j hj => setJob_of_ne _ job hj
  refine ⟨hsound, hthreads, fun j => ?_, fun j hj => ?_, fun j hj => ?_, rfl⟩
  · by_cases hj : j = i
    · rw [hj, hself, htid]
    · rw [hother j hj]
  · rw [List.mem_singleton.mp hj, hself]
    exact hused
  · rw [hother j fun e => hj (List.mem_singleton.mpr e)]

theorem Sweeps.same (h : Sound s.sched) (hi : (s.jobTable i).used = true → Live s.sched (s.jobTable i).tid) :
    Sweeps [i] s s :=
  ⟨h, .refl _, fun _ => rfl, fun _ hj => by
    rw [List.mem_singleton.mp hj]
    exact ⟨fun hu => ⟨hu, hi hu⟩, And.left⟩, fun _ _ => rfl, rfl⟩

theorem updateJob_sweeps (h : Sound s.sched) (hs : updateJob now s i = .ok s') : Sweeps [i] s s' := by
  unfold updateJob at hs
  simp only at hs
  split at hs
  · rename_i hfree
    obtain rfl := Except.ok.inj hs
    exact .same h fun hu => absurd (hu.symm.trans hfree) (by simp)
  · rename_i hused
    replace hused : (s.jobTable i).used = true := by simpa using hused
    cases ht : getThread s.sched (s.jobTable i).tid with
    | none =>
      rw [ht] at hs
      obtain rfl := Except.ok.inj hs
      refine .setJob h (.refl _) rfl ?_
      simp [not_live_of_getThread ht]
    | some t =>
      have hlive := live_of_getThread ht
      rw [ht] at hs
      simp only [if_neg (h.alive ht)] at hs
      split at hs
      · split at hs
        · obtain ⟨sched, hsched, hs⟩ := bind_eq_ok.mp hs
          obtain rfl := Except.ok.inj hs
          obtain ⟨hsound, hsame⟩ := h.unblock hsched
          refine .setJob hsound hsame rfl ?_
          simp [hused, hlive]
        · obtain rfl := Except.ok.inj hs
          exact .same h fun _ => hlive
      · obtain rfl := Except.ok.inj hs
        refine .setJob h (.refl _) rfl ?_
        simp [hused, hlive]

theorem updateJobs_sweeps {l : List JobSlot} (hl : l.Nodup) (h : Sound s.sched)
    (hs : l.foldlM (updateJob now) s = .ok s') : Sweeps l s s' := by
  induction l generalizing s with
  | nil =>
    obtain rfl := Except.ok.inj hs
    exact ⟨h, .refl _, fun _ => rfl, fun j hj => absurd hj List.not_mem_nil, fun _ _ => rfl, rfl⟩
  | cons i l ih =>
    rw [List.foldlM_cons] at hs
    obtain ⟨s₁, hs₁, hs⟩ := bind_eq_ok.mp hs
    have h₁ := updateJob_sweeps h hs₁
    have h₂ := ih (List.nodup_cons.mp hl).2 h₁.sound hs
    have hil := (List.nodup_cons.mp hl).1
    refine ⟨h₂.sound, h₁.threads.trans h₂.threads, fun j => (h₂.tid j).trans (h₁.tid j), fun j hj => ?_, fun j hj => ?_,
      h₂.enabled.trans h₁.enabled⟩
    · rcases List.mem_cons.mp hj with rfl | hjl
      · rw [h₂.other j hil]
        exact h₁.swept j List.mem_cons_self
      · have hji : j ∉ [i] := fun e => hil (List.mem_singleton.mp e ▸ hjl)
        rw [h₂.swept j hjl, h₁.other j hji, h₁.threads.live, h₁.tid]
    · have hji : j ∉ [i] := fun e => hj (List.mem_singleton.mp e ▸ List.mem_cons_self)
      rw [h₂.other j fun e => hj (List.mem_cons_of_mem i e), h₁.other j hji]

/-- **The sweep.** `update_jobs_safe` releases the entries that have no live thread. -/
theorem updateJobsSafe_sweeps (h : Sound s.sched) (hon : s.jobsEnabled = true) (hs : updateJobsSafe s = .ok s') :
    Sweeps (List.finRange 32) s s' := by
  unfold updateJobsSafe at hs
  rw [if_neg (by simp [hon])] at hs
  exact updateJobs_sweeps (List.nodup_finRange 32) h hs

end Sweep

/-! ## What a step does -/

section Steps

variable {s s' : Sleepers}

/-- No thread is created, and the entries stay as they are, states and wake times aside. -/
structure Quiet (s s' : Sleepers) : Prop where
  sound : Sound s'.sched
  noNew : NoNew s.sched s'.sched
  jobs : ∀ i, (s'.jobTable i).used = (s.jobTable i).used ∧ (s'.jobTable i).tid = (s.jobTable i).tid
  enabled : s'.jobsEnabled = s.jobsEnabled

theorem Quiet.refl (h : Sound s.sched) : Quiet s s := ⟨h, NoNew.refl _, fun _ => ⟨rfl, rfl⟩, rfl⟩

theorem Quiet.goto (h : Quiet s s') (pc : Pc) : Quiet s (s'.goto pc) :=
  ⟨h.sound.cpu _, ⟨h.noNew.nextTid, h.noNew.slots⟩, h.jobs, h.enabled⟩

theorem Quiet.setJob (h : Sound s.sched) (i : JobSlot) {job : Job} (hu : job.used = (s.jobTable i).used)
    (ht : job.tid = (s.jobTable i).tid) : Quiet s (s.setJob i job) := by
  refine ⟨h, NoNew.refl _, fun j => ?_, rfl⟩
  by_cases hj : j = i
  · rw [hj, setJob_self]
    exact ⟨hu, ht⟩
  · rw [setJob_of_ne s job hj]
    exact ⟨rfl, rfl⟩

/-- A call of the scheduler that is no creation. -/
theorem Quiet.call (h : Quiet s s') (op : SchedOp Point) {r : Int} {sched : Sched Point}
    (hs : schedStep s'.sched op = .ok (r, sched)) (hop : ∀ pid entryPoint stack, op ≠ .create pid entryPoint stack) :
    Quiet s { s' with sched } := by
  obtain ⟨hsound, hnew⟩ := h.sound.call op hs hop
  exact ⟨hsound, h.noNew.trans hnew, h.jobs, h.enabled⟩

theorem sleepTicks_quiet (h : Sound s.sched) (hs : sleepTicks s = .ok s') : Quiet s s' := by
  have hrefl := Quiet.refl h
  unfold sleepTicks at hs
  cases hpc : s.sched.cpu.pc with
  | idle =>
    simp only [hpc] at hs
    obtain rfl := Except.ok.inj hs
    exact hrefl
  | entered ticks =>
    simp only [hpc] at hs
    split at hs
    · obtain rfl := Except.ok.inj hs
      exact hrefl.goto _
    · obtain rfl := Except.ok.inj hs
      exact hrefl.goto _
  | spin target =>
    simp only [hpc] at hs
    obtain rfl := Except.ok.inj hs
    split
    · exact hrefl
    · exact hrefl.goto _
  | time current ticks =>
    simp only [hpc] at hs
    obtain rfl := Except.ok.inj hs
    exact hrefl.goto _
  | wake current ticks currentTime =>
    simp only [hpc] at hs
    obtain rfl := Except.ok.inj hs
    exact hrefl.goto _
  | scan current wakeTime i =>
    simp only [hpc] at hs
    split at hs
    · split at hs
      · obtain rfl := Except.ok.inj hs
        exact hrefl.goto _
      · obtain rfl := Except.ok.inj hs
        exact hrefl.goto _
    · obtain rfl := Except.ok.inj hs
      exact hrefl.goto _
  | arm current wakeTime i =>
    simp only [hpc] at hs
    obtain rfl := Except.ok.inj hs
    exact (Quiet.setJob h i (by rfl) (by rfl)).goto _
  | set current wakeTime i =>
    simp only [hpc] at hs
    obtain rfl := Except.ok.inj hs
    exact (Quiet.setJob h i (by rfl) (by rfl)).goto _
  | block current =>
    simp only [hpc] at hs
    obtain ⟨sched, hsched, hs⟩ := bind_eq_ok.mp hs
    obtain rfl := Except.ok.inj hs
    exact (hrefl.goto .woken).call (.block ((s.goto .woken).sched.threadTable current).tid) (r := 0)
      (by rw [schedStep, hsched]; rfl) (by simp)
  | woken =>
    simp only [hpc] at hs
    obtain ⟨sched, hsched, hs⟩ := bind_eq_ok.mp hs
    obtain rfl := Except.ok.inj hs
    exact (hrefl.goto .idle).call .schedule (r := 0) (by rw [schedStep, hsched]; rfl) (by simp)

/-- What a step does to the entries. -/
inductive JobStep (s : Sleepers) (op : SleepOp) (s' : Sleepers) : Prop
  /-- none comes or goes; a job that was to be added found no free entry -/
  | same (jobs : ∀ i, (s'.jobTable i).used = (s.jobTable i).used ∧ (s'.jobTable i).tid = (s.jobTable i).tid)
      (full : ∀ tid, op = .addJob tid → s.sched.cpu = .rest → ∀ i, (s.jobTable i).used = true)
  /-- a job is added -/
  | add (tid : UInt32) (i : JobSlot) (call : op = .addJob tid) (rest : s.sched.cpu = .rest)
      (free : (s.jobTable i).used = false) (used : (s'.jobTable i).used = true) (tid_eq : (s'.jobTable i).tid = tid)
      (other : ∀ j, j ≠ i → s'.jobTable j = s.jobTable j) (sched : s'.sched = s.sched)
  /-- entries without a live thread are released -/
  | sweep (call : op = .exec) (swept : Sweeps (List.finRange 32) s s')

/-- What a step does. -/
structure StepEffect (s : Sleepers) (op : SleepOp) (s' : Sleepers) : Prop where
  sound : Sound s'.sched
  enabled : s'.jobsEnabled = s.jobsEnabled
  jobs : JobStep s op s'
  threads : NoNew s.sched s'.sched ∨ (∃ pid stack, op = .create pid stack) ∧ ∃ slot, NewThread s.sched s'.sched slot

theorem Quiet.effect (h : Quiet s s') {op : SleepOp} (hop : ∀ tid, op = .addJob tid → ¬s.sched.cpu = .rest) :
    StepEffect s op s' :=
  ⟨h.sound, h.enabled, .same h.jobs fun tid ht hr => absurd hr (hop tid ht), Or.inl h.noNew⟩

theorem addJob_effect (h : Sound s.sched) (hrest : s.sched.cpu = .rest) (tid : UInt32) :
    StepEffect s (.addJob tid) (addJob s tid).2 := by
  unfold addJob
  cases hfree : firstFin 0 fun i => !(s.jobTable i).used with
  | none =>
    refine ⟨h, rfl, .same (fun _ => ⟨rfl, rfl⟩) fun _ _ _ i => ?_, Or.inl (NoNew.refl _)⟩
    simpa using firstFin_eq_none.mp hfree i (Nat.zero_le _)
  | some slot =>
    refine ⟨h, rfl, .add tid slot rfl hrest ?_ ?_ ?_ (fun j hj => ?_) rfl, Or.inl (NoNew.refl _)⟩
    · simpa using (firstFin_eq_some.mp hfree).2.1
    · exact congrArg Job.used (setJob_self s slot _)
    · exact congrArg Job.tid (setJob_self s slot _)
    · exact setJob_of_ne s _ hj

theorem execNext_effect (h : Sound s.sched) (hon : s.jobsEnabled = true) (hs : execNext s = .ok s') :
    StepEffect s .exec s' := by
  unfold execNext at hs
  cases hp : s.sched.cpu.pending with
  | zero =>
    rw [hp] at hs
    exact (sleepTicks_quiet h hs).effect fun _ ht => by cases ht
  | succ pending =>
    rw [hp] at hs
    have hsweep := updateJobsSafe_sweeps
      (s := { s with sched := { s.sched with cpu := { s.sched.cpu with pending } } }) (h.cpu _) hon hs
    exact ⟨hsweep.sound, hsweep.enabled, .sweep rfl
      ⟨hsweep.sound, ⟨hsweep.threads.nextTid, hsweep.threads.used, hsweep.threads.tid⟩, hsweep.tid, hsweep.swept,
        hsweep.other, hsweep.enabled⟩,
      Or.inl ⟨hsweep.threads.nextTid, hsweep.threads.noNew.slots⟩⟩

theorem timerHandler_effect (h : Sound s.sched) (hs : timerHandler s = .ok s') : StepEffect s .timer s' := by
  obtain ⟨sched, hsched, hs⟩ := bind_eq_ok.mp hs
  obtain rfl := Except.ok.inj hs
  obtain ⟨hsound, hnew⟩ := (h.cpu { s.sched.cpu with pending := s.sched.cpu.pending + 1 }).call .tick (r := 0)
    (by rw [schedStep, hsched]; rfl) (by simp)
  exact ⟨hsound, rfl, .same (fun _ => ⟨rfl, rfl⟩) fun tid ht => (by cases ht), Or.inl ⟨hnew.nextTid, hnew.slots⟩⟩

/-- A call of the scheduler, as a step. -/
theorem call_effect (h : Sound s.sched) {f : Sched Point → Except SchedFault (Sched Point)} {op : SleepOp} {r : Int}
    (hs : s.call f = .ok (r, s')) (sop : SchedOp Point) (hf : ∀ sched, f s.sched = .ok sched →
      schedStep s.sched sop = .ok (0, sched)) (hsop : ∀ pid entryPoint stack, sop ≠ .create pid entryPoint stack)
    (hop : ∀ tid, op ≠ .addJob tid) : StepEffect s op s' := by
  obtain ⟨sched, hsched, hs⟩ := bind_eq_ok.mp hs
  obtain ⟨-, rfl⟩ := Prod.mk.inj (Except.ok.inj hs)
  exact ((Quiet.refl h).call sop (hf sched hsched) hsop).effect fun tid ht => absurd ht (hop tid)

/-- A call from code that is not running. -/
theorem skip_effect (h : Sound s.sched) (hrest : s.sched.cpu ≠ .rest) {op : SleepOp} {r : Int}
    {x : Except SchedFault (Int × Sleepers)} (hs : (if s.sched.cpu ≠ .rest then .ok (0, s) else x) = .ok (r, s')) :
    StepEffect s op s' := by
  rw [if_pos hrest] at hs
  obtain ⟨-, rfl⟩ := Prod.mk.inj (Except.ok.inj hs)
  exact (Quiet.refl h).effect fun _ _ => hrest

/-- **What a step does** to entries and threads. -/
theorem sleepStep_effect (h : Sound s.sched) (hon : s.jobsEnabled = true) {op : SleepOp} {r : Int}
    (hs : sleepStep s op = .ok (r, s')) : StepEffect s op s' := by
  unfold sleepStep at hs
  cases op with
  | exec =>
    obtain ⟨s₁, hs₁, hs⟩ := bind_eq_ok.mp hs
    obtain ⟨-, rfl⟩ := Prod.mk.inj (Except.ok.inj hs)
    exact execNext_effect h hon hs₁
  | timer =>
    obtain ⟨s₁, hs₁, hs⟩ := bind_eq_ok.mp hs
    obtain ⟨-, rfl⟩ := Prod.mk.inj (Except.ok.inj hs)
    exact timerHandler_effect h hs₁
  | create pid stack =>
    by_cases hrest : s.sched.cpu = .rest
    · simp only [hrest, ne_eq, not_true_eq_false, if_false] at hs
      obtain ⟨⟨tid, sched⟩, hsched, hs⟩ := bind_eq_ok.mp hs
      obtain ⟨-, rfl⟩ := Prod.mk.inj (Except.ok.inj hs)
      obtain ⟨_, sched', hstep, hsound, hnew⟩ := h.step (.create pid (some .rest) stack)
      cases hsched.symm.trans hstep
      refine ⟨hsound, rfl, .same (fun _ => ⟨rfl, rfl⟩) fun tid ht => (by cases ht), ?_⟩
      exact hnew.imp_right fun hcreate => ⟨⟨pid, stack, rfl⟩, hcreate.2⟩
    · exact skip_effect h hrest hs
  | addJob tid =>
    by_cases hrest : s.sched.cpu = .rest
    · simp only [hrest, ne_eq, not_true_eq_false, if_false] at hs
      obtain ⟨-, rfl⟩ := Prod.mk.inj (Except.ok.inj hs)
      exact addJob_effect h hrest tid
    · exact skip_effect h hrest hs
  | enable =>
    by_cases hrest : s.sched.cpu = .rest
    · simp only [hrest, ne_eq, not_true_eq_false, if_false] at hs
      exact call_effect h hs .enable (fun _ hf => by rw [schedStep, hf]; rfl) (by simp) (by simp)
    · exact skip_effect h hrest hs
  | yield =>
    by_cases hrest : s.sched.cpu = .rest
    · simp only [hrest, ne_eq, not_true_eq_false, if_false] at hs
      exact call_effect h hs .yield (fun _ hf => by rw [schedStep, hf]; rfl) (by simp) (by simp)
    · exact skip_effect h hrest hs
  | exit =>
    by_cases hrest : s.sched.cpu = .rest
    · simp only [hrest, ne_eq, not_true_eq_false, if_false] at hs
      exact call_effect h hs .exit (fun _ hf => by rw [schedStep, hf]; rfl) (by simp) (by simp)
    · exact skip_effect h hrest hs
  | sleep ticks =>
    by_cases hrest : s.sched.cpu = .rest
    · simp only [hrest, ne_eq, not_true_eq_false, if_false] at hs
      obtain ⟨-, rfl⟩ := Prod.mk.inj (Except.ok.inj hs)
      split
      · exact (Quiet.refl h).effect fun tid ht => (by cases ht)
      · exact ((Quiet.refl h).goto _).effect fun tid ht => (by cases ht)
    · exact skip_effect h hrest hs

end Steps

/-! ## Runs -/

section Runs

variable {s s₀ s₁ s₂ : Sleepers} {op : SleepOp} {ops : List SleepOp} {r : Int} {rs : List Int}

/-- The ids do not run out, and jobs are added for threads that have been created. -/
def IdsOk (s : Sleepers) : SleepOp → Prop
  | .create _ _ => s.sched.nextTid.toNat + 1 < 2 ^ 32
  | .addJob tid => tid.toNat < s.sched.nextTid.toNat
  | _ => True

structure JobInv (s : Sleepers) : Prop where
  sound : Sound s.sched
  enabled : s.jobsEnabled = true
  issued : ∀ i, (s.jobTable i).used = true → (s.jobTable i).tid.toNat < s.sched.nextTid.toNat

theorem StepEffect.nextTid_le (h : StepEffect s op s₁) (hids : IdsOk s op) :
    s.sched.nextTid.toNat ≤ s₁.sched.nextTid.toNat := by
  rcases h.threads with hnone | ⟨⟨pid, stack, rfl⟩, slot, hnew⟩
  · rw [hnone.nextTid]
  · have hfit : s.sched.nextTid.toNat + 1 < 2 ^ 32 := hids
    rw [hnew.nextTid, UInt32.toNat_add]
    show _ ≤ (s.sched.nextTid.toNat + 1) % 2 ^ 32
    omega

theorem JobInv.step (h : JobInv s) (hids : IdsOk s op) (hs : StepEffect s op s₁) : JobInv s₁ := by
  refine ⟨hs.sound, hs.enabled.trans h.enabled, fun i hi => lt_of_lt_of_le ?_ (hs.nextTid_le hids)⟩
  cases hs.jobs with
  | same jobs =>
    rw [(jobs i).1] at hi
    rw [(jobs i).2]
    exact h.issued i hi
  | add tid k call rest free used tid_eq other =>
    by_cases hik : i = k
    · subst call
      rw [hik, tid_eq]
      exact hids
    · rw [other i hik] at hi ⊢
      exact h.issued i hi
  | sweep call swept =>
    rw [swept.tid]
    exact h.issued i ((swept.swept i (List.mem_finRange i)).mp hi).1

/-- The steps of a run, with the invariant. -/
theorem exists_step_of_run (h : JobInv s) (hids : Along sleepStep IdsOk s (op :: ops))
    (hrun : runFrom sleepStep s (op :: ops) = .ok (rs, s₂)) :
    ∃ r s₁ rs', sleepStep s op = .ok (r, s₁) ∧ StepEffect s op s₁ ∧ JobInv s₁ ∧ Along sleepStep IdsOk s₁ ops ∧
      runFrom sleepStep s₁ ops = .ok (rs', s₂) := by
  obtain ⟨r, s₁, rs', hs, hrest, -⟩ := exists_of_runFrom_cons hrun
  have heffect := sleepStep_effect h.sound h.enabled hs
  exact ⟨r, s₁, rs', hs, heffect, h.step hids.1 heffect, hids.2 r s₁ hs, hrest⟩

/-- A thread that is live after a step and was created before it was live before it. -/
theorem StepEffect.live_before (h : StepEffect s op s₁) {tid : UInt32} (ht : tid.toNat < s.sched.nextTid.toNat)
    (hlive : Live s₁.sched tid) : Live s.sched tid := by
  rcases h.threads with hnone | ⟨-, slot, hnew⟩
  · exact hnone.live hlive
  · refine (hnew.live hlive).resolve_right ?_
    rintro rfl
    exact lt_irrefl _ ht

/-- The same for a run. -/
theorem live_before (h : JobInv s) (hids : Along sleepStep IdsOk s ops)
    (hrun : runFrom sleepStep s ops = .ok (rs, s₂)) {tid : UInt32} (ht : tid.toNat < s.sched.nextTid.toNat)
    (hlive : Live s₂.sched tid) : Live s.sched tid := by
  induction ops generalizing s rs with
  | nil =>
    obtain ⟨-, rfl⟩ := Prod.mk.inj (Except.ok.inj hrun)
    exact hlive
  | cons op ops ih =>
    obtain ⟨r, s₁, rs', -, heffect, h₁, hids₁, hrest⟩ := exists_step_of_run h hids hrun
    exact heffect.live_before ht (ih h₁ hids₁ hrest (lt_of_lt_of_le ht (heffect.nextTid_le hids.1)))

/-! ### One entry for each thread -/

/-- No two used entries are for the same live thread. -/
def OneEach (s : Sleepers) : Prop :=
  ∀ i j, (s.jobTable i).used = true → (s.jobTable j).used = true → (s.jobTable i).tid = (s.jobTable j).tid →
    Live s.sched (s.jobTable i).tid → i = j

/-- A job is added for a live thread that has an entry. -/
def Doubles (s : Sleepers) : SleepOp → Prop
  | .addJob tid => s.sched.cpu = .rest ∧ (∃ i, (s.jobTable i).used = false) ∧ Live s.sched tid ∧
      ∃ i, (s.jobTable i).used = true ∧ (s.jobTable i).tid = tid
  | _ => False

/-- `P` holds after the step. -/
def After (P : Sleepers → Prop) (s : Sleepers) (op : SleepOp) : Prop :=
  ∀ r s', sleepStep s op = .ok (r, s') → P s'

/-- Nothing changes but that threads may be gone. -/
theorem OneEach.same (hone : OneEach s)
    (hjobs : ∀ i, (s₁.jobTable i).used = (s.jobTable i).used ∧ (s₁.jobTable i).tid = (s.jobTable i).tid)
    (hlive : ∀ i, (s.jobTable i).used = true → Live s₁.sched (s.jobTable i).tid → Live s.sched (s.jobTable i).tid) :
    OneEach s₁ := by
  intro i j hi hj hij hl
  rw [(hjobs i).1] at hi
  rw [(hjobs j).1] at hj
  rw [(hjobs i).2, (hjobs j).2] at hij
  rw [(hjobs i).2] at hl
  exact hone i j hi hj hij (hlive i hi hl)

/-- An entry is added. -/
theorem oneEach_add {tid : UInt32} {k : JobSlot} (hone : OneEach s) (free : (s.jobTable k).used = false)
    (used : (s₁.jobTable k).used = true) (tid_eq : (s₁.jobTable k).tid = tid)
    (other : ∀ j, j ≠ k → s₁.jobTable j = s.jobTable j) (sched : s₁.sched = s.sched) :
    OneEach s₁ ↔ ¬(Live s.sched tid ∧ ∃ i, (s.jobTable i).used = true ∧ (s.jobTable i).tid = tid) := by
  constructor
  · rintro hone₁ ⟨hlive, j, hj, hjt⟩
    have hjk : j ≠ k := by
      rintro rfl
      cases hj.symm.trans free
    refine hjk (hone₁ j k (by rwa [other j hjk]) used ?_ ?_)
    · rw [other j hjk, hjt, tid_eq]
    · rw [other j hjk, hjt, sched]
      exact hlive
  · intro hd i j hi hj hij hlive
    -- no old entry is for the thread of the new one
    have hold : Live s.sched tid → ∀ j, (s.jobTable j).used = true → (s.jobTable j).tid ≠ tid :=
      fun hl j hj hjt => hd ⟨hl, j, hj, hjt⟩
    rw [sched] at hlive
    by_cases hik : i = k
    · subst hik
      by_cases hji : j = i
      · exact hji.symm
      · rw [other j hji, tid_eq] at hij
        rw [other j hji] at hj
        rw [tid_eq] at hlive
        exact absurd hij.symm (hold hlive j hj)
    · rw [other i hik] at hi hij hlive
      by_cases hjk : j = k
      · subst hjk
        rw [tid_eq] at hij
        rw [hij] at hlive
        exact absurd hij (hold hlive i hi)
      · rw [other j hjk] at hj hij
        exact hone i j hi hj hij hlive

theorem oneEach_step (h : JobInv s) (hone : OneEach s) (hs : StepEffect s op s₁) : OneEach s₁ ↔ ¬Doubles s op := by
  cases hs.jobs with
  | same jobs full =>
    refine ⟨fun _ hd => ?_, fun _ => hone.same jobs fun i hi => hs.live_before (h.issued i hi)⟩
    cases op with
    | addJob tid =>
      obtain ⟨hrest, ⟨i, hi⟩, -⟩ := hd
      cases (full tid rfl hrest i).symm.trans hi
    | create | enable | yield | exit | sleep | exec | timer => exact hd
  | add tid k call rest free used tid_eq other sched =>
    subst call
    rw [oneEach_add hone free used tid_eq other sched]
    exact not_congr ⟨fun hd => ⟨rest, ⟨k, free⟩, hd⟩, fun hd => hd.2.2⟩
  | sweep call swept =>
    subst call
    refine ⟨fun _ hd => hd, fun _ i j hi hj hij hlive => ?_⟩
    have hall := fun i => swept.swept i (List.mem_finRange i)
    rw [swept.tid, swept.tid] at hij
    exact hone i j ((hall i).mp hi).1 ((hall j).mp hj).1 hij ((hall i).mp hi).2

/-- An addition of a job returns. -/
theorem Doubles.returns (h : Doubles s op) : ∃ r s', sleepStep s op = .ok (r, s') := by
  cases op with
  | addJob tid => exact ⟨_, _, if_neg fun hne => hne h.1⟩
  | create | enable | yield | exit | sleep | exec | timer => exact h.elim

theorem oneEach_run (h : JobInv s) (hids : Along sleepStep IdsOk s ops) (hone : OneEach s) :
    Along sleepStep (After OneEach) s ops ↔ Along sleepStep (fun s op => ¬Doubles s op) s ops := by
  induction ops generalizing s with
  | nil => exact Iff.rfl
  | cons op ops ih =>
    have hstep : ∀ r s', sleepStep s op = .ok (r, s') →
        (OneEach s' ↔ ¬Doubles s op) ∧ JobInv s' ∧ Along sleepStep IdsOk s' ops := by
      intro r s' hs
      have heffect := sleepStep_effect h.sound h.enabled hs
      exact ⟨oneEach_step h hone heffect, h.step hids.1 heffect, hids.2 r s' hs⟩
    constructor
    · rintro ⟨hafter, hrest⟩
      refine ⟨fun hd => ?_, fun r s' hs => ?_⟩
      · obtain ⟨r, s', hs⟩ := hd.returns
        exact (hstep r s' hs).1.mp (hafter r s' hs) hd
      · exact (ih (hstep r s' hs).2.1 (hstep r s' hs).2.2 (hafter r s' hs)).mp (hrest r s' hs)
    · rintro ⟨hno, hrest⟩
      have hafter : After OneEach s op := fun r s' hs => (hstep r s' hs).1.mpr hno
      refine ⟨hafter, fun r s' hs => ?_⟩
      exact (ih (hstep r s' hs).2.1 (hstep r s' hs).2.2 (hafter r s' hs)).mpr (hrest r s' hs)

/-! ### Held entries -/

/-- The used entries whose threads are live at the end. -/
def Held (e : Sched Point) (s : Sleepers) (i : JobSlot) : Prop :=
  (s.jobTable i).used = true ∧ Live e (s.jobTable i).tid

/-- A job is added for a thread that is live at the end. -/
def Leaks (e : Sched Point) (s : Sleepers) : SleepOp → Prop
  | .addJob tid => s.sched.cpu = .rest ∧ (∃ i, (s.jobTable i).used = false) ∧ Live e tid
  | _ => False

/-- A step takes away no entry that is held, and it adds one if and only if it leaks. -/
theorem held_step {e : Sched Point} (hs : StepEffect s op s₁)
    (hbefore : ∀ i, Held e s i → Live s.sched (s.jobTable i).tid) :
    (∀ i, Held e s i → Held e s₁ i) ∧ ((∀ i, Held e s₁ i → Held e s i) ↔ ¬Leaks e s op) := by
  cases hs.jobs with
  | same jobs full =>
    have hiff : ∀ i, Held e s₁ i ↔ Held e s i := by
      intro i
      unfold Held
      rw [(jobs i).1, (jobs i).2]
    refine ⟨fun i => (hiff i).mpr, ⟨fun _ hl => ?_, fun _ i => (hiff i).mp⟩⟩
    cases op with
    | addJob tid =>
      obtain ⟨hrest, ⟨i, hi⟩, -⟩ := hl
      cases (full tid rfl hrest i).symm.trans hi
    | create | enable | yield | exit | sleep | exec | timer => exact hl
  | add tid k call rest free used tid_eq other sched =>
    subst call
    have hne : ∀ i, Held e s i → i ≠ k := by
      rintro i hi rfl
      cases hi.1.symm.trans free
    have hold : ∀ i, i ≠ k → (Held e s₁ i ↔ Held e s i) := by
      intro i hi
      unfold Held
      rw [other i hi]
    refine ⟨fun i hi => (hold i (hne i hi)).mpr hi, ⟨fun hall hl => ?_, fun hno i hi => ?_⟩⟩
    · have hk : Held e s₁ k := ⟨used, by rw [tid_eq]; exact hl.2.2⟩
      exact hne k (hall k hk) rfl
    · by_cases hik : i = k
      · subst hik
        refine absurd ⟨rest, ⟨i, free⟩, ?_⟩ hno
        rw [← tid_eq]
        exact hi.2
      · exact (hold i hik).mp hi
  | sweep call swept =>
    subst call
    have hall := fun i => swept.swept i (List.mem_finRange i)
    refine ⟨fun i hi => ⟨(hall i).mpr ⟨hi.1, hbefore i hi⟩, ?_⟩, ⟨fun _ hl => hl, fun _ i hi => ⟨((hall i).mp hi.1).1, ?_⟩⟩⟩
    · rw [swept.tid]
      exact hi.2
    · rw [← swept.tid]
      exact hi.2

theorem Leaks.returns {e : Sched Point} (h : Leaks e s op) : ∃ r s', sleepStep s op = .ok (r, s') := by
  cases op with
  | addJob tid => exact ⟨_, _, if_neg fun hne => hne h.1⟩
  | create | enable | yield | exit | sleep | exec | timer => exact h.elim

/-- **The entries that are held** become only more along a run, and stay the same if and only if no step leaks. -/
theorem held_run (h : JobInv s) (hids : Along sleepStep IdsOk s ops)
    (hrun : runFrom sleepStep s ops = .ok (rs, s₂)) :
    (∀ i, Held s₂.sched s i → Held s₂.sched s₂ i) ∧
      ((∀ i, Held s₂.sched s₂ i → Held s₂.sched s i) ↔ Along sleepStep (fun s op => ¬Leaks s₂.sched s op) s ops) := by
  induction ops generalizing s rs with
  | nil =>
    obtain ⟨-, rfl⟩ := Prod.mk.inj (Except.ok.inj hrun)
    exact ⟨fun _ => id, ⟨fun _ => trivial, fun _ _ => id⟩⟩
  | cons op ops ih =>
    have hbefore : ∀ i, Held s₂.sched s i → Live s.sched (s.jobTable i).tid :=
      fun i hi => live_before h hids hrun (h.issued i hi.1) hi.2
    obtain ⟨r, s₁, rs', hs, heffect, h₁, hids₁, hrest⟩ := exists_step_of_run h hids hrun
    obtain ⟨hkeep, hleak⟩ := held_step heffect hbefore
    obtain ⟨hkeeps, hleaks⟩ := ih h₁ hids₁ hrest
    refine ⟨fun i hi => hkeeps i (hkeep i hi), ?_⟩
    rw [← along_cons_ok hs, ← hleak, ← hleaks]
    constructor
    · intro hall
      exact ⟨fun i hi => hall i (hkeeps i hi), fun i hi => hkeep i (hall i hi)⟩
    · rintro ⟨hfirst, hothers⟩ i hi
      exact hfirst i (hothers i hi)

end Runs

/-! ## The table before and after -/

section Table

variable {s s₀ s₁ s₂ : Sleepers} {ops ops₂ : List SleepOp} {rs rs₂ : List Int}

theorem sleepInit_sound (s : Sleepers) : Sound (sleepInit s).sched := by
  refine ⟨{ (schedulerInit s.sched).toFifo [] with cpu := .rest }, ⟨.nil, rfl⟩, rfl,
    (schedulerInit_inv s.sched).cpu .rest, fun x hx => ?_⟩
  simp [Sched.toFifo, schedulerInit, Thread.bare] at hx

theorem sleepInit_jobInv (s : Sleepers) : JobInv (sleepInit s) :=
  ⟨sleepInit_sound s, rfl, fun _ hi => by cases hi⟩

theorem jobInv_run (h : JobInv s) (hids : Along sleepStep IdsOk s ops)
    (hrun : runFrom sleepStep s ops = .ok (rs, s₁)) : JobInv s₁ :=
  runFrom_keeps JobInv (fun _ _ _ _ h hids hs => h.step hids (sleepStep_effect h.sound h.enabled hs)) h hids hrun

/-- The used entries. -/
def usedJobs (s : Sleepers) : Finset JobSlot := Finset.univ.filter fun i => (s.jobTable i).used = true

theorem mem_usedJobs {i : JobSlot} : i ∈ usedJobs s ↔ (s.jobTable i).used = true := by
  simp [usedJobs]

theorem leaks_along_congr {e e' : Sched Point} (h : ∀ tid, Live e' tid ↔ Live e tid) :
    Along sleepStep (fun s op => ¬Leaks e s op) s ops ↔ Along sleepStep (fun s op => ¬Leaks e' s op) s ops := by
  have hiff : ∀ s op, Leaks e s op ↔ Leaks e' s op := by
    intro s op
    cases op with
    | addJob tid => exact and_congr_right fun _ => and_congr_right fun _ => (h tid).symm
    | create | enable | yield | exit | sleep | exec | timer => exact Iff.rfl
  exact along_congr (fun _ => True) (fun _ _ _ _ _ _ => trivial) (fun s op _ => not_congr (hiff s op)) trivial ops

/-- What is used after the sweep is what is held before it. -/
theorem Sweeps.held_iff (h : Sweeps (List.finRange 32) s s₁) (i : JobSlot) :
    (s₁.jobTable i).used = true ↔ Held s.sched s i := h.swept i (List.mem_finRange i)

/-- Every entry is used for a live thread of its own. -/
def AllOutstanding (s : Sleepers) : Prop :=
  (∀ i, (s.jobTable i).used = true ∧ Live s.sched (s.jobTable i).tid) ∧
    ∀ i j, (s.jobTable i).tid = (s.jobTable j).tid → i = j

theorem Sweeps.oneEach (h : Sweeps (List.finRange 32) s s₁) (hone : OneEach s) : OneEach s₁ := by
  intro i j hi hj hij hlive
  rw [h.tid, h.tid] at hij
  have hi' := (h.held_iff i).mp hi
  exact hone i j hi'.1 ((h.held_iff j).mp hj).1 hij hi'.2

theorem Sweeps.allOutstanding (h : Sweeps (List.finRange 32) s s₁) (hone : OneEach s)
    (hfull : ∀ i, (s₁.jobTable i).used = true) : AllOutstanding s₁ := by
  have hlive : ∀ i, Live s₁.sched (s₁.jobTable i).tid := by
    intro i
    rw [h.threads.live, h.tid]
    exact ((h.held_iff i).mp (hfull i)).2
  exact ⟨fun i => ⟨hfull i, hlive i⟩, fun i j hij => h.oneEach hone i j (hfull i) (hfull j) hij (hlive i)⟩

/-- **Job slots.** From a reachable state in which the used entries are for different threads that are all live at the
end, as many entries are used after a run as before it, no two are ever for the same live thread, and a table that is
full after the sweep has an outstanding job in every entry, if and only if no job is added for a live thread that has one
or for a thread that is live at the end. -/
theorem job_slots_run (hids : Along sleepStep IdsOk (sleepInit s) ops)
    (hrun : runFrom sleepStep (sleepInit s) ops = .ok (rs, s₀)) (hids₂ : Along sleepStep IdsOk s₀ ops₂)
    (hrun₂ : runFrom sleepStep s₀ ops₂ = .ok (rs₂, s₁)) (hsweep : updateJobsSafe s₁ = .ok s₂)
    (hlive : ∀ i ∈ usedJobs s₀, Live s₂.sched (s₀.jobTable i).tid) (hone : OneEach s₀) :
    (Along sleepStep (After OneEach) s₀ ops₂ ∧ (usedJobs s₂).card = (usedJobs s₀).card ∧
        ((∀ i, (s₂.jobTable i).used = true) → AllOutstanding s₂)) ↔
      Along sleepStep (fun s op => ¬Doubles s op ∧ ¬Leaks s₂.sched s op) s₀ ops₂ := by
  have h₀ := jobInv_run (sleepInit_jobInv s) hids hrun
  have h₁ := jobInv_run h₀ hids₂ hrun₂
  have hswept := updateJobsSafe_sweeps h₁.sound h₁.enabled hsweep
  obtain ⟨hkeep, hleaks⟩ := held_run h₀ hids₂ hrun₂
  -- what is used at the two ends is what is held there
  have hheld₀ : ∀ i, Held s₁.sched s₀ i ↔ i ∈ usedJobs s₀ := by
    intro i
    rw [mem_usedJobs]
    exact ⟨And.left, fun hi => ⟨hi, (hswept.threads.live _).mp (hlive i (mem_usedJobs.mpr hi))⟩⟩
  have hheld₁ : ∀ i, Held s₁.sched s₁ i ↔ i ∈ usedJobs s₂ := fun i => (hswept.held_iff i).symm.trans mem_usedJobs.symm
  have hsub : usedJobs s₀ ⊆ usedJobs s₂ := fun i hi => (hheld₁ i).mp (hkeep i ((hheld₀ i).mpr hi))
  have hcard : (usedJobs s₂).card = (usedJobs s₀).card ↔ Along sleepStep (fun s op => ¬Leaks s₂.sched s op) s₀ ops₂ := by
    rw [← leaks_along_congr hswept.threads.live, ← hleaks]
    constructor
    · intro hcard i hi
      rw [hheld₀, Finset.eq_of_subset_of_card_le hsub hcard.le]
      exact (hheld₁ i).mp hi
    · intro hall
      refine le_antisymm (Finset.card_le_card fun i hi => ?_) (Finset.card_le_card hsub)
      exact (hheld₀ i).mp (hall i ((hheld₁ i).mpr hi))
  constructor
  · rintro ⟨hafter, hsame, -⟩
    exact ((oneEach_run h₀ hids₂ hone).mp hafter).and (hcard.mp hsame)
  · intro hboth
    have hafter := (oneEach_run h₀ hids₂ hone).mpr (hboth.imp fun _ _ => And.left)
    have hone₁ : OneEach s₁ :=
      runFrom_keeps OneEach (fun _ _ r _ _ hstep hs => hstep r _ hs) hone hafter hrun₂
    exact ⟨hafter, hcard.mpr (hboth.imp fun _ _ => And.right), hswept.allOutstanding hone₁⟩

end Table

/-! ## Foreground sleeps -/

section Shell

variable {s : Sleepers}

/-- `sleep` of `process_command`, up to the call of `sleep_ticks`. -/
def sleepCommand (s : Sleepers) (seconds : UInt32) : Sleepers :=
  if seconds > 0 then
    let s :=
      match s.sched.currentThread with
      | none => s
      | some current => (addJob s (s.sched.threadTable current).tid).2
    sleepSeconds s seconds
  else s

theorem sleepStep_addJob (hrest : s.sched.cpu = .rest) (tid : UInt32) : sleepStep s (.addJob tid) = .ok (addJob s tid) :=
  if_neg (not_not_intro hrest)

theorem sleepSeconds_step (hrest : s.sched.cpu = .rest) (seconds : UInt32) :
    ∃ ticks, sleepStep s (.sleep ticks) = .ok (0, sleepSeconds s seconds) := by
  have hstep : ∀ ticks, sleepStep s (.sleep ticks) = .ok (0, if ticks = 0 then s else s.goto (.entered ticks)) :=
    fun _ => if_neg (not_not_intro hrest)
  simp only [hstep]
  by_cases hsec : seconds = 0
  · exact ⟨0, by rw [sleepSeconds, if_pos hsec, if_pos rfl]⟩
  · rw [sleepSeconds, if_neg hsec]
    generalize (seconds * 1000).toUInt64 = ms
    by_cases hms : ms = 0
    · exact ⟨0, by rw [sleepMs, if_pos hms, if_pos rfl]⟩
    · refine ⟨if ms * 1000 / 1000 = 0 then 1 else ms * 1000 / 1000, ?_⟩
      rw [sleepMs, if_neg hms]
      have hne : (if ms * 1000 / 1000 = 0 then 1 else ms * 1000 / 1000) ≠ 0 := by
        split
        · exact UInt64.zero_ne_one.symm
        · assumption
      rw [if_neg hne]

theorem addJob_sched (s : Sleepers) (tid : UInt32) : (addJob s tid).2.sched = s.sched := by
  unfold addJob
  split <;> rfl

/-- The command adds a job for the shell itself, and sleeps. -/
theorem sleepCommand_run {c : Slot} (hrest : s.sched.cpu = .rest) (hc : s.sched.currentThread = some c) {seconds : UInt32}
    (hpos : 0 < seconds) : ∃ ticks r, runFrom sleepStep s [.addJob (s.sched.threadTable c).tid, .sleep ticks] =
      .ok ([r, 0], sleepCommand s seconds) := by
  have hrest' : (addJob s (s.sched.threadTable c).tid).2.sched.cpu = .rest := by
    rw [addJob_sched]
    exact hrest
  obtain ⟨ticks, hticks⟩ := sleepSeconds_step hrest' seconds
  refine ⟨ticks, _, runFrom_cons (sleepStep_addJob hrest _) (runFrom_cons ?_ rfl)⟩
  rw [sleepCommand, if_pos hpos, hc]
  exact hticks

end Shell

/-! ## Ticks while nothing is due -/

section Waiting

variable {s : Sleepers} {time : Nat}

/-- No thread is ready, and every used entry is armed for a live thread, to `time` or later. -/
structure Waiting (s : Sleepers) (time : Nat) : Prop where
  head : s.sched.readyQueueHead = none
  pending : s.sched.cpu.pending = 0
  alive : ∀ i, (s.jobTable i).used = true → ∃ t, getThread s.sched (s.jobTable i).tid = some t ∧
    (s.sched.threadTable t).state ≠ .terminated
  armed : ∀ i, (s.jobTable i).used = true → (s.jobTable i).state = .sleeping ∧ (s.jobTable i).sleepUntil > 0 ∧
    time ≤ (s.jobTable i).sleepUntil.toNat

theorem updateJob_waiting {now : UInt64} (h : Waiting s time) (hnow : now.toNat < time) (i : JobSlot) :
    updateJob now s i = .ok s := by
  unfold updateJob
  by_cases hused : (s.jobTable i).used = false
  · exact if_pos hused
  · obtain ⟨t, ht, hlive⟩ := h.alive i (by simpa using hused)
    obtain ⟨hstate, hpos, htime⟩ := h.armed i (by simpa using hused)
    have hlt : ¬now ≥ (s.jobTable i).sleepUntil := by
      rw [ge_iff_le, UInt64.le_iff_toNat_le]
      omega
    simp only [if_neg hused, ht, if_neg hlive, if_pos (And.intro hstate hpos), if_neg hlt]

theorem updateJobsSafe_waiting (h : Waiting s time) (hnow : s.timerTicks.toNat < time) :
    updateJobsSafe s = .ok s := by
  have hall : ∀ l : List JobSlot, l.foldlM (updateJob (getUptimeMs s.timerTicks)) s = .ok s := by
    intro l
    induction l with
    | nil => rfl
    | cons i l ih =>
      rw [List.foldlM_cons, updateJob_waiting h (lt_of_le_of_lt (getUptimeMs_le _) hnow) i]
      exact ih
  unfold updateJobsSafe
  split
  · rfl
  · exact hall _

theorem sleepStep_timer {s' : Sleepers} (h : timerHandler s = .ok s') : sleepStep s .timer = .ok (0, s') := by
  change (timerHandler s >>= fun s' => .ok (0, s')) = _
  rw [h, ok_bind]

theorem sleepStep_exec {s' : Sleepers} (h : execNext s = .ok s') : sleepStep s .exec = .ok (0, s') := by
  change (execNext s >>= fun s' => .ok (0, s')) = _
  rw [h, ok_bind]

theorem Waiting.later (h : Waiting s time) (timerTicks : UInt64) : Waiting { s with timerTicks } time :=
  ⟨h.head, h.pending, h.alive, h.armed⟩

/-- A tick passes the time. -/
theorem tick_waiting (h : Waiting s time) (hnow : (s.timerTicks + 1).toNat < time) :
    runFrom sleepStep s [.timer, .exec] = .ok ([0, 0], { s with timerTicks := s.timerTicks + 1 }) := by
  have htimer : sleepStep s .timer = .ok (0, { s with
      timerTicks := s.timerTicks + 1
      sched := { s.sched with cpu := { s.sched.cpu with pending := 1 } } }) := by
    have htick : schedulerTick { s.sched with cpu := { s.sched.cpu with pending := 1 } } =
        .ok { s.sched with cpu := { s.sched.cpu with pending := 1 } } := by
      unfold schedulerTick
      split
      · rfl
      · split
        · rfl
        · exact if_neg (not_not_intro h.head)
    refine sleepStep_timer ?_
    simp only [timerHandler, h.pending, Nat.zero_add, htick, ok_bind]
  have hexec : sleepStep { s with
      timerTicks := s.timerTicks + 1
      sched := { s.sched with cpu := { s.sched.cpu with pending := 1 } } } .exec =
      .ok (0, { s with timerTicks := s.timerTicks + 1 }) := by
    have hcpu : ({ s.sched.cpu with pending := 0 } : Point) = s.sched.cpu := by
      rw [← h.pending]
    refine sleepStep_exec ?_
    simp only [execNext, hcpu]
    exact updateJobsSafe_waiting (h.later (s.timerTicks + 1)) hnow
  exact runFrom_cons htimer (runFrom_cons hexec rfl)

/-- So do `n` ticks. -/
theorem ticks_waiting (h : Waiting s time) {n : Nat} (hnow : s.timerTicks.toNat + n < time) :
    ∃ rs, runFrom sleepStep s (List.replicate n [SleepOp.timer, .exec]).flatten =
      .ok (rs, { s with timerTicks := s.timerTicks + UInt64.ofNat n }) := by
  induction n generalizing s with
  | zero => exact ⟨[], by simp [runFrom_nil]⟩
  | succ n ih =>
    have hle : (s.timerTicks + 1).toNat ≤ s.timerTicks.toNat + 1 := by
      rw [UInt64.toNat_add]
      exact Nat.mod_le _ _
    have hnext : (s.timerTicks + 1).toNat + n < time := by omega
    obtain ⟨rs, hrs⟩ := ih (h.later (s.timerTicks + 1)) hnext
    refine ⟨[0, 0] ++ rs, ?_⟩
    have hsum : s.timerTicks + UInt64.ofNat (n + 1) = s.timerTicks + 1 + UInt64.ofNat n := by
      rw [UInt64.ofNat_add, UInt64.add_comm (UInt64.ofNat n), UInt64.add_assoc]
      rfl
    rw [hsum, List.replicate_succ, List.flatten_cons]
    exact runFrom_append (tick_waiting h (lt_of_le_of_lt (Nat.le_add_right _ n) hnext)) hrs

end Waiting

/-! ## Two runs -/

instance (s : Sched Point) (tid : UInt32) : Decidable (Live s tid) :=
  inferInstanceAs (Decidable (∃ x, (s.threadTable x).used = true ∧ (s.threadTable x).tid = tid))

instance (s : Sleepers) : ∀ op, Decidable (IdsOk s op)
  | .create _ _ => inferInstanceAs (Decidable (s.sched.nextTid.toNat + 1 < 2 ^ 32))
  | .addJob tid => inferInstanceAs (Decidable (tid.toNat < s.sched.nextTid.toNat))
  | .enable | .yield | .exit | .sleep _ | .exec | .timer => .isTrue trivial

instance (e : Sched Point) (s : Sleepers) : ∀ op, Decidable (Leaks e s op)
  | .addJob tid => inferInstanceAs (Decidable (s.sched.cpu = .rest ∧ (∃ i, (s.jobTable i).used = false) ∧ Live e tid))
  | .create _ _ | .enable | .yield | .exit | .sleep _ | .exec | .timer => .isFalse id

instance (s : Sleepers) : ∀ op, Decidable (Doubles s op)
  | .addJob tid => inferInstanceAs (Decidable (s.sched.cpu = .rest ∧ (∃ i, (s.jobTable i).used = false) ∧
      Live s.sched tid ∧ ∃ i, (s.jobTable i).used = true ∧ (s.jobTable i).tid = tid))
  | .create _ _ | .enable | .yield | .exit | .sleep _ | .exec | .timer => .isFalse id

/-- The state after a run that does not fault. -/
def endOf (s : Sleepers) (ops : List SleepOp) : Sleepers :=
  match runFrom sleepStep s ops with
  | .ok out => out.2
  | .error _ => s

theorem runFrom_endOf (s : Sleepers) (ops : List SleepOp) (h : (runFrom sleepStep s ops).toOption.isSome = true) :
    ∃ rs, runFrom sleepStep s ops = .ok (rs, endOf s ops) := by
  unfold endOf
  cases hrun : runFrom sleepStep s ops with
  | error e => simp [hrun, Except.toOption] at h
  | ok out => exact ⟨out.1, rfl⟩

/-- The shell. -/
def shellOps : List SleepOp := [.create 1 true, .enable]

/-- A background job that runs to completion. -/
def backgroundOps : List SleepOp := [.create 1 true, .addJob 2, .yield, .exit, .timer, .exec]

def atPrompt : Sleepers := endOf (sleepInit bootSleepers) shellOps

theorem job_slots_run_background : ∃ s₂, updateJobsSafe (endOf atPrompt backgroundOps) = .ok s₂ ∧
    (usedJobs s₂).card = (usedJobs atPrompt).card := by
  obtain ⟨rs, hrun⟩ := runFrom_endOf (sleepInit bootSleepers) shellOps (by decide)
  obtain ⟨rs₂, hrun₂⟩ := runFrom_endOf atPrompt backgroundOps (by decide +kernel)
  obtain ⟨s₂, hsweep, hgone⟩ := exists_ok_of_map (f := fun s₂ => decide (
      Along sleepStep (fun s op => ¬Doubles s op ∧ ¬Leaks s₂.sched s op) atPrompt backgroundOps))
    (show (updateJobsSafe (endOf atPrompt backgroundOps)).toOption.map _ = some true by decide +kernel)
  have hempty : ∀ i, (atPrompt.jobTable i).used = false := by decide
  refine ⟨s₂, hsweep, ((job_slots_run (by decide +kernel) hrun (by decide +kernel) hrun₂ hsweep ?_ ?_).mpr
    (of_decide_eq_true hgone)).2.1⟩
  · intro i hi
    cases (hempty i).symm.trans (mem_usedJobs.mp hi)
  · intro i _ hi
    cases (hempty i).symm.trans hi

/-- The shell has been told to sleep for a second, and is blocked. -/
def asleep : Sleepers := endOf (sleepCommand atPrompt 1) (List.replicate 7 .exec)

def aboutToWake : Sleepers := { asleep with timerTicks := 999 }

/-- The tick that wakes it, and the rest of `sleep_ticks`. -/
def wakeOps : List SleepOp := [.timer, .exec, .exec, .exec]

theorem asleep_waiting : Waiting asleep 1000 :=
  ⟨by decide +kernel, by decide, by decide +kernel, by decide⟩

/-- One foreground sleep leaves a used entry for the shell, which is live. -/
theorem foreground_sleep_leaks : ∃ ops rs s₁ s₂, runFrom sleepStep (sleepCommand atPrompt 1) ops = .ok (rs, s₁) ∧
    s₁.sched.cpu = .rest ∧ updateJobsSafe s₁ = .ok s₂ ∧ Live s₂.sched 1 ∧ (usedJobs atPrompt).card = 0 ∧
    (usedJobs s₂).card = 1 := by
  obtain ⟨rs, hsleep⟩ := runFrom_endOf (sleepCommand atPrompt 1) (List.replicate 7 .exec) (by decide)
  obtain ⟨rs', hticks⟩ := ticks_waiting asleep_waiting (n := 999) (by decide)
  have hnow : asleep.timerTicks + UInt64.ofNat 999 = 999 := by decide
  rw [hnow] at hticks
  obtain ⟨rs'', hwake⟩ := runFrom_endOf aboutToWake wakeOps (by decide)
  obtain ⟨s₂, hsweep, hfacts⟩ := exists_ok_of_map
    (f := fun s₂ : Sleepers => decide (Live s₂.sched 1 ∧ (usedJobs s₂).card = 1))
    (show (updateJobsSafe (endOf aboutToWake wakeOps)).toOption.map _ = some true by decide +kernel)
  obtain ⟨hlive, hone⟩ := of_decide_eq_true hfacts
  exact ⟨_, _, _, s₂, runFrom_append hsleep (runFrom_append hticks hwake), by decide, hsweep, hlive,
    by decide, hone⟩

end AmqOs.Processes
