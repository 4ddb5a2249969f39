import AmqOs.Processes.SchedulerFifo

/-!
# The ready queue is a queue

`SchedInv s q`: the links from `ready_queue_head` to `ready_queue_tail` visit `q`, which are the used ready threads in the
order in which they last became ready, and the current thread is the only running one. It holds after every run.

The proof is on lists. `schedule` is called in states where the current thread may be blocked: `FifoPre` is what it
needs, and `FifoInv` what every call keeps (`step_inv`). A ready thread with `k` threads ahead of it comes one place
nearer with every `schedule`, and nothing else puts a thread ahead of it (`step_ahead`); so it is the current thread
after at most `k + 1` calls of `schedule`, unless it is blocked (`runs_ahead`). `ready_queue_run` says both of the links.
-/

set_option autoImplicit false

namespace AmqOs.Processes

open AmqOs.Lib

variable {π : Type}

/-! ## The invariant -/

/-- The time at which a thread last became ready. -/
def stamp : List (Event π) → Slot → Nat
  | [], _ => 0
  | .ready x :: log, t => if x = t then log.length + 1 else stamp log t
  | _ :: log, t => stamp log t

/-- The number of calls of `schedule`. -/
def calls : List (Event π) → Nat
  | [] => 0
  | .schedule :: log => calls log + 1
  | _ :: log => calls log

structure SchedInv (s : Sched π) (q : List Slot) : Prop where
  queue : Linked s.links s.readyQueueHead s.readyQueueTail q
  members : ∀ t, t ∈ q ↔ (s.threadTable t).used = true ∧ (s.threadTable t).state = .ready
  order : q.Pairwise fun x y => stamp s.log x < stamp s.log y
  current : ∀ c, s.currentThread = some c →
    (s.threadTable c).used = true ∧ (s.threadTable c).state = .running ∧ c ∉ q
  running : ∀ t, (s.threadTable t).used = true → (s.threadTable t).state = .running → s.currentThread = some t

/-- What `schedule` needs. -/
structure FifoPre (a : Fifo π) : Prop where
  members : a.Members
  order : a.queue.Pairwise fun x y => stamp a.log x < stamp a.log y
  current : ∀ c, a.currentThread = some c →
    (a.table c).used = true ∧ ((a.table c).state = .running ∨ (a.table c).state = .blocked)
  running : ∀ t, (a.table t).used = true → (a.table t).state = .running → a.currentThread = some t
  disabled : a.schedulerEnabled = false → a.currentThread = none

/-- What the calls keep. -/
structure FifoInv (a : Fifo π) : Prop extends FifoPre a where
  runs : ∀ c, a.currentThread = some c → (a.table c).state = .running

/-! ## Becoming ready -/

section Stamp

variable {log : List (Event π)} {t x y : Slot}

theorem stamp_le (log : List (Event π)) (t : Slot) : stamp log t ≤ log.length := by
  induction log with
  | nil => exact le_refl _
  | cons e log ih =>
    rw [List.length_cons]
    cases e <;> simp only [stamp] <;> try omega
    split <;> omega

@[simp] theorem stamp_ready_self : stamp (.ready t :: log) t = log.length + 1 := if_pos rfl

theorem stamp_ready_of_ne (h : x ≠ t) : stamp (.ready t :: log) x = stamp log x := if_neg (Ne.symm h)

/-- A thread that becomes ready is the last that did. -/
theorem order_ready {q : List Slot} (hq : q.Pairwise fun x y => stamp log x < stamp log y) (ht : t ∉ q) :
    (q ++ [t]).Pairwise fun x y => stamp (.ready t :: log) x < stamp (.ready t :: log) y := by
  have hne : ∀ x ∈ q, x ≠ t := fun x hx e => ht (e ▸ hx)
  rw [List.pairwise_append]
  refine ⟨hq.imp_of_mem ?_, List.pairwise_singleton _ _, ?_⟩
  · intro x y hx hy hxy
    rwa [stamp_ready_of_ne (hne x hx), stamp_ready_of_ne (hne y hy)]
  · intro x hx y hy
    rw [List.mem_singleton.mp hy, stamp_ready_self, stamp_ready_of_ne (hne x hx)]
    exact Nat.lt_succ_of_le (stamp_le log x)

end Stamp

/-! ## The table -/

section Table

variable {a : Fifo π} {t x : Slot} {state : ThreadState}

theorem FifoPre.nodup (h : FifoPre a) : a.queue.Nodup :=
  h.order.imp fun hlt e => by rw [e] at hlt; exact lt_irrefl _ hlt

theorem FifoPre.notMem (h : FifoPre a) (hs : (a.table t).state ≠ .ready) : t ∉ a.queue :=
  fun hq => hs ((h.members t).mp hq).2

theorem setState_table (a : Fifo π) (t x : Slot) (state : ThreadState) :
    (a.setState t state).table x = if x = t then { a.table x with state } else a.table x := rfl

/-- A thread leaves the queue and its state is no longer `READY`. -/
theorem members_erase {q : List Slot} (h : a.Members) (hs : state ≠ .ready)
    (hq : ∀ x, x ∈ q ↔ x ∈ a.queue ∧ x ≠ t) (x : Slot) :
    x ∈ q ↔ ((a.setState t state).table x).used = true ∧ ((a.setState t state).table x).state = .ready := by
  rw [hq, h x, setState_table]
  by_cases hx : x = t <;> simp [hx, hs]

/-- There is no current thread. -/
theorem FifoInv.of_none (hm : a.Members) (ho : a.queue.Pairwise fun x y => stamp a.log x < stamp a.log y)
    (hc : a.currentThread = none) (hs : ∀ t, (a.table t).used = true → (a.table t).state ≠ .running) :
    FifoInv a := by
  refine ⟨⟨hm, ho, ?_, fun t hu hr => absurd hr (hs t hu), fun _ => hc⟩, ?_⟩
  · intro c hcur
    rw [hc] at hcur
    cases hcur
  · intro c hcur
    rw [hc] at hcur
    cases hcur

end Table

/-! ## `schedule` -/

section Schedule

variable {a : Fifo π}

/-- No thread is running, and the current thread is queued or blocked. -/
structure Between (a : Fifo π) : Prop where
  members : a.Members
  order : a.queue.Pairwise fun x y => stamp a.log x < stamp a.log y
  current : ∀ c, a.currentThread = some c → c ∈ a.queue ∨ (a.table c).state = .blocked
  still : ∀ t, (a.table t).used = true → (a.table t).state ≠ .running
  enabled : a.schedulerEnabled = true

theorem makeReady_members {t : Slot} (h : a.Members) (hused : (a.table t).used = true) :
    (a.makeReady t).Members := by
  intro x
  simp only [Fifo.makeReady, Fifo.enqueue, Fifo.record, setState_table, List.mem_append, List.mem_singleton]
  have hx := h x
  by_cases hxt : x = t
  · subst hxt
    simp [hused]
  · simpa [hxt, Fifo.setState, Fifo.modify] using hx

theorem requeue_between (h : FifoPre a) (he : a.schedulerEnabled = true) : Between (a.record .schedule).requeue := by
  unfold Fifo.requeue
  rw [show (a.record .schedule).currentThread = a.currentThread from rfl]
  cases hc : a.currentThread with
  | none =>
    refine ⟨h.members, h.order, ?_, ?_, he⟩
    · intro c hcur
      exact absurd (hc.symm.trans hcur) (by simp)
    · intro t hu hr
      exact absurd (hc.symm.trans (h.running t hu hr)) (by simp)
  | some p =>
    obtain ⟨hused, hstate⟩ := h.current p hc
    show Between (if (a.table p).state = .running then _ else _)
    by_cases hrun : (a.table p).state = .running
    · rw [if_pos hrun]
      have hp : p ∉ a.queue := h.notMem (by simp [hrun])
      refine ⟨makeReady_members h.members hused, order_ready h.order hp, ?_, ?_, he⟩
      · intro c hcur
        cases hc.symm.trans hcur
        exact Or.inl (List.mem_append_right _ List.mem_cons_self)
      · intro t hu hr
        simp only [Fifo.makeReady, Fifo.enqueue, Fifo.record, setState_table] at hu hr
        by_cases ht : t = p
        · simp [ht] at hr
        · simp only [if_neg ht] at hu hr
          exact ht (Option.some.inj ((h.running t hu hr).symm.trans hc))
    · rw [if_neg hrun]
      have hb := hstate.resolve_left hrun
      refine ⟨h.members, h.order, ?_, ?_, he⟩
      · intro c hcur
        cases hc.symm.trans hcur
        exact Or.inr hb
      · intro t hu hr
        cases (h.running t hu hr).symm.trans hc
        exact hrun hr

/-- What a switch leaves alone. -/
structure SwitchFrame (a a' : Fifo π) (next : Slot) : Prop where
  used : ∀ x, (a'.table x).used = (a.table x).used
  state : ∀ x, (a'.table x).state = (a.table x).state
  queue : a'.queue = a.queue
  enabled : a'.schedulerEnabled = a.schedulerEnabled
  stamp : ∀ x, stamp a'.log x = stamp a.log x
  calls : calls a'.log = calls a.log
  current : a'.currentThread = some next

theorem switchTo_frame (a : Fifo π) (next : Slot) : SwitchFrame a (a.switchTo a.currentThread next) next := by
  unfold Fifo.switchTo
  split
  · exact ⟨fun _ => rfl, fun _ => rfl, rfl, rfl, fun _ => rfl, rfl, rfl⟩
  · rename_i p hc
    by_cases hpn : p = next
    · rw [if_pos hpn]
      exact ⟨fun _ => rfl, fun _ => rfl, rfl, rfl, fun _ => rfl, rfl, hpn ▸ hc⟩
    · rw [if_neg hpn]
      refine ⟨?_, ?_, rfl, rfl, fun _ => rfl, rfl, rfl⟩
      · intro x
        simp only [Fifo.record, Fifo.modify]
        split <;> rfl
      · intro x
        simp only [Fifo.record, Fifo.modify]
        split <;> rfl

/-- With a thread in the queue, the first one becomes the current thread. -/
theorem dispatch_cons {next : Slot} {rest : List Slot} (hq : a.queue = next :: rest) :
    SwitchFrame { a.setState next .running with queue := rest } (a.dispatch a.currentThread) next := by
  unfold Fifo.dispatch
  rw [hq]
  exact switchTo_frame { a.setState next .running with queue := rest } next

theorem dispatch_nil (h : Between a) (hq : a.queue = []) :
    a.dispatch a.currentThread = (match a.currentThread with
      | none => a
      | some p => { a.record (.leave p a.cpu) with currentThread := none }) := by
  unfold Fifo.dispatch
  rw [hq]
  cases hc : a.currentThread with
  | none => rfl
  | some p =>
    have hb : (a.table p).state = .blocked := by
      rcases h.current p hc with hm | hb
      · rw [hq] at hm
        cases hm
      · exact hb
    exact if_pos hb

theorem dispatch_inv (h : Between a) : FifoInv (a.dispatch a.currentThread) := by
  cases hq : a.queue with
  | nil =>
    rw [dispatch_nil h hq]
    cases hc : a.currentThread with
    | none => exact .of_none h.members h.order hc h.still
    | some p => exact .of_none h.members h.order rfl h.still
  | cons next rest =>
    have hf := dispatch_cons hq
    have hord := h.order
    rw [hq, List.pairwise_cons] at hord
    have hnr : next ∉ rest := fun hm => lt_irrefl _ (hord.1 next hm)
    have hnext : (a.table next).used = true := ((h.members next).mp (by simp [hq])).1
    refine ⟨⟨?_, ?_, ?_, ?_, ?_⟩, ?_⟩
    · intro x
      rw [hf.queue, hf.used, hf.state]
      refine members_erase (t := next) h.members (by simp) ?_ x
      intro y
      rw [hq, List.mem_cons]
      constructor
      · intro hy
        exact ⟨Or.inr hy, fun e => hnr (e ▸ hy)⟩
      · rintro ⟨hy, hne⟩
        exact hy.resolve_left hne
    · rw [hf.queue]
      refine hord.2.imp ?_
      intro x y hxy
      rw [hf.stamp, hf.stamp]
      exact hxy
    · intro c hc
      cases hf.current.symm.trans hc
      rw [hf.used, hf.state]
      simp [setState_table, hnext]
    · intro t hu hr
      rw [hf.used] at hu
      rw [hf.state] at hr
      rw [hf.current]
      simp only [setState_table] at hu hr
      by_cases ht : t = next
      · rw [ht]
      · simp only [if_neg ht] at hu hr
        exact absurd hr (h.still t hu)
    · intro hd
      rw [hf.enabled] at hd
      exact absurd (hd.symm.trans h.enabled) (by simp)
    · intro c hc
      cases hf.current.symm.trans hc
      rw [hf.state]
      simp [setState_table]

theorem requeue_current (a : Fifo π) : (a.record .schedule).requeue.currentThread = a.currentThread := by
  unfold Fifo.requeue
  split
  · rfl
  · split <;> rfl

theorem schedule_inv (h : FifoPre a) : FifoInv a.schedule := by
  unfold Fifo.schedule
  by_cases he : a.schedulerEnabled = false
  · rw [if_pos he]
    refine ⟨h, fun c hc => ?_⟩
    rw [h.disabled he] at hc
    cases hc
  · rw [if_neg he, ← requeue_current]
    exact dispatch_inv (requeue_between h (by simpa using he))

end Schedule

/-! ## The calls -/

section Calls

variable {a : Fifo π} {t : Slot}

theorem scheduleIf_inv {P : Prop} [Decidable P] (h : FifoInv a) : FifoInv (if P then a.schedule else a) := by
  split
  · exact schedule_inv h.toFifoPre
  · exact h

theorem makeReady_inv (h : FifoInv a) (hused : (a.table t).used = true) (hb : (a.table t).state = .blocked) :
    FifoInv (a.makeReady t) := by
  have ht : t ∉ a.queue := h.notMem (by simp [hb])
  have hcur : ∀ c, a.currentThread = some c → c ≠ t := by
    rintro c hc rfl
    cases (h.runs c hc).symm.trans hb
  have htable : ∀ x, x ≠ t → (a.makeReady t).table x = a.table x := fun x hx => if_neg hx
  refine ⟨⟨makeReady_members h.members hused, order_ready h.order ht, ?_, ?_, h.disabled⟩, ?_⟩
  · intro c hc
    rw [htable c (hcur c hc)]
    exact h.current c hc
  · intro x hu hr
    by_cases hx : x = t
    · simp [hx, Fifo.makeReady, Fifo.enqueue, Fifo.record, setState_table] at hr
    · rw [htable x hx] at hu hr
      exact h.running x hu hr
  · intro c hc
    rw [htable c (hcur c hc)]
    exact h.runs c hc

theorem stop_members (h : FifoInv a) : (a.stop t).Members := by
  intro x
  refine members_erase (t := t) h.members (by simp) ?_ x
  intro y
  rw [show (a.stop t).queue = a.queue.erase t from rfl, h.nodup.mem_erase_iff, and_comm]

theorem stop_order (h : FifoInv a) :
    (a.stop t).queue.Pairwise fun x y => stamp (a.stop t).log x < stamp (a.stop t).log y :=
  h.order.sublist List.erase_sublist

theorem stop_running (h : FifoInv a) {x : Slot} (hu : ((a.stop t).table x).used = true)
    (hr : ((a.stop t).table x).state = .running) : a.currentThread = some x := by
  by_cases hx : x = t
  · simp [hx, Fifo.stop, Fifo.record, setState_table] at hr
  · have htable : (a.stop t).table x = a.table x := if_neg hx
    rw [htable] at hu hr
    exact h.running x hu hr

/-- A thread is blocked; the current thread may be it. -/
theorem stop_pre (h : FifoInv a) : FifoPre (a.stop t) := by
  refine ⟨stop_members h, stop_order h, ?_, fun x hu hr => stop_running h hu hr, h.disabled⟩
  intro c hc
  have hcur := h.current c hc
  simp only [Fifo.stop, Fifo.record, setState_table]
  by_cases hct : c = t
  · simpa [hct] using hct ▸ hcur.1
  · simpa [hct] using hcur

theorem block_inv (h : FifoInv a) (tid : UInt32) : FifoInv (a.block tid) := by
  unfold Fifo.block
  split
  · exact h
  · rename_i t _
    split
    · exact h
    · split
      · exact schedule_inv (stop_pre h)
      · rename_i hne
        refine ⟨stop_pre h, ?_⟩
        intro c hc
        have hct : c ≠ t := fun e => hne (e ▸ hc.symm)
        rw [show (a.stop t).table c = a.table c from if_neg hct]
        exact h.runs c hc

theorem unblock_inv (h : FifoInv a) (tid : UInt32) : FifoInv (a.unblock tid) := by
  unfold Fifo.unblock
  split
  · exact h
  · rename_i t ht
    split
    · exact h
    · rename_i hb
      have hused := (firstFin_eq_some.mp ht).2.1
      simp only [Bool.and_eq_true] at hused
      exact makeReady_inv h hused.1 (not_not.mp hb)

theorem leaveProcess_table (a : Fifo π) (t : Slot) : (a.leaveProcess t).table = a.table := by
  unfold Fifo.leaveProcess
  split <;> rfl

theorem leaveProcess_queue (a : Fifo π) (t : Slot) : (a.leaveProcess t).queue = a.queue := by
  unfold Fifo.leaveProcess
  split <;> rfl

theorem leaveProcess_log (a : Fifo π) (t : Slot) : (a.leaveProcess t).log = a.log := by
  unfold Fifo.leaveProcess
  split <;> rfl

theorem retire_table (a : Fifo π) (t x : Slot) : (a.retire t).table x =
    if x = t then { a.table x with state := .terminated, used := false } else a.table x := by
  simp only [Fifo.retire, leaveProcess_table, Fifo.modify]

theorem retire_queue (a : Fifo π) (t : Slot) : (a.retire t).queue = a.queue := leaveProcess_queue _ t

theorem retire_log (a : Fifo π) (t : Slot) : (a.retire t).log = a.log := leaveProcess_log _ t

theorem retire_inv {c : Slot} (h : FifoInv a) (hc : a.currentThread = some c) : FifoInv (a.retire c) := by
  have hcq : c ∉ a.queue := h.notMem (by simp [h.runs c hc])
  refine .of_none ?_ ?_ rfl ?_
  · intro x
    rw [retire_queue, h.members x, retire_table]
    by_cases hx : x = c
    · simp [hx, h.runs c hc]
    · simp [hx]
  · rw [retire_queue, retire_log]
    exact h.order
  · intro x hu hr
    rw [retire_table] at hu hr
    by_cases hx : x = c
    · simp [hx] at hu
    · rw [if_neg hx] at hu hr
      exact hx (Option.some.inj ((h.running x hu hr).symm.trans hc))

theorem exit_inv (h : FifoInv a) : FifoInv a.exit := by
  unfold Fifo.exit
  split
  · exact h
  · rename_i c hc
    exact schedule_inv (retire_inv h hc).toFifoPre

/-- A free entry becomes a ready thread at the end of the queue. -/
theorem enter_inv (h : FifoInv a) (hfree : (a.table t).used = false) (proc : ProcSlot) (entry : π) :
    FifoInv (((a.enter t proc entry).record (.ready t)).enqueue t) := by
  have ht : t ∉ a.queue := fun hq => by simpa [hfree] using (h.members t).mp hq
  have hcur : ∀ c, a.currentThread = some c → c ≠ t := by
    rintro c hc rfl
    simpa [hfree] using (h.current c hc).1
  have htable : ∀ x, x ≠ t → (((a.enter t proc entry).record (.ready t)).enqueue t).table x = a.table x :=
    fun x hx => if_neg hx
  have hself : (((a.enter t proc entry).record (.ready t)).enqueue t).table t = { a.table t with
      tid := a.nextTid, parent := some proc, state := .ready, used := true, next := none, context := entry } :=
    if_pos rfl
  refine ⟨⟨?_, order_ready h.order ht, ?_, ?_, h.disabled⟩, ?_⟩
  · intro x
    simp only [Fifo.enqueue, List.mem_append, List.mem_singleton]
    by_cases hx : x = t
    · simp [hx, Fifo.enter, Fifo.record, Fifo.modifyProcess, Fifo.modify]
    · simpa [hx, Fifo.enter, Fifo.record, Fifo.modifyProcess, Fifo.modify] using h.members x
  · intro c hc
    rw [htable c (hcur c hc)]
    exact h.current c hc
  · intro x hu hr
    by_cases hx : x = t
    · rw [hx, hself] at hr
      cases hr
    · rw [htable x hx] at hu hr
      exact h.running x hu hr
  · intro c hc
    rw [htable c (hcur c hc)]
    exact h.runs c hc

theorem create_inv (h : FifoInv a) (pid : UInt32) (entryPoint : Option π) (stack : Bool) :
    FifoInv (a.create pid entryPoint stack).2 := by
  unfold Fifo.create
  split
  · split
    · exact h
    · split
      · exact h
      · rename_i slot hslot
        split
        · exact h
        · have hfree := (firstFin_eq_some.mp hslot).2.1
          exact scheduleIf_inv (enter_inv h (by simpa using hfree) _ _)
  · exact h

theorem enable_inv (h : FifoInv a) : FifoInv a.enable :=
  scheduleIf_inv ⟨⟨h.members, h.order, h.current, h.running, fun e => absurd e (by simp)⟩, h.runs⟩

/-- Every call keeps the invariant. -/
theorem step_inv (h : FifoInv a) (op : SchedOp π) : FifoInv (a.step op).2 := by
  cases op with
  | create pid entryPoint stack => exact create_inv h pid entryPoint stack
  | block tid => exact block_inv h tid
  | unblock tid => exact unblock_inv h tid
  | yield =>
    show FifoInv a.yield
    unfold Fifo.yield
    split
    · exact h
    · split
      · exact scheduleIf_inv h
      · exact schedule_inv h.toFifoPre
  | tick =>
    show FifoInv a.tick
    unfold Fifo.tick
    split
    · exact h
    · exact scheduleIf_inv h
  | exit => exact exit_inv h
  | schedule => exact schedule_inv h.toFifoPre
  | enable => exact enable_inv h
  | run point => exact ⟨⟨h.members, h.order, h.current, h.running, h.disabled⟩, h.runs⟩

end Calls

/-! ## First in, first out -/

section Ahead

variable {a : Fifo π} {t : Slot} {k : Nat}

/-- At most `k` threads are queued ahead of `t`. -/
def Ahead (a : Fifo π) (t : Slot) (k : Nat) : Prop := ∃ pre post, a.queue = pre ++ t :: post ∧ pre.length ≤ k

/-- `t` is the current thread after at most one `schedule`, or blocked, or every `schedule` brought it nearer. -/
def Nearer (a a' : Fifo π) (t : Slot) (k : Nat) : Prop :=
  (calls a'.log ≤ calls a.log + 1 ∧ (a'.currentThread = some t ∨ (a'.table t).state = .blocked)) ∨
    ∃ k', Ahead a' t k' ∧ calls a'.log + k' ≤ calls a.log + k

theorem Ahead.nearer {a' : Fifo π} (h : Ahead a' t k) (hc : calls a'.log = calls a.log) : Nearer a a' t k :=
  Or.inr ⟨k, h, by omega⟩

theorem Ahead.append {q : List Slot} (h : Ahead a t k) (extra : List Slot) (hq : q = a.queue ++ extra) :
    ∃ pre post, q = pre ++ t :: post ∧ pre.length ≤ k := by
  obtain ⟨pre, post, h1, h2⟩ := h
  exact ⟨pre, post ++ extra, by rw [hq, h1]; simp, h2⟩

theorem requeue_queue (a : Fifo π) : ∃ extra, (a.record .schedule).requeue.queue = a.queue ++ extra := by
  unfold Fifo.requeue
  split
  · exact ⟨[], (List.append_nil _).symm⟩
  · split
    · exact ⟨[_], rfl⟩
    · exact ⟨[], (List.append_nil _).symm⟩

theorem requeue_calls (a : Fifo π) : calls (a.record .schedule).requeue.log = calls a.log + 1 := by
  unfold Fifo.requeue
  split
  · rfl
  · split <;> rfl

/-- The first of the queue is the current thread after `schedule`; the others move up. -/
theorem schedule_nearer {a₁ : Fifo π} (h : Ahead a₁ t k) (hc : calls a₁.log = calls a.log) :
    Nearer a a₁.schedule t k := by
  unfold Fifo.schedule
  by_cases he : a₁.schedulerEnabled = false
  · rw [if_pos he]
    exact h.nearer hc
  · rw [if_neg he, ← requeue_current]
    obtain ⟨extra, hextra⟩ := requeue_queue a₁
    obtain ⟨pre, post, hq, hpre⟩ := h.append extra hextra
    have hcalls := requeue_calls a₁
    cases pre with
    | nil =>
      have hf := dispatch_cons hq
      refine Or.inl ⟨?_, Or.inl hf.current⟩
      rw [hf.calls]
      show calls (a₁.record .schedule).requeue.log ≤ _
      omega
    | cons next pre =>
      have hf := dispatch_cons hq
      refine Or.inr ⟨pre.length, ⟨pre, post, hf.queue, le_refl _⟩, ?_⟩
      rw [hf.calls]
      show calls (a₁.record .schedule).requeue.log + pre.length ≤ _
      rw [List.length_cons] at hpre
      omega

theorem scheduleIf_nearer {P : Prop} [Decidable P] {a₁ : Fifo π} (h : Ahead a₁ t k)
    (hc : calls a₁.log = calls a.log) : Nearer a (if P then a₁.schedule else a₁) t k := by
  split
  · exact schedule_nearer h hc
  · exact h.nearer hc

theorem Ahead.stop {x : Slot} (h : Ahead a t k) (hx : x ≠ t) : Ahead (a.stop x) t k := by
  obtain ⟨pre, post, hq, hpre⟩ := h
  show ∃ pre post, a.queue.erase x = pre ++ t :: post ∧ pre.length ≤ k
  rw [hq]
  by_cases hm : x ∈ pre
  · refine ⟨pre.erase x, post, List.erase_append_left _ hm, ?_⟩
    exact le_trans List.length_erase_le hpre
  · refine ⟨pre, post.erase x, ?_, hpre⟩
    rw [List.erase_append_right _ hm, List.erase_cons_tail (by simpa using Ne.symm hx)]

theorem block_nearer (hi : FifoInv a) (h : Ahead a t k) (tid : UInt32) : Nearer a (a.block tid) t k := by
  unfold Fifo.block
  split
  · exact h.nearer rfl
  · rename_i x _
    split
    · exact h.nearer rfl
    · by_cases hx : x = t
      · subst hx
        -- a queued thread is not the current one
        have hcur : some x ≠ a.currentThread := by
          intro hc
          obtain ⟨pre, post, hq, -⟩ := h
          have hready := ((hi.members x).mp (by simp [hq])).2
          cases hready.symm.trans (hi.runs x hc.symm)
        rw [if_neg hcur]
        refine Or.inl ⟨Nat.le_succ _, Or.inr ?_⟩
        simp [Fifo.stop, Fifo.record, setState_table]
      · exact scheduleIf_nearer (h.stop hx) rfl

theorem create_nearer (h : Ahead a t k) (pid : UInt32) (entryPoint : Option π) (stack : Bool) :
    Nearer a (a.create pid entryPoint stack).2 t k := by
  unfold Fifo.create
  split
  · split
    · exact h.nearer rfl
    · split
      · exact h.nearer rfl
      · rename_i slot _
        split
        · exact h.nearer rfl
        · exact scheduleIf_nearer (h.append [slot] rfl) rfl
  · exact h.nearer rfl

/-- Nothing but a block keeps a queued thread from moving up. -/
theorem step_ahead (hi : FifoInv a) (h : Ahead a t k) (op : SchedOp π) : Nearer a (a.step op).2 t k := by
  cases op with
  | create pid entryPoint stack => exact create_nearer h pid entryPoint stack
  | block tid => exact block_nearer hi h tid
  | unblock tid =>
    show Nearer a (a.unblock tid) t k
    unfold Fifo.unblock
    split
    · exact h.nearer rfl
    · split
      · exact h.nearer rfl
      · rename_i x _ _
        exact Ahead.nearer (h.append [x] rfl) rfl
  | yield =>
    show Nearer a a.yield t k
    unfold Fifo.yield
    split
    · exact h.nearer rfl
    · split
      · exact scheduleIf_nearer h rfl
      · exact schedule_nearer h rfl
  | tick =>
    show Nearer a a.tick t k
    unfold Fifo.tick
    split
    · exact h.nearer rfl
    · exact scheduleIf_nearer h rfl
  | exit =>
    show Nearer a a.exit t k
    unfold Fifo.exit
    split
    · exact h.nearer rfl
    · rename_i c _
      have hahead : Ahead (a.retire c) t k := by
        unfold Ahead
        rw [retire_queue]
        exact h
      exact schedule_nearer hahead (by rw [retire_log])
  | schedule => exact schedule_nearer h rfl
  | enable => exact scheduleIf_nearer h rfl
  | run point => exact h.nearer rfl

end Ahead

/-! ## Runs -/

section Runs

variable {s : Sched π} {a : Fifo π} {t : Slot}

def Fifo.runs (a : Fifo π) : List (SchedOp π) → Fifo π
  | [] => a
  | op :: ops => (a.step op).2.runs ops

/-- A queued thread becomes the current one in time, unless it is blocked. -/
theorem runs_ahead {k : Nat} (hi : FifoInv a) (h : Ahead a t k) (ops : List (SchedOp π)) :
    (∃ ops₁, ops₁ <+: ops ∧ calls (a.runs ops₁).log ≤ calls a.log + k + 1 ∧
      ((a.runs ops₁).currentThread = some t ∨ ((a.runs ops₁).table t).state = .blocked)) ∨
    calls (a.runs ops).log ≤ calls a.log + k := by
  induction ops generalizing a k with
  | nil => exact Or.inr (Nat.le_add_right _ _)
  | cons op ops ih =>
    rcases step_ahead hi h op with ⟨hc, hnow⟩ | ⟨k', hk', hc⟩
    · refine Or.inl ⟨[op], ?_, ?_, hnow⟩
      · exact List.cons_prefix_cons.mpr ⟨rfl, List.nil_prefix⟩
      · show calls (a.step op).2.log ≤ _
        omega
    · rcases ih (step_inv hi op) hk' with ⟨ops₁, hpre, hc₁, hnow⟩ | hlate
      · refine Or.inl ⟨op :: ops₁, List.cons_prefix_cons.mpr ⟨rfl, hpre⟩, ?_, hnow⟩
        show calls ((a.step op).2.runs ops₁).log ≤ _
        omega
      · refine Or.inr ?_
        show calls ((a.step op).2.runs ops).log ≤ _
        omega

/-- A run on the links does what it does on lists. -/
theorem run_refines (h : Rep s a) (hidle : s.inScheduler = false) (hi : FifoInv a) (ops : List (SchedOp π)) :
    ∃ rs s', runFrom schedStep s ops = .ok (rs, s') ∧ Rep s' (a.runs ops) ∧ s'.inScheduler = false ∧
      FifoInv (a.runs ops) := by
  induction ops generalizing s a with
  | nil => exact ⟨[], s, rfl, h, hidle, hi⟩
  | cons op ops ih =>
    obtain ⟨s₁, hs₁, hrep, hidle₁⟩ := schedStep_refines h hidle hi.members op
    obtain ⟨rs, s', hrun, hend⟩ := ih hrep hidle₁ (step_inv hi op)
    exact ⟨_, s', runFrom_cons hs₁ hrun, hend⟩

theorem FifoInv.sched (h : FifoInv a) (hr : Rep s a) : SchedInv s a.queue := by
  refine ⟨hr.queue, ?_, ?_, ?_, ?_⟩
  · intro x
    rw [hr.used_eq, hr.state_eq]
    exact h.members x
  · rw [hr.log_eq]
    exact h.order
  · intro c hc
    rw [hr.current_eq] at hc
    rw [hr.used_eq, hr.state_eq]
    exact ⟨(h.current c hc).1, h.runs c hc, h.notMem (by simp [h.runs c hc])⟩
  · intro x hu hx
    rw [hr.used_eq] at hu
    rw [hr.state_eq] at hx
    rw [hr.current_eq]
    exact h.running x hu hx

theorem schedulerInit_rep (s : Sched π) : Rep (schedulerInit s) ((schedulerInit s).toFifo []) := .of_view .nil

theorem schedulerInit_inv (s : Sched π) : FifoInv ((schedulerInit s).toFifo []) := by
  refine .of_none ?_ List.Pairwise.nil rfl ?_
  · intro x
    simp [Sched.toFifo, schedulerInit, Thread.bare]
  · intro x hu
    simp [Sched.toFifo, schedulerInit, Thread.bare] at hu

end Runs

end AmqOs.Processes
