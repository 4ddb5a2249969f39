import AmqOs.Processes.SchedulerDefs

/-!
# The scheduler with a list for the ready queue

`Fifo` is the state of the scheduler with the members of the ready queue as a list and without the links, and
`Fifo.step` performs the calls on it: a thread that becomes ready is appended, `schedule` takes the first member, and a
thread that is blocked is erased.

- `Rep s a`: following the links of `s` visits `a.queue`, and what `s` holds besides its links is `a`;
- `readyQueueAdd_spec`, `readyQueueRemove_spec`: the operations on the links are the ones on lists;
- `schedStep_refines`: a call on `s` neither faults nor diverges and does what it does on `a`.
-/

set_option autoImplicit false

namespace AmqOs.Processes

open AmqOs.Lib

variable {π : Type}

/-- The state of the scheduler, with a list for the ready queue. The threads in `table` have no links. -/
structure Fifo (π : Type) where
  table : Slot → Thread π
  processTable : ProcSlot → Process
  currentThread : Option Slot
  nextTid : UInt32
  schedulerEnabled : Bool
  queue : List Slot
  cpu : π
  log : List (Event π)

/-! ## The calls -/

namespace Fifo

def modify (a : Fifo π) (t : Slot) (f : Thread π → Thread π) : Fifo π :=
  { a with table := fun x => if x = t then f (a.table x) else a.table x }

def record (a : Fifo π) (e : Event π) : Fifo π := { a with log := e :: a.log }

def enqueue (a : Fifo π) (t : Slot) : Fifo π := { a with queue := a.queue ++ [t] }

def setState (a : Fifo π) (t : Slot) (state : ThreadState) : Fifo π := a.modify t fun x => { x with state }

def makeReady (a : Fifo π) (t : Slot) : Fifo π := ((a.setState t .ready).record (.ready t)).enqueue t

def switchTo (a : Fifo π) (prev : Option Slot) (next : Slot) : Fifo π :=
  let point := (a.table next).context
  match prev with
  | none => { a.record (.dispatch next point) with currentThread := some next, cpu := point }
  | some p =>
    if p = next then a
    else
      let left := (a.modify p fun t => { t with context := a.cpu }).record (.leave p a.cpu)
      { left.record (.dispatch next point) with currentThread := some next, cpu := point }

/-- The first member of the queue becomes the current thread. -/
def dispatch (a : Fifo π) (prev : Option Slot) : Fifo π :=
  match a.queue with
  | [] =>
    match prev with
    | none => a
    | some p => if (a.table p).state = .blocked then { a.record (.leave p a.cpu) with currentThread := none } else a
  | next :: rest => { a.setState next .running with queue := rest }.switchTo prev next

/-- The current thread, if it is running, goes to the end of the queue. -/
def requeue (a : Fifo π) : Fifo π :=
  match a.currentThread with
  | none => a
  | some p => if (a.table p).state = .running then a.makeReady p else a

def schedule (a : Fifo π) : Fifo π :=
  if a.schedulerEnabled = false then a else (a.record .schedule).requeue.dispatch a.currentThread

def enable (a : Fifo π) : Fifo π :=
  let a := { a with schedulerEnabled := true }
  if a.currentThread = none ∧ a.queue ≠ [] then a.schedule else a

def getProcess (a : Fifo π) (pid : UInt32) : Option ProcSlot :=
  firstFin 0 fun i => (a.processTable i).used && (a.processTable i).pid == pid

def getThread (a : Fifo π) (tid : UInt32) : Option Slot :=
  firstFin 0 fun i => (a.table i).used && (a.table i).tid == tid

def modifyProcess (a : Fifo π) (p : ProcSlot) (f : Process → Process) : Fifo π :=
  { a with processTable := fun x => if x = p then f (a.processTable x) else a.processTable x }

def enter (a : Fifo π) (slot : Slot) (proc : ProcSlot) (entry : π) : Fifo π :=
  let a := a.modify slot fun t => { t with
    tid := a.nextTid, parent := some proc, state := .ready, used := true, next := none, context := entry }
  let a := { a with nextTid := a.nextTid + 1 }
  (a.modifyProcess proc fun p => { p with threads := p.threads ++ [slot] }).record (.created slot entry)

/-- A new thread, which starts at once when there is no current thread. -/
def spawn (a : Fifo π) (slot : Slot) (proc : ProcSlot) (entry : π) : Fifo π :=
  let a := ((a.enter slot proc entry).record (.ready slot)).enqueue slot
  if a.schedulerEnabled = true ∧ a.currentThread = none then a.schedule else a

def create (a : Fifo π) (pid : UInt32) (entryPoint : Option π) (stack : Bool) : Int × Fifo π :=
  match entryPoint, a.getProcess pid with
  | some entry, some proc =>
    if (a.processTable proc).threads.length ≥ 16 then (-1, a)
    else
      match firstFin 0 fun i => !(a.table i).used with
      | none => (-1, a)
      | some slot => if stack = false then (-1, a) else (a.nextTid.toNat, a.spawn slot proc entry)
  | _, _ => (-1, a)

/-- The thread is blocked and leaves the queue. -/
def stop (a : Fifo π) (t : Slot) : Fifo π :=
  let a := (a.setState t .blocked).record (.blocked t)
  { a with queue := a.queue.erase t }

def block (a : Fifo π) (tid : UInt32) : Fifo π :=
  match a.getThread tid with
  | none => a
  | some t =>
    if (a.table t).state = .blocked then a
    else if some t = a.currentThread then (a.stop t).schedule else a.stop t

def unblock (a : Fifo π) (tid : UInt32) : Fifo π :=
  match a.getThread tid with
  | none => a
  | some t => if (a.table t).state ≠ .blocked then a else a.makeReady t

def leaveProcess (a : Fifo π) (t : Slot) : Fifo π :=
  match (a.table t).parent with
  | none => a
  | some proc => a.modifyProcess proc fun p =>
    let threads := p.threads.erase t
    { p with threads, state := if threads.length = 0 then .terminated else p.state }

/-- The thread gives up its entries in the tables, and there is no current thread. -/
def retire (a : Fifo π) (t : Slot) : Fifo π :=
  { (a.modify t fun x => { x with state := .terminated, used := false }).leaveProcess t with currentThread := none }

def exit (a : Fifo π) : Fifo π :=
  match a.currentThread with
  | none => a
  | some c => (a.retire c).schedule

def yield (a : Fifo π) : Fifo π :=
  if a.schedulerEnabled = false then a
  else if a.currentThread = none then
    if a.queue ≠ [] then a.schedule else a
  else a.schedule

def tick (a : Fifo π) : Fifo π :=
  if a.schedulerEnabled = false then a else if a.queue ≠ [] then a.schedule else a

def step (a : Fifo π) : SchedOp π → Int × Fifo π
  | .create pid entryPoint stack => a.create pid entryPoint stack
  | .block tid => (0, a.block tid)
  | .unblock tid => (0, a.unblock tid)
  | .yield => (0, a.yield)
  | .tick => (0, a.tick)
  | .exit => (0, a.exit)
  | .schedule => (0, a.schedule)
  | .enable => (0, a.enable)
  | .run point => (0, { a with cpu := point })

/-- The queue holds the used ready threads. -/
def Members (a : Fifo π) : Prop := ∀ t, t ∈ a.queue ↔ (a.table t).used = true ∧ (a.table t).state = .ready

end Fifo

/-! ## Representation -/

/-- A thread without its link. -/
def Thread.bare (t : Thread π) : Thread π := { t with next := none }

/-- What a state of the scheduler holds besides its links, with `q` for the queue. -/
def Sched.toFifo (s : Sched π) (q : List Slot) : Fifo π where
  table x := (s.threadTable x).bare
  processTable := s.processTable
  currentThread := s.currentThread
  nextTid := s.nextTid
  schedulerEnabled := s.schedulerEnabled
  queue := q
  cpu := s.cpu
  log := s.log

def Sched.links (s : Sched π) (t : Slot) : Option Slot := (s.threadTable t).next

structure Rep (s : Sched π) (a : Fifo π) : Prop where
  queue : Linked s.links s.readyQueueHead s.readyQueueTail a.queue
  view : s.toFifo a.queue = a

section Rep

variable {s : Sched π} {a : Fifo π} {t : Slot}

theorem Rep.of_view {q : List Slot} (hq : Linked s.links s.readyQueueHead s.readyQueueTail q) : Rep s (s.toFifo q) :=
  ⟨hq, rfl⟩

theorem Rep.current_eq (h : Rep s a) : s.currentThread = a.currentThread := by rw [← h.view]; rfl

theorem Rep.enabled_eq (h : Rep s a) : s.schedulerEnabled = a.schedulerEnabled := by rw [← h.view]; rfl

theorem Rep.processTable_eq (h : Rep s a) : s.processTable = a.processTable := by rw [← h.view]; rfl

theorem Rep.nextTid_eq (h : Rep s a) : s.nextTid = a.nextTid := by rw [← h.view]; rfl

theorem Rep.log_eq (h : Rep s a) : s.log = a.log := by rw [← h.view]; rfl

theorem Rep.cpu_eq (h : Rep s a) : s.cpu = a.cpu := by rw [← h.view]; rfl

/-- The entries agree but for their links. -/
theorem Rep.bare_eq (h : Rep s a) (p : Slot) : (s.threadTable p).bare = a.table p := by rw [← h.view]; rfl

theorem Rep.state_eq (h : Rep s a) (p : Slot) : (s.threadTable p).state = (a.table p).state := by rw [← h.bare_eq]; rfl

theorem Rep.used_eq (h : Rep s a) (p : Slot) : (s.threadTable p).used = (a.table p).used := by rw [← h.bare_eq]; rfl

theorem Rep.tid_eq (h : Rep s a) (p : Slot) : (s.threadTable p).tid = (a.table p).tid := by rw [← h.bare_eq]; rfl

theorem Rep.parent_eq (h : Rep s a) (p : Slot) : (s.threadTable p).parent = (a.table p).parent := by rw [← h.bare_eq]; rfl

theorem Rep.context_eq (h : Rep s a) (p : Slot) : (s.threadTable p).context = (a.table p).context := by
  rw [← h.bare_eq]
  rfl

theorem Rep.head_eq_none (h : Rep s a) : s.readyQueueHead = none ↔ a.queue = [] := by
  rw [h.queue.head_eq, List.head?_eq_none_iff]

/-- Assignments that leave the links alone. -/
theorem Rep.modify (h : Rep s a) {f : Thread π → Thread π} (hn : ∀ x, (f x).next = x.next)
    (hb : ∀ x, (f x).bare = f x.bare) : Rep (s.modify t f) (a.modify t f) := by
  obtain ⟨hq, hv⟩ := h
  constructor
  · apply hq.congr
    intro x _
    simp only [Sched.links, Sched.modify]
    split
    · exact hn _
    · rfl
  · rw [← hv]
    simp only [Sched.toFifo, Sched.modify, Fifo.modify, Fifo.mk.injEq, and_true]
    funext x
    split
    · exact hb _
    · rfl

theorem Rep.setState (h : Rep s a) (state : ThreadState) :
    Rep (s.modify t fun x => { x with state }) (a.setState t state) :=
  h.modify (fun _ => rfl) fun _ => rfl

theorem Rep.record (h : Rep s a) (e : Event π) : Rep (s.record e) (a.record e) := by
  refine ⟨h.queue, ?_⟩
  rw [← h.view]
  rfl

theorem Rep.inScheduler (h : Rep s a) (b : Bool) : Rep { s with inScheduler := b } a := by
  refine ⟨h.queue, ?_⟩
  rw [← h.view]
  rfl

/-! ## The ready queue -/

@[simp] theorem modify_readyQueueHead (f : Thread π → Thread π) :
    (s.modify t f).readyQueueHead = s.readyQueueHead := rfl

@[simp] theorem modify_readyQueueTail (f : Thread π → Thread π) :
    (s.modify t f).readyQueueTail = s.readyQueueTail := rfl

/-- The view does not show the links. -/
theorem modify_next_view {q : List Slot} (n : Option Slot) :
    (s.modify t fun x => { x with next := n }).toFifo q = s.toFifo q := by
  simp only [Sched.toFifo, Sched.modify, Fifo.mk.injEq, and_true]
  funext x
  split <;> rfl

theorem readyQueueAdd_spec (h : Rep s a) (ht : t ∉ a.queue) :
    ∃ s', readyQueueAdd s t = .ok s' ∧ Rep s' (a.enqueue t) ∧ s'.inScheduler = s.inScheduler := by
  obtain ⟨hq, hv⟩ := h
  unfold readyQueueAdd
  cases hh : s.readyQueueHead with
  | none =>
    rw [hh] at hq
    have hnil := hq.eq_nil
    refine ⟨_, if_pos hh, ⟨?_, ?_⟩, rfl⟩
    · simp only [Fifo.enqueue, hnil, List.nil_append]
      apply Linked.single
      simp [Sched.links, Sched.modify]
    · rw [← hv]
      exact modify_next_view none
  | some b =>
    have hne : a.queue ≠ [] := by
      intro e
      rw [hh, e] at hq
      cases hq.head_eq
    have hlast := hq.last
    rw [List.getLast?_eq_some_getLast hne] at hlast
    generalize hl : a.queue.getLast hne = last at hlast
    have hlm : last ∈ a.queue := hl ▸ List.getLast_mem hne
    have hlt : last ≠ t := fun e => ht (e ▸ hlm)
    simp only [modify_readyQueueHead, modify_readyQueueTail, hh, hlast, reduceCtorEq, if_false]
    refine ⟨_, rfl, ⟨?_, ?_⟩, rfl⟩
    · rw [hlast, hh] at hq
      refine hq.add ht ?_ ?_ ?_
      · simp [Sched.links, Sched.modify]
      · simp [Sched.links, Sched.modify, Ne.symm hlt]
      · intro x hx hxl
        have hxt : x ≠ t := fun e => ht (e ▸ hx)
        simp [Sched.links, Sched.modify, hxl, hxt]
    · rw [← hv]
      exact (modify_next_view (some t)).trans (modify_next_view none)

theorem removeLoop_spec {p r : List Slot} {b : Slot} (fuel : Nat) (h : Rep s a) (hsplit : a.queue = p ++ b :: r)
    (hp : t ∉ p) (hb : b ≠ t) (hfuel : r.length < fuel) :
    ∃ s', removeLoop s t fuel b = .ok s' ∧ Rep s' { a with queue := a.queue.erase t } ∧
      s'.inScheduler = s.inScheduler := by
  induction fuel generalizing p b r with
  | zero => exact absurd hfuel (by omega)
  | succ fuel ih =>
    have hq := h.queue
    rw [hsplit] at hq
    have hnext : LinkedFrom s.links (s.links b) r := hq.links.suffix
    unfold removeLoop
    cases r with
    | nil =>
      refine ⟨s, ?_, ?_, rfl⟩
      · have hn : (s.threadTable b).next = none := hnext
        simp [hn]
      · have hmem : t ∉ a.queue := by
          rw [hsplit]
          simp [hp, Ne.symm hb]
        rw [List.erase_of_not_mem hmem]
        exact h
    | cons n r =>
      have hn : (s.threadTable b).next = some n := hnext.1
      by_cases hnt : n = t
      · subst hnt
        have herase : a.queue.erase n = p ++ b :: r := by
          rw [hsplit, List.erase_append_right _ hp, List.erase_cons_tail (by simpa using hb), List.erase_cons_head]
        simp only [hn, if_true, modify_readyQueueTail]
        refine ⟨_, rfl, ⟨?_, ?_⟩, rfl⟩
        · show Linked _ _ _ (a.queue.erase n)
          rw [herase]
          have hnd := hq.nodup
          refine hq.remove ?_ ?_
          · simp [Sched.links, Sched.modify, hb]
          · intro x hx
            have hxb : x ≠ b := by
              rintro rfl
              simp [List.nodup_append, List.nodup_cons] at hnd
              grind
            have hxn : x ≠ n := by
              rintro rfl
              simp [List.nodup_append, List.nodup_cons] at hnd
              grind
            simp [Sched.links, Sched.modify, hxb, hxn]
        · rw [herase]
          refine (modify_next_view none).trans ((modify_next_view _).trans ?_)
          rw [← h.view]
          rfl
      · have hstep := ih (p := p ++ [b]) (b := n) (r := r) (by simp [hsplit]) (by simp [hp, Ne.symm hb]) hnt
          (by simpa using hfuel)
        simpa only [hn, if_neg hnt] using hstep

theorem readyQueueRemove_spec (h : Rep s a) :
    ∃ s', readyQueueRemove s t = .ok s' ∧ Rep s' { a with queue := a.queue.erase t } ∧
      s'.inScheduler = s.inScheduler := by
  have hq := h.queue
  have hlen : a.queue.length ≤ 256 := by
    have hcard := hq.nodup.length_le_card
    rwa [Fintype.card_fin] at hcard
  unfold readyQueueRemove
  cases hl : a.queue with
  | nil =>
    refine ⟨s, ?_, ?_, rfl⟩
    · rw [h.head_eq_none.mpr hl]
    · rw [List.erase_nil, ← hl]
      exact h
  | cons b r =>
    rw [hl] at hq hlen
    have hhead : s.readyQueueHead = some b := hq.head_eq
    by_cases hbt : b = t
    · subst hbt
      simp only [hhead, if_true]
      refine ⟨_, rfl, ⟨?_, ?_⟩, rfl⟩
      · show Linked _ _ _ ((b :: r).erase b)
        rw [List.erase_cons_head]
        apply hq.pop
        intro x hx
        have hxb : x ≠ b := fun e => (List.nodup_cons.mp hq.nodup).1 (e ▸ hx)
        simp [Sched.links, Sched.modify, hxb]
      · rw [List.erase_cons_head]
        refine (modify_next_view none).trans ?_
        rw [← h.view]
        rfl
    · have hloop := removeLoop_spec (t := t) 257 h (p := []) hl List.not_mem_nil hbt
        (by simp only [List.length_cons] at hlen; omega)
      simpa only [hhead, if_neg hbt, hl] using hloop

end Rep

/-! ## Switching -/

section Switch

variable {s : Sched π} {a : Fifo π} {t : Slot}

theorem makeReady_spec (h : Rep s a) (ht : t ∉ a.queue) :
    ∃ s', makeReady s t = .ok s' ∧ Rep s' (a.makeReady t) ∧ s'.inScheduler = s.inScheduler :=
  readyQueueAdd_spec ((h.setState .ready).record (.ready t)) ht

/-- The first member leaves the queue and runs. -/
theorem takeHead_spec {next : Slot} {rest : List Slot} (h : Rep s a) (hq : a.queue = next :: rest) :
    Rep (takeHead s next) { a.setState next .running with queue := rest } := by
  have hl := h.queue
  rw [hq] at hl
  constructor
  · apply hl.pop
    intro x hx
    have hxn : x ≠ next := fun e => (List.nodup_cons.mp hl.nodup).1 (e ▸ hx)
    simp [takeHead, Sched.links, Sched.modify, hxn]
  · rw [← h.view]
    simp only [takeHead, Sched.toFifo, Sched.modify, Fifo.setState, Fifo.modify, Fifo.mk.injEq, and_true]
    funext x
    split <;> rfl

theorem switchTo_spec (h : Rep s a) (prev : Option Slot) (next : Slot) :
    Rep (switchTo s prev next) (a.switchTo prev next) ∧ (switchTo s prev next).inScheduler = false := by
  unfold switchTo Fifo.switchTo
  rw [← h.context_eq, ← h.cpu_eq]
  cases prev with
  | none =>
    have hrec := h.record (.dispatch next (s.threadTable next).context)
    refine ⟨⟨hrec.queue, ?_⟩, rfl⟩
    rw [← h.view]
    rfl
  | some p =>
    by_cases hpn : p = next
    · simp only [if_pos hpn, and_true]
      exact h.inScheduler false
    · simp only [if_neg hpn, and_true]
      have hleft := ((h.modify (t := p) (f := fun x => { x with context := s.cpu }) (fun _ => rfl)
        fun _ => rfl).record (.leave p s.cpu)).record (.dispatch next (s.threadTable next).context)
      refine ⟨hleft.queue, ?_⟩
      rw [← hleft.view]
      rfl

theorem dispatch_spec (h : Rep s a) (prev : Option Slot) :
    Rep (dispatch s prev) (a.dispatch prev) ∧ (dispatch s prev).inScheduler = false := by
  unfold dispatch Fifo.dispatch
  split
  · rename_i hhead
    simp only [h.head_eq_none.mp hhead]
    cases prev with
    | none => exact ⟨h.inScheduler false, rfl⟩
    | some p =>
      simp only [h.state_eq]
      split
      · refine ⟨⟨h.queue, ?_⟩, rfl⟩
        rw [← h.view]
        rfl
      · exact ⟨h.inScheduler false, rfl⟩
  · rename_i next hhead
    obtain ⟨rest, hq⟩ : ∃ rest, a.queue = next :: rest := by
      rw [h.queue.head_eq] at hhead
      exact List.head?_eq_some_iff.mp hhead
    simp only [hq]
    exact switchTo_spec (takeHead_spec h hq) prev next

/-- What `schedule` relies on: a running current thread is not queued. -/
def Fifo.CurrentOut (a : Fifo π) : Prop :=
  ∀ p, a.currentThread = some p → (a.table p).state = .running → p ∉ a.queue

theorem requeue_spec (h : Rep s a) (hout : a.CurrentOut) : ∃ s', requeue s = .ok s' ∧ Rep s' a.requeue := by
  unfold requeue Fifo.requeue
  rw [h.current_eq]
  cases hc : a.currentThread with
  | none => exact ⟨s, rfl, h⟩
  | some p =>
    by_cases hrun : (a.table p).state = .running
    · obtain ⟨s₁, hs₁, hrep, -⟩ := makeReady_spec h (hout p hc hrun)
      simp only [h.state_eq, if_pos hrun]
      exact ⟨s₁, hs₁, hrep⟩
    · simp only [h.state_eq, if_neg hrun]
      exact ⟨s, rfl, h⟩

theorem schedule_spec (h : Rep s a) (hidle : s.inScheduler = false) (hout : a.CurrentOut) :
    ∃ s', schedule s = .ok s' ∧ Rep s' a.schedule ∧ s'.inScheduler = false := by
  unfold schedule Fifo.schedule
  by_cases he : a.schedulerEnabled = false
  · rw [if_pos (h.enabled_eq.trans he), if_pos he]
    exact ⟨s, rfl, h, hidle⟩
  · rw [if_neg (h.enabled_eq ▸ he), if_neg he, if_neg (by simp [hidle])]
    obtain ⟨s₁, hs₁, hrep⟩ := requeue_spec ((h.record .schedule).inScheduler true) hout
    obtain ⟨hd, hi⟩ := dispatch_spec hrep a.currentThread
    rw [h.current_eq, hs₁]
    exact ⟨_, rfl, hd, hi⟩

/-- A call of `schedule` behind a test. -/
theorem scheduleIf_spec {P Q : Prop} [Decidable P] [Decidable Q] (hPQ : P ↔ Q) (h : Rep s a)
    (hidle : s.inScheduler = false) (hout : Q → a.CurrentOut) :
    ∃ s', (if P then schedule s else .ok s) = .ok s' ∧ Rep s' (if Q then a.schedule else a) ∧
      s'.inScheduler = false := by
  by_cases hQ : Q
  · rw [if_pos hQ, if_pos (hPQ.mpr hQ)]
    exact schedule_spec h hidle (hout hQ)
  · rw [if_neg hQ, if_neg fun hP => hQ (hPQ.mp hP)]
    exact ⟨s, rfl, h, hidle⟩

end Switch

/-! ## The calls -/

section Calls

variable {s : Sched π} {a : Fifo π} {t : Slot}

theorem Fifo.Members.currentOut (h : a.Members) : a.CurrentOut := by
  intro p _ hrun hp
  have hready := ((h p).mp hp).2
  rw [hrun] at hready
  cases hready

theorem Fifo.currentOut_of_none (h : a.currentThread = none) : a.CurrentOut := by
  intro p hp
  rw [h] at hp
  cases hp

theorem Rep.getThread (h : Rep s a) (tid : UInt32) : getThread s tid = a.getThread tid := by
  rw [← h.view]
  rfl

theorem enterThread_spec (h : Rep s a) (ht : t ∉ a.queue) (proc : ProcSlot) (entry : π) :
    Rep (enterThread s t proc entry) (a.enter t proc entry) := by
  constructor
  · apply h.queue.congr
    intro x hx
    have hxt : x ≠ t := fun e => ht (e ▸ hx)
    simp [enterThread, Sched.links, Sched.modify, Sched.modifyProcess, Sched.record, hxt]
  · rw [← h.view]
    simp only [enterThread, Fifo.enter, Sched.toFifo, Sched.modify, Sched.modifyProcess, Sched.record, Fifo.modify,
      Fifo.modifyProcess, Fifo.record, Fifo.mk.injEq, and_true]
    funext x
    split <;> rfl

theorem leaveProcess_spec (h : Rep s a) : Rep (leaveProcess s t) (a.leaveProcess t) := by
  unfold leaveProcess Fifo.leaveProcess
  rw [h.parent_eq]
  cases (a.table t).parent with
  | none => exact h
  | some proc =>
    refine ⟨h.queue, ?_⟩
    rw [← h.view]
    rfl

theorem autoStart_spec (h : Rep s a) (hidle : s.inScheduler = false) :
    ∃ s', autoStart s = .ok s' ∧
      Rep s' (if a.schedulerEnabled = true ∧ a.currentThread = none then a.schedule else a) ∧
      s'.inScheduler = false :=
  scheduleIf_spec (by rw [h.enabled_eq, h.current_eq]) h hidle fun hc => Fifo.currentOut_of_none hc.2

theorem threadCreate_spec (h : Rep s a) (hidle : s.inScheduler = false) (hm : a.Members) (pid : UInt32)
    (entryPoint : Option π) (stack : Bool) :
    ∃ s', threadCreate s pid entryPoint stack = .ok ((a.create pid entryPoint stack).1, s') ∧
      Rep s' (a.create pid entryPoint stack).2 ∧ s'.inScheduler = false := by
  have hproc : getProcess s pid = a.getProcess pid := by rw [← h.view]; rfl
  have hslot : findFreeThreadSlot s = firstFin 0 fun i => !(a.table i).used := by rw [← h.view]; rfl
  unfold threadCreate Fifo.create
  rw [hproc, hslot, h.nextTid_eq]
  cases entryPoint with
  | none => exact ⟨s, rfl, h, hidle⟩
  | some entry =>
    cases a.getProcess pid with
    | none => exact ⟨s, rfl, h, hidle⟩
    | some proc =>
      simp only [h.processTable_eq]
      by_cases hfull : (a.processTable proc).threads.length ≥ 16
      · simp only [if_pos hfull]
        exact ⟨s, rfl, h, hidle⟩
      · simp only [if_neg hfull]
        cases hf : firstFin 0 fun i => !(a.table i).used with
        | none => exact ⟨s, rfl, h, hidle⟩
        | some slot =>
          cases stack with
          | false => exact ⟨s, rfl, h, hidle⟩
          | true =>
            have hfree : slot ∉ a.queue := by
              intro hq
              have hused := (firstFin_eq_some.mp hf).2.1
              simp [((hm slot).mp hq).1] at hused
            obtain ⟨s₁, hs₁, hrep, hi⟩ :=
              readyQueueAdd_spec ((enterThread_spec h hfree proc entry).record (.ready slot)) hfree
            obtain ⟨s₂, hs₂, hrep₂, hi₂⟩ := autoStart_spec hrep (hi.trans hidle)
            refine ⟨s₂, ?_, hrep₂, hi₂⟩
            simp only [hs₁, ok_bind, hs₂, Bool.true_eq_false, if_false]

theorem threadBlock_spec (h : Rep s a) (hidle : s.inScheduler = false) (tid : UInt32) :
    ∃ s', threadBlock s tid = .ok s' ∧ Rep s' (a.block tid) ∧ s'.inScheduler = false := by
  unfold threadBlock Fifo.block
  rw [h.getThread]
  cases a.getThread tid with
  | none => exact ⟨s, rfl, h, hidle⟩
  | some t =>
    simp only [h.state_eq]
    by_cases hb : (a.table t).state = .blocked
    · simp only [if_pos hb]
      exact ⟨s, rfl, h, hidle⟩
    · simp only [if_neg hb]
      obtain ⟨s₁, hs₁, hrep, hi⟩ := readyQueueRemove_spec (t := t) ((h.setState (t := t) .blocked).record (.blocked t))
      obtain ⟨s₂, hs₂, hrep₂, hi₂⟩ := scheduleIf_spec (P := some t = s₁.currentThread)
        (Q := some t = a.currentThread) (by rw [hrep.current_eq]; rfl) hrep (hi.trans hidle) (by
          intro hc p hp hrun
          cases hc.trans hp
          simp [Fifo.record, Fifo.setState, Fifo.modify] at hrun)
      refine ⟨s₂, ?_, hrep₂, hi₂⟩
      rw [hs₁]
      exact hs₂

theorem threadUnblock_spec (h : Rep s a) (hidle : s.inScheduler = false) (hm : a.Members) (tid : UInt32) :
    ∃ s', threadUnblock s tid = .ok s' ∧ Rep s' (a.unblock tid) ∧ s'.inScheduler = false := by
  unfold threadUnblock Fifo.unblock
  rw [h.getThread]
  cases a.getThread tid with
  | none => exact ⟨s, rfl, h, hidle⟩
  | some t =>
    simp only [h.state_eq]
    by_cases hb : (a.table t).state = .blocked
    · have hout : t ∉ a.queue := by
        intro hq
        have hready := ((hm t).mp hq).2
        rw [hb] at hready
        cases hready
      obtain ⟨s', hs', hrep, hi⟩ := makeReady_spec h hout
      simp only [hb, ne_eq, not_true_eq_false, if_false]
      exact ⟨s', hs', hrep, hi.trans hidle⟩
    · simp only [if_pos hb]
      exact ⟨s, rfl, h, hidle⟩

theorem threadExit_spec (h : Rep s a) (hidle : s.inScheduler = false) :
    ∃ s', threadExit s = .ok s' ∧ Rep s' a.exit ∧ s'.inScheduler = false := by
  unfold threadExit Fifo.exit
  rw [h.current_eq]
  cases a.currentThread with
  | none => exact ⟨s, rfl, h, hidle⟩
  | some c =>
    have hleft := leaveProcess_spec (t := c) (h.modify (t := c)
      (f := fun t => { t with state := .terminated, used := false }) (fun _ => rfl) fun _ => rfl)
    refine schedule_spec ⟨hleft.queue, ?_⟩ ?_ (Fifo.currentOut_of_none rfl)
    · simp only [Fifo.retire]
      rw [← hleft.view]
      rfl
    · unfold leaveProcess
      split <;> exact hidle

theorem threadYield_spec (h : Rep s a) (hidle : s.inScheduler = false) (hm : a.Members) :
    ∃ s', threadYield s = .ok s' ∧ Rep s' a.yield ∧ s'.inScheduler = false := by
  unfold threadYield Fifo.yield
  rw [h.enabled_eq, h.current_eq]
  by_cases he : a.schedulerEnabled = false
  · rw [if_pos he, if_pos he]
    exact ⟨s, rfl, h, hidle⟩
  · rw [if_neg he, if_neg he]
    by_cases hc : a.currentThread = none
    · rw [if_pos hc, if_pos hc]
      exact scheduleIf_spec (not_congr h.head_eq_none) h hidle fun _ => hm.currentOut
    · rw [if_neg hc, if_neg hc]
      exact schedule_spec h hidle hm.currentOut

theorem schedulerTick_spec (h : Rep s a) (hidle : s.inScheduler = false) (hm : a.Members) :
    ∃ s', schedulerTick s = .ok s' ∧ Rep s' a.tick ∧ s'.inScheduler = false := by
  unfold schedulerTick Fifo.tick
  rw [h.enabled_eq]
  by_cases he : a.schedulerEnabled = false
  · rw [if_pos he, if_pos he]
    exact ⟨s, rfl, h, hidle⟩
  · rw [if_neg he, if_neg he, if_neg (by simp [hidle])]
    exact scheduleIf_spec (not_congr h.head_eq_none) h hidle fun _ => hm.currentOut

theorem schedulerEnable_spec (h : Rep s a) (hidle : s.inScheduler = false) (hm : a.Members) :
    ∃ s', schedulerEnable s = .ok s' ∧ Rep s' a.enable ∧ s'.inScheduler = false := by
  have hon : Rep { s with schedulerEnabled := true } { a with schedulerEnabled := true } := by
    refine ⟨h.queue, ?_⟩
    rw [← h.view]
    rfl
  exact scheduleIf_spec (and_congr (by rw [hon.current_eq]) (not_congr hon.head_eq_none)) hon hidle
    fun _ => Fifo.Members.currentOut hm

/-- **Refinement.** A call neither faults nor diverges and does what it does on lists. -/
theorem schedStep_refines (h : Rep s a) (hidle : s.inScheduler = false) (hm : a.Members) (op : SchedOp π) :
    ∃ s', schedStep s op = .ok ((a.step op).1, s') ∧ Rep s' (a.step op).2 ∧ s'.inScheduler = false := by
  cases op with
  | create pid entryPoint stack => exact threadCreate_spec h hidle hm pid entryPoint stack
  | block tid =>
    obtain ⟨s', hs', hr⟩ := threadBlock_spec h hidle tid
    exact ⟨s', by simp [schedStep, hs', Fifo.step], hr⟩
  | unblock tid =>
    obtain ⟨s', hs', hr⟩ := threadUnblock_spec h hidle hm tid
    exact ⟨s', by simp [schedStep, hs', Fifo.step], hr⟩
  | yield =>
    obtain ⟨s', hs', hr⟩ := threadYield_spec h hidle hm
    exact ⟨s', by simp [schedStep, hs', Fifo.step], hr⟩
  | tick =>
    obtain ⟨s', hs', hr⟩ := schedulerTick_spec h hidle hm
    exact ⟨s', by simp [schedStep, hs', Fifo.step], hr⟩
  | exit =>
    obtain ⟨s', hs', hr⟩ := threadExit_spec h hidle
    exact ⟨s', by simp [schedStep, hs', Fifo.step], hr⟩
  | schedule =>
    obtain ⟨s', hs', hr⟩ := schedule_spec h hidle hm.currentOut
    exact ⟨s', by simp [schedStep, hs', Fifo.step], hr⟩
  | enable =>
    obtain ⟨s', hs', hr⟩ := schedulerEnable_spec h hidle hm
    exact ⟨s', by simp [schedStep, hs', Fifo.step], hr⟩
  | run point =>
    refine ⟨_, rfl, ⟨h.queue, ?_⟩, hidle⟩
    rw [← h.view]
    rfl

end Calls

end AmqOs.Processes
