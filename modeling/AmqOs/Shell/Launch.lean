import AmqOs.Processes.JobSlots

/-!
# Background launch

What `process_command` of `shell.c` does with a command that ends in `&`: it takes a context from the heap, creates a
thread, hands the context to it and adds a job. The thread is ready once it is created, so other threads, and it itself,
may run before the launch goes on: `early` are their steps before `get_thread`, `late` those before `add_bg_job`. A
thread that finds no context exits.

The heap is the set of the contexts that are allocated, with their addresses; `ctx` is what `kmalloc` returned.

The launch leaves all of thread, context and job, or nothing, if and only if no thread is created, or it has an id below
2^31, it is still there when the job is added and there is a free entry for the job, or it is gone and there is none
(`launch_allOrNothing_iff`). In the other cases it gives back what it still holds and leaves the rest.
-/

set_option autoImplicit false

namespace AmqOs.Shell

open AmqOs.Lib AmqOs.Processes

/-- What a thread was created to run. -/
inductive EntryPoint
  | bgCommandThread
  | other
  deriving DecidableEq

/-- `private_data` and `entry_point` of a `thread_t`. -/
structure ThreadFields where
  privateData : Nat
  entryPoint : EntryPoint

/-- `bg_exec_context_t`. -/
structure BgContext where
  command : List UInt8
  jobId : Int
  shouldRun : Int

structure Machine where
  sleepers : Sleepers
  fields : Slot → ThreadFields
  contexts : Nat → Option BgContext

/-- The scheduler of the machine. -/
def Machine.sched (s : Machine) : Sched Point := s.sleepers.sched

def Machine.setContext (s : Machine) (ctx : Nat) (context : Option BgContext) : Machine :=
  { s with contexts := Function.update s.contexts ctx context }

/-- The machine after a step of its threads; `thread_create` has set the fields of an entry that it took. -/
def Machine.enter (s : Machine) (sleepers : Sleepers) (entryPoint : EntryPoint) : Machine :=
  { s with
    sleepers
    fields := fun x =>
      if (sleepers.sched.threadTable x).used = true ∧ (s.sched.threadTable x).used = false then ⟨0, entryPoint⟩
      else s.fields x }

/-- A step of other threads. -/
def otherStep (s : Machine) (op : SleepOp) : Except SchedFault (Int × Machine) := do
  let (r, sleepers) ← sleepStep s.sleepers op
  .ok (r, s.enter sleepers .other)

/-! ## The launch -/

/-- The launch up to the test of `tid`; it goes on when there is one. -/
def launchThread (s : Machine) (cmd : List UInt8) (ctx : Nat) (stack : Bool) :
    Except SchedFault (Option UInt32 × Machine) :=
  match getProcess s.sched 1 with
  | none => .ok (none, s)
  | some proc =>
    if ctx = 0 then .ok (none, s)
    else do
      let s := s.setContext ctx (some ⟨cmd.take 255, -1, 1⟩)
      let (tid, sched) ← threadCreate s.sched (s.sched.processTable proc).pid (some .rest) stack
      let s := s.enter { s.sleepers with sched } .bgCommandThread
      if asInt tid < 0 then .ok (none, s.setContext ctx none)
      else .ok (some (UInt32.ofNat tid.toNat), s)

/-- `thread->private_data = bg_ctx`, if there is a thread. -/
def attach (s : Machine) (ctx : Nat) (tid : UInt32) : Machine :=
  match getThread s.sched tid with
  | none => s
  | some thread =>
    { s with fields := Function.update s.fields thread { s.fields thread with privateData := ctx } }

/-- The launch from the call of `add_bg_job` on. -/
def enterJob (s : Machine) (ctx : Nat) (tid : UInt32) : Machine :=
  let (jobId, sleepers) := addJob s.sleepers tid
  let s := { s with sleepers }
  if jobId > 0 then s.setContext ctx ((s.contexts ctx).map fun context => { context with jobId })
  else s.setContext ctx none

/-- The launch between `thread_create` and `add_bg_job`. -/
def handOver (s : Machine) (ctx : Nat) (tid : UInt32) (early late : List SleepOp) : Except SchedFault Machine := do
  let (_, s) ← runFrom otherStep s early
  let (_, s) ← runFrom otherStep (attach s ctx tid) late
  .ok s

/-- The launch of `cmd`, from the message "Launching background job" on. -/
def launch (s : Machine) (cmd : List UInt8) (ctx : Nat) (stack : Bool) (early late : List SleepOp) :
    Except SchedFault Machine := do
  match ← launchThread s cmd ctx stack with
  | (none, s) => .ok s
  | (some tid, s) => do
    let s ← handOver s ctx tid early late
    .ok (enterJob s ctx tid)

/-! ## All or nothing -/

/-- The thread of the launch has a context that is allocated, and there is a job for it. -/
def Launched (s s' : Machine) : Prop :=
  ∃ x i, (s'.sched.threadTable x).used = true ∧ (s'.sched.threadTable x).tid = s.sched.nextTid ∧
    (s'.fields x).entryPoint = .bgCommandThread ∧ (s'.contexts (s'.fields x).privateData).isSome = true ∧
    (s'.sleepers.jobTable i).used = true ∧ (s'.sleepers.jobTable i).tid = s.sched.nextTid

/-- There is no context, thread or job of the launch. -/
structure Undone (s s' : Machine) : Prop where
  contexts : s'.contexts = s.contexts
  thread : ¬Live s'.sched s.sched.nextTid
  job : ∀ i, (s'.sleepers.jobTable i).used = true → (s'.sleepers.jobTable i).tid ≠ s.sched.nextTid

def AllOrNothing (s s' : Machine) : Prop := Launched s s' ∨ Undone s s'

/-- There is room for another thread. -/
def ThreadRoom {π : Type} (s : Sched π) (proc : ProcSlot) (stack : Bool) : Prop :=
  (s.processTable proc).threads.length < 16 ∧ (∃ x, (s.threadTable x).used = false) ∧ stack = true

/-- `thread_create` makes a thread. -/
def Creates (s : Machine) (ctx : Nat) (stack : Bool) : Prop :=
  ∃ proc, getProcess s.sched 1 = some proc ∧ ctx ≠ 0 ∧ ThreadRoom s.sched proc stack

/-- There is a free entry in the job table. -/
def JobRoom (s : Machine) : Prop := ∃ i, (s.sleepers.jobTable i).used = false

/-- Either the thread is there and so is room for its job, or neither. -/
def Settled (s : Machine) (tid : UInt32) : Prop :=
  (Live s.sched tid ∧ JobRoom s ∧ 0 < s.sleepers.nextJobId) ∨ (¬Live s.sched tid ∧ ¬JobRoom s)

/-- What the launch needs. -/
def Completes (s : Machine) (cmd : List UInt8) (ctx : Nat) (stack : Bool) (early late : List SleepOp) : Prop :=
  Creates s ctx stack → s.sched.nextTid.toNat < 2 ^ 31 ∧
    ∀ tid s₁ s₂, launchThread s cmd ctx stack = .ok (some tid, s₁) → handOver s₁ ctx tid early late = .ok s₂ →
      Settled s₂ tid

/-! ## The new thread -/

section Create

variable {π : Type} {s s' : Sched π} {pid : UInt32} {proc : ProcSlot} {entry : π} {stack : Bool} {r : Int}

theorem threadCreate_full (hproc : getProcess s pid = some proc) (hroom : ¬ThreadRoom s proc stack) :
    threadCreate s pid (some entry) stack = .ok (-1, s) := by
  unfold threadCreate
  rw [hproc]
  simp only
  by_cases hfull : (s.processTable proc).threads.length ≥ 16
  · exact if_pos hfull
  · rw [if_neg hfull]
    cases hslot : findFreeThreadSlot s with
    | none => rfl
    | some slot =>
      cases stack with
      | false => rfl
      | true =>
        have hfree : (s.threadTable slot).used = false := by simpa using (firstFin_eq_some.mp hslot).2.1
        exact absurd ⟨not_le.mp hfull, ⟨slot, hfree⟩, rfl⟩ hroom

theorem threadCreate_room (hs : threadCreate s pid (some entry) stack = .ok (r, s'))
    (hproc : getProcess s pid = some proc) (hroom : ThreadRoom s proc stack) : r = s.nextTid.toNat := by
  obtain ⟨hlen, ⟨x, hx⟩, rfl⟩ := hroom
  unfold threadCreate at hs
  rw [hproc] at hs
  simp only [if_neg (not_le.mpr hlen)] at hs
  cases hslot : findFreeThreadSlot s with
  | none =>
    have hused := firstFin_eq_none.mp hslot x (Nat.zero_le _)
    simp [hx] at hused
  | some slot =>
    rw [hslot] at hs
    simp only [Bool.true_eq_false, if_false] at hs
    obtain ⟨s₁, -, hs⟩ := bind_eq_ok.mp hs
    obtain ⟨s₂, -, hs⟩ := bind_eq_ok.mp hs
    exact (Prod.mk.inj (Except.ok.inj hs)).1.symm

/-- **`thread_create`** makes a thread, with the next id, if there is room. -/
theorem threadCreate_newThread (h : Sound s) (hs : threadCreate s pid (some entry) stack = .ok (r, s'))
    (hproc : getProcess s pid = some proc) (hroom : ThreadRoom s proc stack) :
    r = s.nextTid.toNat ∧ Sound s' ∧ ∃ slot, NewThread s s' slot := by
  have hr := threadCreate_room hs hproc hroom
  refine ⟨hr, ?_⟩
  obtain ⟨a, hrep, hidle, hi, ha⟩ := h
  obtain ⟨s₁, hs₁, hrep₁, hidle₁⟩ := threadCreate_spec hrep hidle hi.members pid (some entry) stack
  cases hs.symm.trans hs₁
  refine ⟨⟨_, hrep₁, hidle₁, step_inv hi (.create pid (some entry) stack), ha.step (.create pid (some entry) stack)⟩, ?_⟩
  rcases create_owners a pid (some entry) stack with hnone | ⟨entry', proc', slot, -, -, hfree, -, hsame⟩
  · rw [hnone] at hr
    change (-1 : Int) = s.nextTid.toNat at hr
    omega
  · exact ⟨slot, hsame.newThread hfree hrep hrep₁⟩

end Create

/-! ## Steps of other threads -/

structure MachineInv (s : Machine) : Prop where
  jobs : JobInv s.sleepers
  tids : ∀ x, (s.sched.threadTable x).used = true → (s.sched.threadTable x).tid.toNat < s.sched.nextTid.toNat

/-- What other threads leave to the thread `tid`. -/
structure Leaves (tid : UInt32) (s s' : Machine) : Prop where
  contexts : s'.contexts = s.contexts
  slots : ∀ x, (s'.sched.threadTable x).used = true → (s'.sched.threadTable x).tid = tid →
    (s.sched.threadTable x).used = true ∧ (s.sched.threadTable x).tid = tid ∧ s'.fields x = s.fields x
  jobs : ∀ i, (s'.sleepers.jobTable i).used = true →
    (s.sleepers.jobTable i).used = true ∧ (s'.sleepers.jobTable i).tid = (s.sleepers.jobTable i).tid

section Steps

variable {s s' s'' : Machine} {tid : UInt32} {op : SleepOp} {ops : List SleepOp} {r : Int} {rs : List Int} {ctx : Nat}

theorem Leaves.refl (s : Machine) : Leaves tid s s :=
  ⟨rfl, fun _ hu ht => ⟨hu, ht, rfl⟩, fun _ hu => ⟨hu, rfl⟩⟩

theorem Leaves.trans (h : Leaves tid s s') (h' : Leaves tid s' s'') : Leaves tid s s'' := by
  refine ⟨h'.contexts.trans h.contexts, fun x hu ht => ?_, fun i hu => ?_⟩
  · obtain ⟨hu', ht', hf'⟩ := h'.slots x hu ht
    obtain ⟨hu'', ht'', hf⟩ := h.slots x hu' ht'
    exact ⟨hu'', ht'', hf'.trans hf⟩
  · obtain ⟨hu', ht'⟩ := h'.jobs i hu
    obtain ⟨hu'', ht⟩ := h.jobs i hu'
    exact ⟨hu'', ht'.trans ht⟩

/-- The next id grows by at most one, and stays in range. -/
theorem nextTid_next {n : Nat} {sleepers : Sleepers} (h : StepEffect s.sleepers op sleepers)
    (hids : s.sched.nextTid.toNat + (n + 1) < 2 ^ 32) :
    s.sched.nextTid.toNat ≤ sleepers.sched.nextTid.toNat ∧ sleepers.sched.nextTid.toNat + n < 2 ^ 32 := by
  rcases h.threads with hnone | ⟨-, slot, hnew⟩
  · rw [hnone.nextTid]
    exact ⟨le_refl _, lt_trans (Nat.add_lt_add_left n.lt_succ_self _) hids⟩
  · rw [hnew.nextTid, UInt32.toNat_add]
    change s.sched.nextTid.toNat ≤ (s.sched.nextTid.toNat + 1) % 2 ^ 32 ∧ (s.sched.nextTid.toNat + 1) % 2 ^ 32 + n < _
    rw [Nat.mod_eq_of_lt (by omega)]
    omega

/-- The ids of threads stay below the next one. -/
theorem tids_next (sleepers : Sleepers) (h : MachineInv s) (hids : s.sched.nextTid.toNat + 1 < 2 ^ 32)
    (hthreads : NoNew s.sched sleepers.sched ∨ ∃ slot, NewThread s.sched sleepers.sched slot) (x : Slot)
    (hu : (sleepers.sched.threadTable x).used = true) :
    (sleepers.sched.threadTable x).tid.toNat < sleepers.sched.nextTid.toNat := by
  rcases hthreads with hnone | ⟨slot, hnew⟩
  · obtain ⟨hused, htid⟩ := hnone.slots x hu
    rw [hnone.nextTid, htid]
    exact h.tids x hused
  · have hnext : sleepers.sched.nextTid.toNat = s.sched.nextTid.toNat + 1 := by
      rw [hnew.nextTid, UInt32.toNat_add]
      exact Nat.mod_eq_of_lt hids
    rw [hnext]
    by_cases hx : x = slot
    · rw [hx, hnew.tid]
      exact Nat.lt_succ_self _
    · obtain ⟨hused, htid⟩ := hnew.slots x hx hu
      rw [htid]
      exact lt_trans (h.tids x hused) (Nat.lt_succ_self _)

theorem enter_fields {sleepers : Sleepers} {entryPoint : EntryPoint} {x : Slot}
    (hused : (s.sched.threadTable x).used = true) : (s.enter sleepers entryPoint).fields x = s.fields x :=
  if_neg fun hnew => by simp [hused] at hnew

theorem otherStep_leaves {n : Nat} (h : MachineInv s) (hids : s.sched.nextTid.toNat + (n + 1) < 2 ^ 32)
    (hop : ∀ tid, op ≠ .addJob tid) (ht : tid.toNat < s.sched.nextTid.toNat) (hs : otherStep s op = .ok (r, s')) :
    MachineInv s' ∧ Leaves tid s s' ∧ s.sched.nextTid.toNat ≤ s'.sched.nextTid.toNat ∧
      s'.sched.nextTid.toNat + n < 2 ^ 32 := by
  obtain ⟨⟨r', sleepers⟩, hstep, hs⟩ := bind_eq_ok.mp hs
  obtain ⟨-, rfl⟩ := Prod.mk.inj (Except.ok.inj hs)
  have heffect := sleepStep_effect h.jobs.sound h.jobs.enabled hstep
  have hfit : s.sched.nextTid.toNat + 1 < 2 ^ 32 := by omega
  have hidsOk : IdsOk s.sleepers op := by
    cases op with
    | create pid stack => exact hfit
    | addJob tid => exact absurd rfl (hop tid)
    | enable | yield | exit | sleep | exec | timer => exact trivial
  refine ⟨⟨h.jobs.step hidsOk heffect, tids_next _ h hfit (heffect.threads.imp_right And.right)⟩,
    ⟨rfl, fun x hu hx => ?_, fun i hu => ?_⟩, nextTid_next heffect hids⟩
  · have hold : (s.sched.threadTable x).used = true ∧
        (sleepers.sched.threadTable x).tid = (s.sched.threadTable x).tid := by
      rcases heffect.threads with hnone | ⟨-, slot, hnew⟩
      · exact hnone.slots x hu
      · refine hnew.slots x ?_ hu
        rintro rfl
        have hnext : tid = s.sched.nextTid := hx.symm.trans hnew.tid
        exact absurd ht (by rw [hnext]; exact lt_irrefl _)
    exact ⟨hold.1, hold.2.symm.trans hx, enter_fields hold.1⟩
  · cases heffect.jobs with
    | same jobs => exact ⟨(jobs i).1.symm.trans hu, (jobs i).2⟩
    | add tid k call => exact absurd call (hop tid)
    | sweep call swept => exact ⟨((swept.held_iff i).mp hu).1, swept.tid i⟩

/-- So do their runs. -/
theorem others_leave {n : Nat} (h : MachineInv s) (hids : s.sched.nextTid.toNat + (ops.length + n) < 2 ^ 32)
    (hops : ∀ tid, SleepOp.addJob tid ∉ ops) (ht : tid.toNat < s.sched.nextTid.toNat)
    (hrun : runFrom otherStep s ops = .ok (rs, s')) :
    MachineInv s' ∧ Leaves tid s s' ∧ s.sched.nextTid.toNat ≤ s'.sched.nextTid.toNat ∧
      s'.sched.nextTid.toNat + n < 2 ^ 32 := by
  induction ops generalizing s rs with
  | nil =>
    obtain ⟨-, rfl⟩ := Prod.mk.inj (Except.ok.inj hrun)
    rw [List.length_nil, Nat.zero_add] at hids
    exact ⟨h, .refl s, le_refl _, hids⟩
  | cons op ops ih =>
    obtain ⟨r, s₁, rs', hs, hrest, -⟩ := exists_of_runFrom_cons hrun
    rw [List.length_cons, Nat.add_right_comm] at hids
    obtain ⟨h₁, hleave, hle, hids₁⟩ :=
      otherStep_leaves h hids (fun tid e => hops tid (e ▸ List.mem_cons_self)) ht hs
    obtain ⟨h₂, hleaves, hle₂, hids₂⟩ :=
      ih h₁ hids₁ (fun tid hm => hops tid (List.mem_cons_of_mem op hm)) (lt_of_lt_of_le ht hle) hrest
    exact ⟨h₂, hleave.trans hleaves, hle.trans hle₂, hids₂⟩

end Steps

/-! ## Creating the thread -/

/-- `process_command` runs, in the shell's thread. -/
structure AtCommand (s : Machine) : Prop where
  inv : MachineInv s
  rest : s.sched.cpu = .rest
  running : s.sched.currentThread ≠ none
  null : s.contexts 0 = none

/-- The thread of a launch is in the entry `slot`, without a context yet. -/
structure Created (s s₁ : Machine) (cmd : List UInt8) (ctx : Nat) (slot : Slot) : Prop where
  inv : MachineInv s₁
  nextTid : s₁.sched.nextTid.toNat = s.sched.nextTid.toNat + 1
  thread : NewThread s.sched s₁.sched slot
  fields : s₁.fields slot = ⟨0, .bgCommandThread⟩
  contexts : s₁.contexts = Function.update s.contexts ctx (some ⟨cmd.take 255, -1, 1⟩)
  jobTable : s₁.sleepers.jobTable = s.sleepers.jobTable
  nextJobId : s₁.sleepers.nextJobId = s.sleepers.nextJobId

section Launch

variable {s s' s₁ s₂ : Machine} {cmd : List UInt8} {ctx : Nat} {stack : Bool} {slot : Slot} {t : Option UInt32}
  {early late : List SleepOp}

theorem asInt_neg_iff {n : Nat} (h : n < 2 ^ 32) : asInt n < 0 ↔ 2 ^ 31 ≤ n := by
  simp only [asInt, Int.bmod]
  omega

theorem AtCommand.not_live (h : AtCommand s) : ¬Live s.sched s.sched.nextTid := by
  rintro ⟨x, hu, hx⟩
  have hlt := h.inv.tids x hu
  rw [hx] at hlt
  exact lt_irrefl _ hlt

theorem AtCommand.no_job (h : AtCommand s) (i : JobSlot) (hu : (s.sleepers.jobTable i).used = true) :
    (s.sleepers.jobTable i).tid ≠ s.sched.nextTid := by
  intro hi
  have hlt := h.inv.jobs.issued i hu
  rw [hi] at hlt
  exact lt_irrefl _ hlt

theorem AtCommand.undone (h : AtCommand s) (hcontexts : s'.contexts = s.contexts) (hsleepers : s'.sleepers = s.sleepers) :
    Undone s s' := by
  refine ⟨hcontexts, ?_, ?_⟩
  · unfold Machine.sched
    rw [hsleepers]
    exact h.not_live
  · rw [hsleepers]
    exact h.no_job

/-- The context is allocated and given back. -/
theorem update_update_none {f : Nat → Option BgContext} {c : BgContext} (h : f ctx = none) :
    Function.update (Function.update f ctx (some c)) ctx none = f := by
  rw [Function.update_idem, ← h, Function.update_eq_self]

theorem created (cmd : List UInt8) (ctx : Nat) (h : MachineInv s) (hids : s.sched.nextTid.toNat + 1 < 2 ^ 32)
    {sched : Sched Point} (hsound : Sound sched) (hnew : NewThread s.sched sched slot) :
    Created s ((s.setContext ctx (some ⟨cmd.take 255, -1, 1⟩)).enter { s.sleepers with sched } .bgCommandThread) cmd ctx
      slot := by
  have hnext : sched.nextTid.toNat = s.sched.nextTid.toNat + 1 := by
    rw [hnew.nextTid, UInt32.toNat_add]
    exact Nat.mod_eq_of_lt hids
  refine ⟨⟨⟨hsound, h.jobs.enabled, fun i hu => ?_⟩, ?_⟩, hnext, hnew, if_pos ⟨hnew.used, hnew.free⟩, rfl, rfl, rfl⟩
  · change _ < sched.nextTid.toNat
    rw [hnext]
    exact lt_trans (h.jobs.issued i hu) (Nat.lt_succ_self _)
  · exact tids_next { s.sleepers with sched } h hids (Or.inr ⟨slot, hnew⟩)

/-- **How the first half ends.** -/
theorem launchThread_cases (h : AtCommand s) (hids : s.sched.nextTid.toNat + 1 < 2 ^ 32) (hctx : s.contexts ctx = none)
    (hl : launchThread s cmd ctx stack = .ok (t, s₁)) :
    (¬Creates s ctx stack ∧ t = none ∧ Undone s s₁) ∨
    (Creates s ctx stack ∧ 2 ^ 31 ≤ s.sched.nextTid.toNat ∧ t = none ∧
      ∃ s₀ slot, Created s s₀ cmd ctx slot ∧ s₁ = s₀.setContext ctx none) ∨
    (Creates s ctx stack ∧ s.sched.nextTid.toNat < 2 ^ 31 ∧ t = some s.sched.nextTid ∧
      ∃ slot, Created s s₁ cmd ctx slot) := by
  unfold launchThread at hl
  cases hproc : getProcess s.sched 1 with
  | none =>
    rw [hproc] at hl
    obtain ⟨rfl, rfl⟩ := Prod.mk.inj (Except.ok.inj hl)
    refine Or.inl ⟨?_, rfl, h.undone rfl rfl⟩
    rintro ⟨proc, hproc', -⟩
    cases hproc.symm.trans hproc'
  | some proc =>
    simp only [hproc] at hl
    by_cases hzero : ctx = 0
    · rw [if_pos hzero] at hl
      obtain ⟨rfl, rfl⟩ := Prod.mk.inj (Except.ok.inj hl)
      refine Or.inl ⟨?_, rfl, h.undone rfl rfl⟩
      rintro ⟨-, -, hne, -⟩
      exact hne hzero
    · rw [if_neg hzero] at hl
      obtain ⟨⟨tid, sched⟩, hcreate, hl⟩ := bind_eq_ok.mp hl
      change threadCreate s.sched (s.sched.processTable proc).pid _ stack = _ at hcreate
      have hpid : (s.sched.processTable proc).pid = 1 := by
        have hfound := (firstFin_eq_some.mp hproc).2.1
        simp only [Bool.and_eq_true, beq_iff_eq] at hfound
        exact hfound.2
      rw [hpid] at hcreate
      by_cases hroom : ThreadRoom s.sched proc stack
      · have hcreates : Creates s ctx stack := ⟨proc, hproc, hzero, hroom⟩
        obtain ⟨rfl, hsound, slot, hnew⟩ := threadCreate_newThread h.inv.jobs.sound hcreate hproc hroom
        have hmade := created cmd ctx h.inv hids hsound hnew
        split at hl
        · rename_i hneg
          obtain ⟨rfl, rfl⟩ := Prod.mk.inj (Except.ok.inj hl)
          exact Or.inr (Or.inl ⟨hcreates, (asInt_neg_iff s.sched.nextTid.toNat_lt).mp hneg, rfl, _, slot, hmade, rfl⟩)
        · rename_i hpos
          obtain ⟨rfl, rfl⟩ := Prod.mk.inj (Except.ok.inj hl)
          refine Or.inr (Or.inr ⟨hcreates, ?_, ?_, slot, hmade⟩)
          · exact not_le.mp fun hbig => hpos ((asInt_neg_iff s.sched.nextTid.toNat_lt).mpr hbig)
          · exact congrArg some UInt32.ofNat_toNat
      · obtain ⟨rfl, rfl⟩ := Prod.mk.inj (Except.ok.inj (hcreate.symm.trans (threadCreate_full hproc hroom)))
        rw [if_pos (show asInt (-1) < 0 by decide)] at hl
        obtain ⟨rfl, rfl⟩ := Prod.mk.inj (Except.ok.inj hl)
        refine Or.inl ⟨?_, rfl, h.undone (update_update_none hctx) rfl⟩
        rintro ⟨proc', hproc', -, hroom'⟩
        cases hproc.symm.trans hproc'
        exact hroom hroom'

/-! ## Handing over -/

/-- The launch before it adds the job: the context is allocated, and the thread has it if it is still there. -/
structure Handed (s s₂ : Machine) (cmd : List UInt8) (ctx : Nat) : Prop where
  contexts : s₂.contexts = Function.update s.contexts ctx (some ⟨cmd.take 255, -1, 1⟩)
  fields : ∀ x, (s₂.sched.threadTable x).used = true → (s₂.sched.threadTable x).tid = s.sched.nextTid →
    s₂.fields x = ⟨ctx, .bgCommandThread⟩
  jobs : ∀ i, (s₂.sleepers.jobTable i).used = true → (s₂.sleepers.jobTable i).tid ≠ s.sched.nextTid

/-- Only the new thread has the id. -/
theorem Created.only (h : Created s s₁ cmd ctx slot) (hs : AtCommand s) {x : Slot}
    (hu : (s₁.sched.threadTable x).used = true) (hx : (s₁.sched.threadTable x).tid = s.sched.nextTid) : x = slot := by
  by_contra hne
  obtain ⟨hused, htid⟩ := h.thread.slots x hne hu
  exact hs.not_live ⟨x, hused, htid.symm.trans hx⟩

theorem attach_leaves (s : Machine) (ctx : Nat) (tid : UInt32) :
    (attach s ctx tid).sleepers = s.sleepers ∧ (attach s ctx tid).contexts = s.contexts := by
  unfold attach
  split <;> exact ⟨rfl, rfl⟩

/-- The context goes to the thread with the id, when there is only one. -/
theorem attach_fields {tid : UInt32} {x : Slot} (hu : (s.sched.threadTable x).used = true)
    (hx : (s.sched.threadTable x).tid = tid)
    (honly : ∀ y, (s.sched.threadTable y).used = true → (s.sched.threadTable y).tid = tid → y = x) :
    (attach s ctx tid).fields x = { s.fields x with privateData := ctx } := by
  have hget : getThread s.sched tid = some x := by
    refine firstFin_of_unique (Nat.zero_le _) (by simp [hu, hx]) fun y hy => ?_
    simp only [Bool.and_eq_true, beq_iff_eq] at hy
    exact honly y hy.1 hy.2
  unfold attach
  rw [hget]
  exact Function.update_self ..

theorem handOver_handed (hs : AtCommand s) (h : Created s s₁ cmd ctx slot)
    (hids : s₁.sched.nextTid.toNat + (early.length + late.length) < 2 ^ 32)
    (hearly : ∀ tid, SleepOp.addJob tid ∉ early) (hlate : ∀ tid, SleepOp.addJob tid ∉ late)
    (hover : handOver s₁ ctx s.sched.nextTid early late = .ok s₂) : Handed s s₂ cmd ctx := by
  obtain ⟨⟨rs, s₃⟩, hrun, hover⟩ := bind_eq_ok.mp hover
  obtain ⟨⟨rs', s₄⟩, hrun', hover⟩ := bind_eq_ok.mp hover
  obtain rfl := Except.ok.inj hover
  have hnew : s.sched.nextTid.toNat < s₁.sched.nextTid.toNat := by
    rw [h.nextTid]
    exact Nat.lt_succ_self _
  obtain ⟨h₃, hleave, hle, hids₃⟩ := others_leave h.inv hids hearly hnew hrun
  have hattach := attach_leaves s₃ ctx s.sched.nextTid
  have hsched : (attach s₃ ctx s.sched.nextTid).sched = s₃.sched := congrArg Sleepers.sched hattach.1
  have hinv : MachineInv (attach s₃ ctx s.sched.nextTid) := by
    refine ⟨?_, ?_⟩
    · rw [hattach.1]
      exact h₃.jobs
    · rw [hsched]
      exact h₃.tids
  obtain ⟨-, hleave', -, -⟩ := others_leave (n := 0) hinv (by rw [hsched]; exact hids₃) hlate
    (by rw [hsched]; exact lt_of_lt_of_le hnew hle) hrun'
  -- only the new thread has the id, all along
  have honly : ∀ y, (s₃.sched.threadTable y).used = true → (s₃.sched.threadTable y).tid = s.sched.nextTid → y = slot := by
    intro y hu hy
    obtain ⟨hu₁, hy₁, -⟩ := hleave.slots y hu hy
    exact h.only hs hu₁ hy₁
  refine ⟨?_, fun x hu hx => ?_, fun i hu => ?_⟩
  · rw [hleave'.contexts, hattach.2, hleave.contexts, h.contexts]
  · obtain ⟨hu', hx', hfields'⟩ := hleave'.slots x hu hx
    rw [hsched] at hu' hx'
    obtain ⟨-, -, hfields⟩ := hleave.slots x hu' hx'
    obtain rfl := honly x hu' hx'
    rw [hfields', attach_fields hu' hx' honly, hfields, h.fields]
  · obtain ⟨hu', hi'⟩ := hleave'.jobs i hu
    rw [hattach.1] at hu' hi'
    obtain ⟨hu₁, hi₁⟩ := hleave.jobs i hu'
    rw [h.jobTable] at hu₁ hi₁
    rw [hi', hi₁]
    exact hs.no_job i hu₁

/-! ## The job -/

theorem enterJob_full {tid : UInt32} (hfull : ¬JobRoom s) : enterJob s ctx tid = s.setContext ctx none := by
  have hadd : addJob s.sleepers tid = (-1, s.sleepers) := by
    unfold addJob
    cases hslot : firstFin 0 fun i => !(s.sleepers.jobTable i).used with
    | none => rfl
    | some i => exact absurd ⟨i, by simpa using (firstFin_eq_some.mp hslot).2.1⟩ hfull
  unfold enterJob
  rw [hadd]
  exact if_neg (by decide)

/-- With a free entry there is a job for the thread; the context stays when the job id is positive. -/
theorem enterJob_room (ctx : Nat) (tid : UInt32) (hroom : JobRoom s) :
    (enterJob s ctx tid).sched = s.sched ∧ (enterJob s ctx tid).fields = s.fields ∧
      (∃ i, ((enterJob s ctx tid).sleepers.jobTable i).used = true ∧
        ((enterJob s ctx tid).sleepers.jobTable i).tid = tid) ∧
      ((enterJob s ctx tid).contexts ctx).isSome = (decide (0 < s.sleepers.nextJobId) && (s.contexts ctx).isSome) := by
  obtain ⟨k, hk⟩ := hroom
  unfold enterJob addJob
  cases hslot : firstFin 0 fun i => !(s.sleepers.jobTable i).used with
  | none =>
    have hused := firstFin_eq_none.mp hslot k (Nat.zero_le _)
    simp [hk] at hused
  | some slot =>
    have hself := setJob_self s.sleepers slot ⟨true, s.sleepers.nextJobId, tid, .running, 0⟩
    by_cases hpos : 0 < s.sleepers.nextJobId
    · simp only [gt_iff_lt, if_pos hpos]
      refine ⟨rfl, rfl, ⟨slot, congrArg Job.used hself, congrArg Job.tid hself⟩, ?_⟩
      simp [Machine.setContext, hpos]
    · simp only [gt_iff_lt, if_neg hpos]
      refine ⟨rfl, rfl, ⟨slot, congrArg Job.used hself, congrArg Job.tid hself⟩, ?_⟩
      simp [Machine.setContext, hpos]

/-- A thread that has been handed a context has it. -/
theorem Handed.launched_iff (h : Handed s s₂ cmd ctx) (hsched : s'.sched = s₂.sched) (hfields : s'.fields = s₂.fields) :
    Launched s s' ↔ Live s₂.sched s.sched.nextTid ∧ (s'.contexts ctx).isSome = true ∧
      ∃ i, (s'.sleepers.jobTable i).used = true ∧ (s'.sleepers.jobTable i).tid = s.sched.nextTid := by
  unfold Launched
  rw [hsched, hfields]
  constructor
  · rintro ⟨x, i, hu, hx, -, hcontext, hi, hit⟩
    rw [h.fields x hu hx] at hcontext
    exact ⟨⟨x, hu, hx⟩, hcontext, i, hi, hit⟩
  · rintro ⟨⟨x, hu, hx⟩, hcontext, i, hi, hit⟩
    refine ⟨x, i, hu, hx, ?_, ?_, hi, hit⟩
    · rw [h.fields x hu hx]
    · rw [h.fields x hu hx]
      exact hcontext

/-- **All or nothing**, once the thread has been handed its context. -/
theorem enterJob_iff (h : Handed s s₂ cmd ctx) (hctx : s.contexts ctx = none) :
    AllOrNothing s (enterJob s₂ ctx s.sched.nextTid) ↔ Settled s₂ s.sched.nextTid := by
  unfold AllOrNothing Settled
  by_cases hroom : JobRoom s₂
  · obtain ⟨hsched, hfields, hjob, hcontext⟩ := enterJob_room ctx s.sched.nextTid hroom
    have hundone : ¬Undone s (enterJob s₂ ctx s.sched.nextTid) := by
      obtain ⟨i, hi, hit⟩ := hjob
      exact fun hun => hun.job i hi hit
    have hsome : (s₂.contexts ctx).isSome = true := by
      rw [h.contexts, Function.update_self]
      rfl
    rw [h.launched_iff hsched hfields, hcontext, hsome]
    simp [hundone, hroom, hjob]
  · rw [enterJob_full hroom]
    have hcontexts : (s₂.setContext ctx none).contexts = s.contexts := by
      change Function.update s₂.contexts ctx none = _
      rw [h.contexts, update_update_none hctx]
    have hlaunched : ¬Launched s (s₂.setContext ctx none) := by
      have hsame : (s₂.setContext ctx none).sched = s₂.sched := rfl
      rw [h.launched_iff hsame rfl, hcontexts, hctx]
      simp
    have hundone : Undone s (s₂.setContext ctx none) ↔ ¬Live s₂.sched s.sched.nextTid :=
      ⟨fun hun => hun.thread, fun hlive => ⟨hcontexts, hlive, h.jobs⟩⟩
    simp [hlaunched, hundone, hroom]

/-- A thread that is not handed its context, which is given back. -/
theorem Created.abandoned (h : Created s s₁ cmd ctx slot) (hs : AtCommand s) (hctx : s.contexts ctx = none) :
    ¬AllOrNothing s (s₁.setContext ctx none) := by
  have hcontexts : (s₁.setContext ctx none).contexts = s.contexts := by
    change Function.update s₁.contexts ctx none = _
    rw [h.contexts, update_update_none hctx]
  rintro (⟨x, i, hu, hx, -, hcontext, -⟩ | hundone)
  · obtain rfl := h.only hs hu hx
    change ((s₁.setContext ctx none).contexts (s₁.fields x).privateData).isSome = true at hcontext
    rw [hcontexts, h.fields, hs.null] at hcontext
    cases hcontext
  · exact hundone.thread ⟨slot, h.thread.used, h.thread.tid⟩

/-- **Background launch.** It is all or nothing if and only if no thread is created, or one with an id below 2^31 for
which there is a free job entry just when it is still there. -/
theorem launch_allOrNothing_iff (hs : AtCommand s) (hctx : s.contexts ctx = none)
    (hids : s.sched.nextTid.toNat + (early.length + late.length) + 1 < 2 ^ 32)
    (hearly : ∀ tid, SleepOp.addJob tid ∉ early) (hlate : ∀ tid, SleepOp.addJob tid ∉ late)
    (hrun : launch s cmd ctx stack early late = .ok s') :
    AllOrNothing s s' ↔ Completes s cmd ctx stack early late := by
  obtain ⟨⟨t, s₁⟩, hl, hrun⟩ := bind_eq_ok.mp hrun
  rcases launchThread_cases hs (by omega) hctx hl with ⟨hnone, rfl, hundone⟩ | ⟨hcreates, hbig, rfl, s₀, slot, hmade, rfl⟩ |
    ⟨hcreates, hsmall, rfl, slot, hmade⟩
  · obtain rfl := Except.ok.inj hrun
    exact ⟨fun _ hcreates => absurd hcreates hnone, fun _ => Or.inr hundone⟩
  · obtain rfl := Except.ok.inj hrun
    refine ⟨fun hall => ?_, fun hcompletes => absurd (hcompletes hcreates).1 (not_lt.mpr hbig)⟩
    exact absurd hall (hmade.abandoned hs hctx)
  · obtain ⟨s₂, hover, hrun⟩ := bind_eq_ok.mp hrun
    obtain rfl := Except.ok.inj hrun
    have hids₁ : s₁.sched.nextTid.toNat + (early.length + late.length) < 2 ^ 32 := by
      rw [hmade.nextTid]
      omega
    rw [enterJob_iff (handOver_handed hs hmade hids₁ hearly hlate hover) hctx]
    constructor
    · intro hsettled _
      refine ⟨hsmall, fun tid s₁' s₂' hl' hover' => ?_⟩
      cases hl.symm.trans hl'
      cases hover.symm.trans hover'
      exact hsettled
    · intro hcompletes
      exact (hcompletes hcreates).2 _ _ _ hl hover

/-! ## Without interruption -/

theorem launchThread_returns (hs : AtCommand s) (cmd : List UInt8) (ctx : Nat) (stack : Bool) :
    ∃ t s₁, launchThread s cmd ctx stack = .ok (t, s₁) := by
  unfold launchThread
  cases hproc : getProcess s.sched 1 with
  | none => exact ⟨none, s, rfl⟩
  | some proc =>
    by_cases hzero : ctx = 0
    · exact ⟨none, s, if_pos hzero⟩
    · obtain ⟨tid, sched, hcreate, -⟩ :=
        hs.inv.jobs.sound.step (.create (s.sched.processTable proc).pid (some .rest) stack)
      change threadCreate (s.setContext ctx (some ⟨cmd.take 255, -1, 1⟩)).sched _ _ _ = _ at hcreate
      simp only [if_neg hzero]
      change ∃ t s₁, (threadCreate (s.setContext ctx (some ⟨cmd.take 255, -1, 1⟩)).sched
        (s.sched.processTable proc).pid _ stack >>= _) = _
      rw [hcreate, ok_bind]
      split
      · exact ⟨none, _, rfl⟩
      · exact ⟨some _, _, rfl⟩

/-- When no other thread runs in between it is all or nothing if and only if the thread that it creates has an id below
2^31, and there is a free job entry and a positive job id. -/
theorem completes_nil_iff (hs : AtCommand s) (hctx : s.contexts ctx = none)
    (hids : s.sched.nextTid.toNat + 1 < 2 ^ 32) : Completes s cmd ctx stack [] [] ↔
      (Creates s ctx stack → s.sched.nextTid.toNat < 2 ^ 31 ∧ JobRoom s ∧ 0 < s.sleepers.nextJobId) := by
  obtain ⟨t, s₁, hl⟩ := launchThread_returns hs cmd ctx stack
  rcases launchThread_cases hs hids hctx hl with ⟨hnone, -, -⟩ | ⟨hcreates, hbig, -⟩ | ⟨hcreates, hsmall, rfl, slot, hmade⟩
  · exact ⟨fun _ hc => absurd hc hnone, fun _ hc => absurd hc hnone⟩
  · exact ⟨fun h => absurd (h hcreates).1 (not_lt.mpr hbig), fun h => absurd (h hcreates).1 (not_lt.mpr hbig)⟩
  · have hover : handOver s₁ ctx s.sched.nextTid [] [] = .ok (attach s₁ ctx s.sched.nextTid) := rfl
    have hsettled : Settled (attach s₁ ctx s.sched.nextTid) s.sched.nextTid ↔ JobRoom s ∧ 0 < s.sleepers.nextJobId := by
      have hlive : Live s₁.sleepers.sched s.sched.nextTid := ⟨slot, hmade.thread.used, hmade.thread.tid⟩
      unfold Settled JobRoom Machine.sched
      rw [(attach_leaves _ _ _).1, hmade.jobTable, hmade.nextJobId]
      exact ⟨fun h => (h.resolve_right fun hgone => hgone.1 hlive).2, fun h => Or.inl ⟨hlive, h⟩⟩
    constructor
    · intro h _
      exact ⟨hsmall, hsettled.mp ((h hcreates).2 _ _ _ hl hover)⟩
    · intro h _
      refine ⟨hsmall, fun tid s₁' s₂' hl' hover' => ?_⟩
      cases hl.symm.trans hl'
      cases hover.symm.trans hover'
      exact hsettled.mpr (h hcreates).2

end Launch

/-! ## Two launches -/

/-- The shell at its prompt. -/
def promptMachine : Machine := ⟨atPrompt, fun _ => ⟨0, .other⟩, fun _ => none⟩

/-- "sleep 3". -/
def sleepText : List UInt8 := [115, 108, 101, 101, 112, 32, 51]

theorem promptMachine_atCommand : AtCommand promptMachine := by
  obtain ⟨rs, hrun⟩ := runFrom_endOf (sleepInit bootSleepers) shellOps (by decide)
  refine ⟨⟨jobInv_run (sleepInit_jobInv bootSleepers) (by decide) hrun, ?_⟩, ?_, ?_, rfl⟩
  · decide +kernel
  · decide
  · decide

theorem launch_allOrNothing_prompt : ∃ s', launch promptMachine sleepText 4120 true [] [] = .ok s' ∧
    AllOrNothing promptMachine s' := by
  obtain ⟨s', hrun, -⟩ := exists_ok_of_map (f := fun _ : Machine => true)
    (show (launch promptMachine sleepText 4120 true [] []).toOption.map _ = some true by decide)
  refine ⟨s', hrun, (launch_allOrNothing_iff promptMachine_atCommand rfl (by decide) (by simp) (by simp)
    hrun).mpr ((completes_nil_iff promptMachine_atCommand rfl (by decide)).mpr fun _ => ?_)⟩
  exact ⟨by decide, ⟨0, by decide⟩, by decide⟩

/-- Every entry of the job table is used: 32 sleeps in the foreground have left jobs 1 to 32 of the shell. -/
def fullMachine : Machine :=
  ⟨{ atPrompt with jobTable := fun i => ⟨true, i.val + 1, 1, .running, 0⟩, nextJobId := 33 },
    fun _ => ⟨0, .other⟩, fun _ => none⟩

/-- With a full job table the thread stays, and has a context that has been given back. -/
theorem fullMachine_launch : ∃ s', launch fullMachine sleepText 4120 true [] [] = .ok s' ∧
    Live s'.sched 2 ∧ (s'.fields 1).privateData = 4120 ∧ s'.contexts 4120 = none ∧ ¬AllOrNothing fullMachine s' := by
  obtain ⟨s', hrun, hfacts⟩ := exists_ok_of_map (f := fun s' : Machine => decide (Live s'.sched 2 ∧
      (s'.fields 1).privateData = 4120 ∧ (s'.contexts 4120).isNone = true ∧
      ∀ x, (s'.contexts (s'.fields x).privateData).isSome = false))
    (show (launch fullMachine sleepText 4120 true [] []).toOption.map _ = some true by decide +kernel)
  obtain ⟨hlive, hdata, hgone, hnone⟩ := of_decide_eq_true hfacts
  refine ⟨s', hrun, hlive, hdata, Option.isNone_iff_eq_none.mp hgone, ?_⟩
  rintro (⟨x, -, -, -, -, hcontext, -⟩ | hundone)
  · cases hcontext.symm.trans (hnone x)
  · exact hundone.thread hlive

end AmqOs.Shell
