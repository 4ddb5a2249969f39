import AmqOs.Processes.ProcessDefs
import AmqOs.Processes.SchedulerInv

/-!
# The threads of a process

A thread points to its process, and a process lists its threads. `ThreadLists s` says that the two agree: the list of
a used process has at most 16 threads, all different, used and pointing to the process, and every used thread is on the
list of one process. It holds after every run of `process_create` and the calls of the scheduler.

On lists, a call changes who owns which thread in two cases only (`step_owners`): a creation that succeeds enters a free
entry (`Owned.enter`), and an exit takes the current thread out (`Owned.retire`).

A creation that fails leaves everything as it was, and returns `-1`. So does the creation of the thread with the id
`2 ^ 32 - 1`, which succeeds (`last_id_looks_failed`).
-/

set_option autoImplicit false

namespace AmqOs.Processes

open AmqOs.Lib

variable {π : Type}

structure ThreadLists (s : Sched π) : Prop where
  members : ∀ p, (s.processTable p).used = true → ∀ t ∈ (s.processTable p).threads,
    (s.threadTable t).used = true ∧ (s.threadTable t).parent = some p
  nodup : ∀ p, (s.processTable p).used = true → (s.processTable p).threads.Nodup
  bounded : ∀ p, (s.processTable p).used = true → (s.processTable p).threads.length ≤ 16
  once : ∀ t, (s.threadTable t).used = true →
    ∃! p, (s.processTable p).used = true ∧ t ∈ (s.processTable p).threads

/-- The number of threads created so far, which is the number of ids issued. -/
def created : List (Event π) → Nat
  | [] => 0
  | .created _ _ :: log => created log + 1
  | _ :: log => created log

/-! ## What the calls do to owners -/

/-- No used thread is terminated. -/
def Alive (a : Fifo π) : Prop := ∀ x, (a.table x).used = true → (a.table x).state ≠ .terminated

/-- The same threads are used, with the same ids and owners. -/
structure SameOwners (a a' : Fifo π) : Prop where
  used : ∀ x, (a'.table x).used = (a.table x).used
  parent : ∀ x, (a'.table x).parent = (a.table x).parent
  tid : ∀ x, (a'.table x).tid = (a.table x).tid
  alive : Alive a → Alive a'
  processTable : a'.processTable = a.processTable
  nextTid : a'.nextTid = a.nextTid
  created : created a'.log = created a.log

namespace SameOwners

variable {a b c : Fifo π} {t : Slot}

theorem refl (a : Fifo π) : SameOwners a a := ⟨fun _ => rfl, fun _ => rfl, fun _ => rfl, id, rfl, rfl, rfl⟩

theorem trans (h : SameOwners a b) (h' : SameOwners b c) : SameOwners a c :=
  ⟨fun x => (h'.used x).trans (h.used x), fun x => (h'.parent x).trans (h.parent x),
    fun x => (h'.tid x).trans (h.tid x), fun ha => h'.alive (h.alive ha), h'.processTable.trans h.processTable,
    h'.nextTid.trans h.nextTid, h'.created.trans h.created⟩

/-- The context is saved. -/
theorem context (c : π) : SameOwners a (a.modify t fun x => { x with context := c }) := by
  refine ⟨fun x => ?_, fun x => ?_, fun x => ?_, fun ha x hu => ?_, rfl, rfl, rfl⟩
  · simp only [Fifo.modify]
    split <;> rfl
  · simp only [Fifo.modify]
    split <;> rfl
  · simp only [Fifo.modify]
    split <;> rfl
  · simp only [Fifo.modify] at hu ⊢
    by_cases hx : x = t
    · rw [if_pos hx] at hu ⊢
      exact ha x hu
    · rw [if_neg hx] at hu ⊢
      exact ha x hu

theorem setState (state : ThreadState) (hs : state ≠ .terminated) : SameOwners a (a.setState t state) := by
  refine ⟨fun x => ?_, fun x => ?_, fun x => ?_, fun ha x hu => ?_, rfl, rfl, rfl⟩
  · rw [setState_table]
    split <;> rfl
  · rw [setState_table]
    split <;> rfl
  · rw [setState_table]
    split <;> rfl
  · rw [setState_table] at hu ⊢
    split at hu
    · rename_i hx
      rwa [if_pos hx]
    · rename_i hx
      rw [if_neg hx]
      exact ha x hu

theorem makeReady : SameOwners a (a.makeReady t) := by
  have h := setState (a := a) (t := t) .ready (by simp)
  exact ⟨h.used, h.parent, h.tid, h.alive, rfl, rfl, rfl⟩

theorem stop : SameOwners a (a.stop t) := by
  have h := setState (a := a) (t := t) .blocked (by simp)
  exact ⟨h.used, h.parent, h.tid, h.alive, rfl, rfl, rfl⟩

theorem switchTo (prev : Option Slot) (next : Slot) : SameOwners a (a.switchTo prev next) := by
  unfold Fifo.switchTo
  cases prev with
  | none => exact ⟨fun _ => rfl, fun _ => rfl, fun _ => rfl, id, rfl, rfl, rfl⟩
  | some p =>
    by_cases hpn : p = next
    · simp only [if_pos hpn]
      exact refl a
    · simp only [if_neg hpn]
      have h := context (a := a) (t := p) a.cpu
      exact ⟨h.used, h.parent, h.tid, h.alive, rfl, rfl, rfl⟩

theorem dispatch (prev : Option Slot) : SameOwners a (a.dispatch prev) := by
  unfold Fifo.dispatch
  split
  · split
    · exact refl a
    · split
      · exact ⟨fun _ => rfl, fun _ => rfl, fun _ => rfl, id, rfl, rfl, rfl⟩
      · exact refl a
  · rename_i next rest _
    have h := setState (a := a) (t := next) .running (by simp)
    exact trans (b := { a.setState next .running with queue := rest })
      ⟨h.used, h.parent, h.tid, h.alive, h.processTable, h.nextTid, h.created⟩ (switchTo prev next)

theorem requeue : SameOwners a (a.record .schedule).requeue := by
  have hrec : SameOwners a (a.record .schedule) := ⟨fun _ => rfl, fun _ => rfl, fun _ => rfl, id, rfl, rfl, rfl⟩
  unfold Fifo.requeue
  split
  · exact hrec
  · split
    · exact hrec.trans makeReady
    · exact hrec

theorem schedule : SameOwners a a.schedule := by
  unfold Fifo.schedule
  split
  · exact refl a
  · exact requeue.trans (dispatch a.currentThread)

theorem scheduleIf {P : Prop} [Decidable P] : SameOwners a (if P then a.schedule else a) := by
  split
  · exact schedule
  · exact refl a

end SameOwners

section Steps

variable {a : Fifo π} {t : Slot}

theorem retire_nextTid (a : Fifo π) (c : Slot) : (a.retire c).nextTid = a.nextTid := by
  unfold Fifo.retire Fifo.leaveProcess
  split <;> rfl

theorem unblock_owners (a : Fifo π) (tid : UInt32) : SameOwners a (a.unblock tid) := by
  unfold Fifo.unblock
  split
  · exact SameOwners.refl a
  · split
    · exact SameOwners.refl a
    · exact SameOwners.makeReady

theorem create_owners (a : Fifo π) (pid : UInt32) (entryPoint : Option π) (stack : Bool) :
    a.create pid entryPoint stack = (-1, a) ∨
      ∃ entry proc slot, a.getProcess pid = some proc ∧ (a.processTable proc).threads.length < 16 ∧
        (a.table slot).used = false ∧ (a.create pid entryPoint stack).1 = a.nextTid.toNat ∧
        SameOwners (a.enter slot proc entry) (a.create pid entryPoint stack).2 := by
  unfold Fifo.create
  cases entryPoint with
  | none => exact Or.inl rfl
  | some entry =>
    cases hproc : a.getProcess pid with
    | none => exact Or.inl rfl
    | some proc =>
      simp only
      by_cases hfull : (a.processTable proc).threads.length ≥ 16
      · exact Or.inl (if_pos hfull)
      · rw [if_neg hfull]
        cases hslot : firstFin 0 fun i => !(a.table i).used with
        | none => exact Or.inl rfl
        | some slot =>
          cases stack with
          | false => exact Or.inl rfl
          | true =>
            have hfree : (a.table slot).used = false := by simpa using (firstFin_eq_some.mp hslot).2.1
            refine Or.inr ⟨entry, proc, slot, rfl, not_le.mp hfull, hfree, rfl, ?_⟩
            exact SameOwners.trans (b := ((a.enter slot proc entry).record (.ready slot)).enqueue slot)
              ⟨fun _ => rfl, fun _ => rfl, fun _ => rfl, id, rfl, rfl, rfl⟩ SameOwners.scheduleIf

/-- **What a call does to owners.** -/
theorem step_owners (a : Fifo π) (op : SchedOp π) :
    SameOwners a (a.step op).2 ∨
      (∃ pid entryPoint stack entry proc slot, op = .create pid entryPoint stack ∧ a.getProcess pid = some proc ∧
        (a.processTable proc).threads.length < 16 ∧ (a.table slot).used = false ∧
        SameOwners (a.enter slot proc entry) (a.step op).2) ∨
      ∃ c, a.currentThread = some c ∧ SameOwners (a.retire c) (a.step op).2 := by
  cases op with
  | create pid entryPoint stack =>
    rcases create_owners a pid entryPoint stack with h | ⟨entry, proc, slot, hproc, hlen, hfree, -, hsame⟩
    · refine Or.inl ?_
      rw [Fifo.step, h]
      exact SameOwners.refl a
    · exact Or.inr (Or.inl ⟨pid, entryPoint, stack, entry, proc, slot, rfl, hproc, hlen, hfree, hsame⟩)
  | block tid =>
    refine Or.inl ?_
    show SameOwners a (a.block tid)
    unfold Fifo.block
    split
    · exact SameOwners.refl a
    · split
      · exact SameOwners.refl a
      · exact SameOwners.stop.trans SameOwners.scheduleIf
  | unblock tid => exact Or.inl (unblock_owners a tid)
  | yield =>
    refine Or.inl ?_
    show SameOwners a a.yield
    unfold Fifo.yield
    split
    · exact SameOwners.refl a
    · split
      · exact SameOwners.scheduleIf
      · exact SameOwners.schedule
  | tick =>
    refine Or.inl ?_
    show SameOwners a a.tick
    unfold Fifo.tick
    split
    · exact SameOwners.refl a
    · exact SameOwners.scheduleIf
  | exit =>
    show SameOwners a a.exit ∨ _
    unfold Fifo.exit
    cases hc : a.currentThread with
    | none => exact Or.inl (SameOwners.refl a)
    | some c => exact Or.inr (Or.inr ⟨c, rfl, by rw [Fifo.step, Fifo.exit, hc]; exact SameOwners.schedule⟩)
  | schedule => exact Or.inl SameOwners.schedule
  | enable =>
    exact Or.inl (SameOwners.trans (b := { a with schedulerEnabled := true })
      ⟨fun _ => rfl, fun _ => rfl, fun _ => rfl, id, rfl, rfl, rfl⟩ SameOwners.scheduleIf)
  | run point => exact Or.inl ⟨fun _ => rfl, fun _ => rfl, fun _ => rfl, id, rfl, rfl, rfl⟩

end Steps

/-! ## The lists -/

/-- `ThreadLists` on lists, with the process a used thread points to in place of the one that lists it. -/
structure Owned (a : Fifo π) : Prop where
  members : ∀ p, (a.processTable p).used = true → ∀ t ∈ (a.processTable p).threads,
    (a.table t).used = true ∧ (a.table t).parent = some p
  nodup : ∀ p, (a.processTable p).used = true → (a.processTable p).threads.Nodup
  bounded : ∀ p, (a.processTable p).used = true → (a.processTable p).threads.length ≤ 16
  listed : ∀ t, (a.table t).used = true →
    ∃ p, (a.table t).parent = some p ∧ (a.processTable p).used = true ∧ t ∈ (a.processTable p).threads

namespace Owned

variable {a a' : Fifo π} {c t : Slot} {p proc : ProcSlot}

theorem same (h : Owned a) (hs : SameOwners a a') : Owned a' := by
  refine ⟨fun p hp t ht => ?_, fun p hp => ?_, fun p hp => ?_, fun t ht => ?_⟩
  · rw [hs.processTable] at hp ht
    rw [hs.used, hs.parent]
    exact h.members p hp t ht
  · rw [hs.processTable] at hp ⊢
    exact h.nodup p hp
  · rw [hs.processTable] at hp ⊢
    exact h.bounded p hp
  · rw [hs.used] at ht
    rw [hs.parent, hs.processTable]
    exact h.listed t ht

/-- A used process gets a thread that was free. -/
theorem enter (h : Owned a) (hproc : (a.processTable proc).used = true)
    (hlen : (a.processTable proc).threads.length < 16) (hfree : (a.table t).used = false) (entry : π) :
    Owned (a.enter t proc entry) := by
  have htable : ∀ x, x ≠ t → (a.enter t proc entry).table x = a.table x := fun x hx => if_neg hx
  have hself : ((a.enter t proc entry).table t).used = true ∧
      ((a.enter t proc entry).table t).parent = some proc := by
    simp [Fifo.enter, Fifo.record, Fifo.modifyProcess, Fifo.modify]
  have hother : ∀ p, p ≠ proc → (a.enter t proc entry).processTable p = a.processTable p := fun p hp => if_neg hp
  have hnew : (a.enter t proc entry).processTable proc =
      { a.processTable proc with threads := (a.processTable proc).threads ++ [t] } := if_pos rfl
  have hout : ∀ p, (a.processTable p).used = true → t ∉ (a.processTable p).threads := by
    intro p hp ht
    simp [(h.members p hp t ht).1] at hfree
  have hold : ∀ p, (a.processTable p).used = true → ∀ x ∈ (a.processTable p).threads,
      ((a.enter t proc entry).table x).used = true ∧ ((a.enter t proc entry).table x).parent = some p := by
    intro p hp x hx
    rw [htable x fun e => hout p hp (e ▸ hx)]
    exact h.members p hp x hx
  refine ⟨fun p hp x hx => ?_, fun p hp => ?_, fun p hp => ?_, fun x hx => ?_⟩
  · by_cases hpp : p = proc
    · subst hpp
      rw [hnew] at hx
      rcases List.mem_append.mp hx with hx | hx
      · exact hold p hproc x hx
      · rw [List.mem_singleton.mp hx]
        exact hself
    · rw [hother p hpp] at hp hx
      exact hold p hp x hx
  · by_cases hpp : p = proc
    · subst hpp
      rw [hnew]
      exact List.nodup_append.mpr ⟨h.nodup p hproc, List.nodup_singleton t, fun x hx y hy e =>
        hout p hproc (List.mem_singleton.mp hy ▸ e ▸ hx)⟩
    · rw [hother p hpp] at hp ⊢
      exact h.nodup p hp
  · by_cases hpp : p = proc
    · subst hpp
      rw [hnew, List.length_append, List.length_singleton]
      exact hlen
    · rw [hother p hpp] at hp ⊢
      exact h.bounded p hp
  · by_cases hxt : x = t
    · subst hxt
      refine ⟨proc, hself.2, ?_, ?_⟩
      · rw [hnew]
        exact hproc
      · rw [hnew]
        exact List.mem_append_right _ List.mem_cons_self
    · rw [htable x hxt] at hx ⊢
      obtain ⟨p, hparent, hp, hmem⟩ := h.listed x hx
      by_cases hpp : p = proc
      · subst hpp
        refine ⟨p, hparent, ?_, ?_⟩
        · rw [hnew]
          exact hp
        · rw [hnew]
          exact List.mem_append_left _ hmem
      · exact ⟨p, hparent, by rw [hother p hpp]; exact hp, by rw [hother p hpp]; exact hmem⟩

theorem retire_processTable (hparent : (a.table c).parent = some proc) (p : ProcSlot) :
    (a.retire c).processTable p =
      if p = proc then
        { a.processTable p with
          threads := (a.processTable p).threads.erase c
          state := if ((a.processTable p).threads.erase c).length = 0 then .terminated else (a.processTable p).state }
      else a.processTable p := by
  have hp : ((a.modify c fun x => { x with state := .terminated, used := false }).table c).parent = some proc := by
    simpa [Fifo.modify] using hparent
  unfold Fifo.retire Fifo.leaveProcess
  rw [hp]
  rfl

/-- A used thread leaves the list of its process, and is free. -/
theorem retire (h : Owned a) (hc : (a.table c).used = true) : Owned (a.retire c) := by
  obtain ⟨proc, hparent, hproc, hmem⟩ := h.listed c hc
  have htable := retire_processTable hparent
  have hused : ∀ p, ((a.retire c).processTable p).used = (a.processTable p).used := by
    intro p
    rw [htable]
    split <;> rfl
  have hsub : ∀ p, (a.processTable p).used = true → ∀ x ∈ ((a.retire c).processTable p).threads,
      x ∈ (a.processTable p).threads ∧ x ≠ c := by
    intro p hp x hx
    rw [htable] at hx
    by_cases hpp : p = proc
    · rw [if_pos hpp] at hx
      exact ⟨List.mem_of_mem_erase hx, ((h.nodup p hp).mem_erase_iff.mp hx).1⟩
    · rw [if_neg hpp] at hx
      refine ⟨hx, ?_⟩
      rintro rfl
      exact hpp (Option.some.inj ((h.members p hp x hx).2.symm.trans hparent))
  refine ⟨fun p hp x hx => ?_, fun p hp => ?_, fun p hp => ?_, fun x hx => ?_⟩
  · rw [hused] at hp
    obtain ⟨hx', hne⟩ := hsub p hp x hx
    rw [retire_table, if_neg hne]
    exact h.members p hp x hx'
  · rw [hused] at hp
    rw [htable]
    split
    · exact (h.nodup p hp).erase c
    · exact h.nodup p hp
  · rw [hused] at hp
    rw [htable]
    split
    · exact le_trans List.length_erase_le (h.bounded p hp)
    · exact h.bounded p hp
  · rw [retire_table] at hx ⊢
    by_cases hxc : x = c
    · simp [hxc] at hx
    · rw [if_neg hxc] at hx ⊢
      obtain ⟨p, hxp, hp, hmem'⟩ := h.listed x hx
      refine ⟨p, hxp, by rw [hused]; exact hp, ?_⟩
      rw [htable]
      split
      · exact (List.mem_erase_of_ne hxc).mpr hmem'
      · exact hmem'

/-- An unused entry becomes a process without threads. -/
theorem newProcess (h : Owned a) {idx : ProcSlot} (hidx : (a.processTable idx).used = false) (pid : UInt32) :
    Owned (a.modifyProcess idx fun _ => ⟨pid, .ready, [], true⟩) := by
  have hother : ∀ p, p ≠ idx →
      (a.modifyProcess idx fun _ => ⟨pid, .ready, [], true⟩).processTable p = a.processTable p := fun p hp => if_neg hp
  have hnew : (a.modifyProcess idx fun _ => ⟨pid, .ready, [], true⟩).processTable idx = ⟨pid, .ready, [], true⟩ :=
    if_pos rfl
  refine ⟨fun p hp t ht => ?_, fun p hp => ?_, fun p hp => ?_, fun t ht => ?_⟩
  · by_cases hpi : p = idx
    · rw [hpi, hnew] at ht
      cases ht
    · rw [hother p hpi] at hp ht
      exact h.members p hp t ht
  · by_cases hpi : p = idx
    · rw [hpi, hnew]
      exact List.nodup_nil
    · rw [hother p hpi] at hp ⊢
      exact h.nodup p hp
  · by_cases hpi : p = idx
    · rw [hpi, hnew]
      exact Nat.zero_le 16
    · rw [hother p hpi] at hp ⊢
      exact h.bounded p hp
  · obtain ⟨p, hparent, hp, hmem⟩ := h.listed t ht
    have hpi : p ≠ idx := by
      rintro rfl
      simp [hp] at hidx
    exact ⟨p, hparent, by rw [hother p hpi]; exact hp, by rw [hother p hpi]; exact hmem⟩

theorem step (h : Owned a) (hi : FifoInv a) (op : SchedOp π) : Owned (a.step op).2 := by
  rcases step_owners a op with hs | ⟨pid, _, _, entry, proc, slot, -, hproc, hlen, hfree, hs⟩ | ⟨c, hc, hs⟩
  · exact h.same hs
  · have hused := (firstFin_eq_some.mp hproc).2.1
    simp only [Bool.and_eq_true] at hused
    exact (h.enter hused.1 hlen hfree entry).same hs
  · exact (h.retire (hi.current c hc).1).same hs

end Owned

/-! ## Runs -/

/-- What every step of the kernel keeps. -/
structure KernelInv (a : Lists π) : Prop where
  fifo : FifoInv a.fifo
  owned : Owned a.fifo
  tid : a.fifo.nextTid.toNat = (1 + created a.fifo.log) % 2 ^ 32

namespace KernelInv

variable {a : Lists π}

theorem createProcess (h : KernelInv a) (name : List UInt8) (memorySpace : UInt64) :
    KernelInv (a.createProcess name memorySpace).2 := by
  unfold Lists.createProcess
  split
  · exact h
  · rename_i idx hidx
    have hfree : (a.fifo.processTable idx).used = false := by simpa using (firstFin_eq_some.mp hidx).2.1
    have hf := h.fifo
    exact ⟨⟨⟨hf.members, hf.order, hf.current, hf.running, hf.disabled⟩, hf.runs⟩, h.owned.newProcess hfree _, h.tid⟩

theorem tid_step {a : Fifo π} (h : a.nextTid.toNat = (1 + created a.log) % 2 ^ 32) (op : SchedOp π) :
    (a.step op).2.nextTid.toNat = (1 + created (a.step op).2.log) % 2 ^ 32 := by
  rcases step_owners a op with hs | ⟨pid, _, _, entry, proc, slot, -, -, -, -, hs⟩ | ⟨c, -, hs⟩
  · rw [hs.nextTid, hs.created]
    exact h
  · rw [hs.nextTid, hs.created]
    show (a.nextTid + 1).toNat = (1 + (created a.log + 1)) % 2 ^ 32
    rw [UInt32.toNat_add, h]
    show ((1 + created a.log) % 2 ^ 32 + 1) % 2 ^ 32 = _
    omega
  · rw [hs.nextTid, hs.created, retire_log]
    rw [retire_nextTid]
    exact h

theorem step (h : KernelInv a) (op : KernelOp π) : KernelInv (a.step op).2 := by
  cases op with
  | processCreate name memorySpace => exact h.createProcess name memorySpace
  | thread op => exact ⟨step_inv h.fifo op, h.owned.step h.fifo op, tid_step h.tid op⟩

theorem boot (cpu : π) : KernelInv ⟨(bootKernel cpu).sched.toFifo [], 1, fun _ => ⟨[], 0⟩⟩ := by
  have hfree : ∀ t, (((bootKernel cpu).sched.toFifo []).table t).used = false := fun t => rfl
  have hunused : ∀ p, (((bootKernel cpu).sched.toFifo []).processTable p).used = false := fun p => rfl
  refine ⟨schedulerInit_inv _, ⟨?_, ?_, ?_, ?_⟩, rfl⟩
  · intro p hp
    simp [hunused] at hp
  · intro p hp
    simp [hunused] at hp
  · intro p hp
    simp [hunused] at hp
  · intro t ht
    simp [hfree] at ht

end KernelInv

/-- A run does what it does on lists, and keeps the invariant. -/
theorem kernel_run {k : Kernel π} {a : Lists π} (hr : RepKernel k a) (hi : KernelInv a) (ops : List (KernelOp π)) :
    ∃ k', runFrom kernelStep k ops = .ok ((a.run ops).1, k') ∧ RepKernel k' (a.run ops).2 ∧
      KernelInv (a.run ops).2 := by
  induction ops generalizing k a with
  | nil => exact ⟨k, rfl, hr, hi⟩
  | cons op ops ih =>
    obtain ⟨k₁, hstep, hrep⟩ := kernelStep_refines hr hi.fifo.members op
    obtain ⟨k', hrun, hend⟩ := ih hrep (hi.step op)
    exact ⟨k', runFrom_cons hstep hrun, hend⟩

theorem KernelInv.threadLists {k : Kernel π} {a : Lists π} (h : KernelInv a) (hr : RepKernel k a) :
    ThreadLists k.sched := by
  have hproc := hr.sched.processTable_eq
  have ho := h.owned
  refine ⟨?_, ?_, ?_, ?_⟩
  · simp only [hr.sched.used_eq, hr.sched.parent_eq, hproc]
    exact ho.members
  · rw [hproc]
    exact ho.nodup
  · rw [hproc]
    exact ho.bounded
  · intro t ht
    rw [hr.sched.used_eq] at ht
    obtain ⟨p, hp, hpu, hmem⟩ := ho.listed t ht
    rw [hproc]
    refine ⟨p, ⟨hpu, hmem⟩, fun p' hp' => ?_⟩
    exact Option.some.inj ((ho.members p' hp'.1 t hp'.2).2.symm.trans hp)

/-! ## Failed creations -/

/-- A creation that does not return the next id leaves everything as it was. -/
theorem threadCreate_cases {s s' : Sched π} {pid : UInt32} {entryPoint : Option π} {stack : Bool} {r : Int}
    (h : threadCreate s pid entryPoint stack = .ok (r, s')) : s' = s ∨ r = s.nextTid.toNat := by
  unfold threadCreate at h
  split at h
  · split at h
    · exact Or.inl (Prod.mk.inj (Except.ok.inj h)).2.symm
    · split at h
      · exact Or.inl (Prod.mk.inj (Except.ok.inj h)).2.symm
      · split at h
        · exact Or.inl (Prod.mk.inj (Except.ok.inj h)).2.symm
        · obtain ⟨s₁, -, h⟩ := bind_eq_ok.mp h
          obtain ⟨s₂, -, h⟩ := bind_eq_ok.mp h
          exact Or.inr (Prod.mk.inj (Except.ok.inj h)).1.symm
  · exact Or.inl (Prod.mk.inj (Except.ok.inj h)).2.symm

theorem asInt_natCast {n : Nat} (h : n < 2 ^ 32) : asInt n = -1 ↔ n = 2 ^ 32 - 1 := by
  simp only [asInt, Int.bmod]
  constructor
  · intro he
    split at he <;> omega
  · rintro rfl
    rfl

/-- A creation that returns `-1` and has not used up the ids failed. -/
theorem KernelInv.create_failed {k k' : Kernel π} {a : Lists π} (h : KernelInv a) (hr : RepKernel k a) {pid : UInt32}
    {entryPoint : Option π} {stack : Bool}
    (hk : kernelStep k (.thread (.create pid entryPoint stack)) = .ok (-1, k'))
    (hids : created k'.sched.log < 2 ^ 32 - 1) : k' = k := by
  obtain ⟨k₁, hstep, hrep⟩ := kernelStep_refines hr h.fifo.members (.thread (.create pid entryPoint stack))
  obtain ⟨-, rfl⟩ := Prod.mk.inj (Except.ok.inj (hk.symm.trans hstep))
  obtain ⟨⟨r, s⟩, hs, he⟩ := bind_eq_ok.mp hk
  obtain ⟨hr', rfl⟩ := Prod.mk.inj (Except.ok.inj he)
  rcases threadCreate_cases hs with rfl | htid
  · rfl
  · -- the id was `2 ^ 32 - 1`
    have hlast : k.sched.nextTid.toNat = 2 ^ 32 - 1 := (asInt_natCast k.sched.nextTid.toNat_lt).mp (htid ▸ hr')
    have hlog : s.log = (a.fifo.create pid entryPoint stack).2.log := hrep.sched.log_eq
    rcases create_owners a.fifo pid entryPoint stack with hc | ⟨entry, proc, slot, -, -, -, -, hsame⟩
    · obtain ⟨s₁, hs₁, -⟩ := threadCreate_spec hr.sched hr.idle h.fifo.members pid entryPoint stack
      cases hs.symm.trans hs₁
      rw [hc] at htid
      exact absurd htid (by simp)
    · have hcount : created s.log = created a.fifo.log + 1 := by
        rw [hlog, hsame.created]
        rfl
      have hnow := h.tid
      rw [← hr.sched.nextTid_eq, hlast] at hnow
      simp only [hcount] at hids
      omega

/-! ## Lives of threads -/

section Lives

variable {a b : Fifo π} {pid : UInt32} {proc : ProcSlot} {entry : π} {slot : Slot}

/-- The scheduler is on, and there are no threads. -/
structure Resting (a : Fifo π) : Prop where
  enabled : a.schedulerEnabled = true
  current : a.currentThread = none
  queue : a.queue = []
  free : ∀ t, (a.table t).used = false

/-- The thread in `slot` was created and runs; there is no other. -/
structure Alone (a b : Fifo π) (slot : Slot) (proc : ProcSlot) (entry : π) : Prop where
  owners : SameOwners (a.enter slot proc entry) b
  enabled : b.schedulerEnabled = true
  current : b.currentThread = some slot
  queue : b.queue = []

/-- With no current thread `schedule` takes the only queued one. -/
theorem schedule_first (hon : a.schedulerEnabled = true) (hcur : a.currentThread = none) (hqueue : a.queue = [slot]) :
    a.schedule.schedulerEnabled = true ∧ a.schedule.currentThread = some slot ∧ a.schedule.queue = [] := by
  have hrequeue : (a.record .schedule).requeue = a.record .schedule := by
    simp [Fifo.requeue, Fifo.record, hcur]
  have hsched : a.schedule =
      ({ (a.record .schedule).setState slot .running with queue := [] } : Fifo π).switchTo none slot := by
    unfold Fifo.schedule
    rw [if_neg (by simp [hon]), hrequeue, hcur]
    simp [Fifo.dispatch, Fifo.record, hqueue]
  rw [hsched]
  exact ⟨hon, rfl, rfl⟩

theorem Resting.create (h : Resting a) (hproc : a.getProcess pid = some proc)
    (hlen : (a.processTable proc).threads.length < 16) (entry : π) :
    (a.create pid (some entry) true).1 = a.nextTid.toNat ∧
      ∃ slot, Alone a (a.create pid (some entry) true).2 slot proc entry := by
  obtain ⟨slot, hslot⟩ : ∃ slot, (firstFin 0 fun i => !(a.table i).used) = some slot := by
    rw [← Option.isSome_iff_exists, Option.isSome_iff_ne_none]
    intro hnone
    have hfirst := firstFin_eq_none.mp hnone 0 (Nat.zero_le _)
    simp [h.free] at hfirst
  have hcreate : a.create pid (some entry) true = ((a.nextTid.toNat : Int), a.spawn slot proc entry) := by
    simp [Fifo.create, hproc, hlen, hslot]
  have hspawn : a.spawn slot proc entry = (((a.enter slot proc entry).record (.ready slot)).enqueue slot).schedule :=
    if_pos ⟨h.enabled, h.current⟩
  have hqueue : (((a.enter slot proc entry).record (.ready slot)).enqueue slot).queue = [slot] := by
    show a.queue ++ [slot] = _
    rw [h.queue, List.nil_append]
  obtain ⟨hon, hcur, hrest⟩ := schedule_first
    (a := ((a.enter slot proc entry).record (.ready slot)).enqueue slot) h.enabled h.current hqueue
  rw [hcreate, hspawn]
  refine ⟨rfl, slot, ?_, hon, hcur, hrest⟩
  exact SameOwners.trans (b := ((a.enter slot proc entry).record (.ready slot)).enqueue slot)
    ⟨fun _ => rfl, fun _ => rfl, fun _ => rfl, id, rfl, rfl, rfl⟩ SameOwners.schedule

/-- The life of a thread that exits without another in the queue. -/
theorem Alone.exit (h : Resting a) (hb : Alone a b slot proc entry) (hnone : (a.processTable proc).threads = []) :
    Resting b.exit ∧
      b.exit.processTable = Function.update a.processTable proc { a.processTable proc with state := .terminated } ∧
      b.exit.nextTid = a.nextTid + 1 ∧ created b.exit.log = created a.log + 1 := by
  have hparent : (b.table slot).parent = some proc := by
    rw [hb.owners.parent]
    simp [Fifo.enter, Fifo.record, Fifo.modifyProcess, Fifo.modify]
  have hexit : b.exit = (b.retire slot).schedule := by
    unfold Fifo.exit
    rw [hb.current]
  have hqueue : (b.retire slot).queue = [] := (retire_queue b slot).trans hb.queue
  have henabled : (b.retire slot).schedulerEnabled = true := by
    have hkeep : (b.retire slot).schedulerEnabled = b.schedulerEnabled := by
      unfold Fifo.retire Fifo.leaveProcess
      split <;> rfl
    exact hkeep.trans hb.enabled
  -- with nothing queued `schedule` only records its call
  have hsched : (b.retire slot).schedule = (b.retire slot).record .schedule := by
    have hcur : (b.retire slot).currentThread = none := rfl
    unfold Fifo.schedule
    rw [if_neg (by simp [henabled]), hcur]
    simp [Fifo.requeue, Fifo.dispatch, Fifo.record, hcur, hqueue]
  have hsame : SameOwners (b.retire slot) b.exit := hexit ▸ SameOwners.schedule
  rw [hexit, hsched] at hsame ⊢
  refine ⟨⟨henabled, rfl, hqueue, fun t => ?_⟩, ?_, ?_, ?_⟩
  · show ((b.retire slot).table t).used = false
    rw [retire_table]
    by_cases ht : t = slot
    · rw [if_pos ht]
    · rw [if_neg ht, hb.owners.used]
      show (if t = slot then _ else a.table t).used = false
      rw [if_neg ht]
      exact h.free t
  · funext p
    show (b.retire slot).processTable p = _
    rw [Owned.retire_processTable hparent, hb.owners.processTable]
    by_cases hp : p = proc
    · subst hp
      simp [Fifo.enter, Fifo.record, Fifo.modifyProcess, Fifo.modify, hnone]
    · rw [if_neg hp, Function.update_of_ne hp]
      exact if_neg hp
  · show (b.retire slot).nextTid = _
    rw [retire_nextTid, hb.owners.nextTid]
    rfl
  · show created (b.retire slot).log = _
    rw [retire_log, hb.owners.created]
    rfl

/-- A thread is created for process `pid` and exits. -/
def lifeOps (pid : UInt32) (entry : π) : List (KernelOp π) :=
  [.thread (.create pid (some entry) true), .thread .exit]

/-- One life, with everything it leaves behind. -/
theorem Resting.life {a : Lists π} (h : Resting a.fifo) (hproc : a.fifo.getProcess pid = some proc)
    (hnone : (a.fifo.processTable proc).threads = []) (entry : π) :
    Resting (a.run (lifeOps pid entry)).2.fifo ∧
      (a.run (lifeOps pid entry)).2.fifo.processTable =
        Function.update a.fifo.processTable proc { a.fifo.processTable proc with state := .terminated } ∧
      (a.run (lifeOps pid entry)).2.nextPid = a.nextPid ∧
      created (a.run (lifeOps pid entry)).2.fifo.log = created a.fifo.log + 1 := by
  obtain ⟨-, slot, hb⟩ := h.create hproc (by simp [hnone]) entry
  obtain ⟨hrest, htable, -, hcount⟩ := hb.exit h hnone
  exact ⟨hrest, htable, rfl, hcount⟩

/-- The processes have the same ids and are used as before. -/
theorem getProcess_update (a a' : Fifo π) {state : ProcessState}
    (h : a'.processTable = Function.update a.processTable proc { a.processTable proc with state }) (pid : UInt32) :
    a'.getProcess pid = a.getProcess pid := by
  unfold Fifo.getProcess
  congr 1
  funext i
  rw [h]
  by_cases hi : i = proc
  · subst hi
    simp
  · rw [Function.update_of_ne hi]

theorem Lists.run_append (a : Lists π) (ops ops' : List (KernelOp π)) :
    (a.run (ops ++ ops')).2 = ((a.run ops).2.run ops').2 := by
  induction ops generalizing a with
  | nil => rfl
  | cons op ops ih => exact ih _

/-- `n` lives in the same process, one after the other. -/
def livesOps (pid : UInt32) (entry : π) : Nat → List (KernelOp π)
  | 0 => []
  | n + 1 => lifeOps pid entry ++ livesOps pid entry n

theorem Resting.lives {a : Lists π} (h : Resting a.fifo) (hproc : a.fifo.getProcess pid = some proc)
    (hnone : (a.fifo.processTable proc).threads = []) (entry : π) (n : Nat) :
    Resting (a.run (livesOps pid entry n)).2.fifo ∧
      (a.run (livesOps pid entry n)).2.fifo.getProcess pid = some proc ∧
      ((a.run (livesOps pid entry n)).2.fifo.processTable proc).threads = [] ∧
      created (a.run (livesOps pid entry n)).2.fifo.log = created a.fifo.log + n := by
  induction n generalizing a with
  | zero => exact ⟨h, hproc, hnone, rfl⟩
  | succ n ih =>
    obtain ⟨hrest, htable, -, hcount⟩ := h.life hproc hnone entry
    have hproc' := (getProcess_update a.fifo _ htable pid).trans hproc
    have hnone' : ((a.run (lifeOps pid entry)).2.fifo.processTable proc).threads = [] := by
      rw [htable, Function.update_self]
      exact hnone
    have hih := ih hrest hproc' hnone'
    rw [livesOps, Lists.run_append]
    refine ⟨hih.1, hih.2.1, hih.2.2.1, ?_⟩
    rw [hih.2.2.2, hcount]
    omega

end Lives

/-- **Thread lists.** After every run the lists agree with the threads; and as long as fewer than `2 ^ 32 - 1` ids have
been issued, a creation that returns `-1` leaves everything as it was. -/
theorem thread_lists_run (cpu : π) (ops : List (KernelOp π)) :
    ∃ rs k, runFrom kernelStep (bootKernel cpu) ops = .ok (rs, k) ∧ ThreadLists k.sched ∧
      ∀ pid entryPoint stack k', kernelStep k (.thread (.create pid entryPoint stack)) = .ok (-1, k') →
        created k'.sched.log < 2 ^ 32 - 1 → k' = k := by
  obtain ⟨k, hrun, hrep, hinv⟩ := kernel_run (bootKernel_rep cpu) (KernelInv.boot cpu) ops
  refine ⟨_, k, hrun, hinv.threadLists hrep, ?_⟩
  intro pid entryPoint stack k' hk hids
  exact hinv.create_failed hrep hk hids

/-- One process, and the scheduler on. -/
def oneProcess : List (KernelOp Unit) := [.processCreate [] 0, .thread .enable]

theorem Lists.oneProcess_resting {b : Lists Unit} (hb : b = ⟨(bootKernel ()).sched.toFifo [], 1, fun _ => ⟨[], 0⟩⟩) :
    Resting (b.run oneProcess).2.fifo ∧ (b.run oneProcess).2.fifo.getProcess 1 = some 0 ∧
      ((b.run oneProcess).2.fifo.processTable 0).threads = [] ∧ created (b.run oneProcess).2.fifo.log = 0 := by
  subst hb
  exact ⟨⟨rfl, rfl, rfl, fun _ => rfl⟩, rfl, rfl, rfl⟩

/-- After `n` lives in one process, one more creation. -/
theorem create_after_lives (n : Nat) : ∃ rs k k',
    runFrom kernelStep (bootKernel ()) (oneProcess ++ livesOps 1 () n) = .ok (rs, k) ∧
      kernelStep k (.thread (.create 1 (some ()) true)) = .ok (asInt ((1 + n) % 2 ^ 32 : Nat), k') ∧
      created k'.sched.log = n + 1 ∧ (k.sched.processTable 0).threads = [] ∧
      (k'.sched.processTable 0).threads ≠ [] := by
  obtain ⟨k, hrun, hrep, hinv⟩ :=
    kernel_run (bootKernel_rep ()) (KernelInv.boot ()) (oneProcess ++ livesOps 1 () n)
  generalize hb : (⟨(bootKernel ()).sched.toFifo [], 1, fun _ => ⟨[], 0⟩⟩ : Lists Unit) = b at hrun hrep hinv
  obtain ⟨hrest₀, hproc₀, hnone₀, hcount₀⟩ := Lists.oneProcess_resting hb.symm
  obtain ⟨hrest, hproc, hnone, hcount⟩ := hrest₀.lives hproc₀ hnone₀ () n
  rw [← Lists.run_append] at hrest hproc hnone hcount
  generalize (b.run (oneProcess ++ livesOps 1 () n)).2 = a at hrep hinv hrest hproc hnone hcount
  obtain ⟨k', hstep, hrep'⟩ := kernelStep_refines hrep hinv.fifo.members (.thread (.create 1 (some ()) true))
  obtain ⟨hid, slot, halone⟩ := hrest.create hproc (by simp [hnone]) ()
  have htid := hinv.tid
  rw [hcount, hcount₀, Nat.zero_add] at htid
  refine ⟨_, k, k', hrun, ?_, ?_, ?_, ?_⟩
  · rw [hstep, Lists.step, Fifo.step, hid, htid]
  · rw [hrep'.sched.log_eq, Lists.step, Fifo.step, halone.owners.created]
    show created a.fifo.log + 1 = _
    rw [hcount, hcount₀, Nat.zero_add]
  · rw [hrep.sched.processTable_eq]
    exact hnone
  · rw [hrep'.sched.processTable_eq, Lists.step, Fifo.step, halone.owners.processTable]
    simp [Fifo.enter, Fifo.record, Fifo.modifyProcess]

/-- The thread with the id `2 ^ 32 - 1` is created, and its creation returns `-1`. -/
theorem last_id_looks_failed : ∃ n rs k k', n = 2 ^ 32 - 2 ∧
    runFrom kernelStep (bootKernel ()) (oneProcess ++ livesOps 1 () n) = .ok (rs, k) ∧
      kernelStep k (.thread (.create 1 (some ()) true)) = .ok (-1, k') ∧ created k'.sched.log < 2 ^ 32 ∧
      (k.sched.processTable 0).threads = [] ∧ (k'.sched.processTable 0).threads ≠ [] := by
  obtain ⟨n, hn⟩ : ∃ n, n = 2 ^ 32 - 2 := ⟨_, rfl⟩
  obtain ⟨rs, k, k', hrun, hstep, hcount, hnone, hthread⟩ := create_after_lives n
  refine ⟨n, rs, k, k', hn, hrun, ?_, by omega, hnone, hthread⟩
  rw [hstep, (asInt_natCast (Nat.mod_lt _ (by norm_num))).mpr (by omega)]

end AmqOs.Processes
