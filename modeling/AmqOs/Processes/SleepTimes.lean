import AmqOs.Processes.Sleep

/-!
# Sleeping long enough

`sleep_seconds` and `sleep_ms` turn their argument into timer ticks, and `sleep_ticks` turns the ticks into the wake time
that it stores in the job entry of the thread. The timer ticks once a millisecond, so that the uptime in milliseconds is
the number of ticks. The conversions multiply before they divide, `sleep_seconds` in 32 bits and the others in 64.

A thread with a job entry arms a wake time that is at least as late as it asked for if and only if the products fit
(`sleepSeconds_arms`, `sleepMs_arms`); and `update_jobs_safe` unblocks no thread before a time to which all its entries
are armed (`updateJobsSafe_asleep`).
-/

set_option autoImplicit false

namespace AmqOs.Processes

open AmqOs.Lib

/-- `sleep_ms` up to the call of `sleep_ticks`. -/
def sleepMs (s : Sleepers) (milliseconds : UInt64) : Sleepers :=
  if milliseconds = 0 then s
  else
    let ticks := milliseconds * 1000 / 1000
    let ticks := if ticks = 0 then 1 else ticks
    s.goto (.entered ticks)

/-- `sleep_seconds` up to the call of `sleep_ticks`. -/
def sleepSeconds (s : Sleepers) (seconds : UInt32) : Sleepers :=
  if seconds = 0 then s else sleepMs s (seconds * 1000).toUInt64

/-- Before the call of `thread_block`, or outside of `sleep_ticks`. -/
def Pc.stops : Pc → Bool
  | .block _ | .idle => true
  | _ => false

/-- At most `n` statements of `sleep_ticks`, up to the call of `thread_block`. -/
def upToBlock : Nat → Sleepers → Except SchedFault Sleepers
  | 0, s => .ok s
  | n + 1, s => if s.sched.cpu.pc.stops = true then .ok s else do upToBlock n (← sleepTicks s)

/-- The entry of a thread: the first used one with its id. -/
def IsEntry (s : Sleepers) (c : Slot) (i : JobSlot) : Prop :=
  firstFin 0 (fun j => (s.jobTable j).used && (s.jobTable j).tid == (s.sched.threadTable c).tid) = some i

/-- The current thread is about to block, with its entry armed to `time` milliseconds or later. -/
def ArmsAtLeast (s : Sleepers) (time : Nat) : Prop :=
  ∃ s' c i, upToBlock 38 s = .ok s' ∧ s'.sched.currentThread = some c ∧ s'.sched.cpu.pc = .block c ∧ IsEntry s' c i ∧
    (s'.jobTable i).state = .sleeping ∧ time ≤ (s'.jobTable i).sleepUntil.toNat

/-! ## The statements of `sleep_ticks` -/

section Statements

variable {s s' : Sleepers} {c : Slot} {i : JobSlot} {w : UInt64} {n : Nat} {pc : Pc}

theorem upToBlock_stop (h : pc.stops = true) : upToBlock n (s.goto pc) = .ok (s.goto pc) := by
  cases n with
  | zero => rfl
  | succ n => exact if_pos h

theorem upToBlock_step (h : pc.stops = false) (hs : sleepTicks (s.goto pc) = .ok s') :
    upToBlock (n + 1) (s.goto pc) = upToBlock n s' := by
  have hpc : ¬(s.goto pc).sched.cpu.pc.stops = true := by
    show ¬pc.stops = true
    simp [h]
  rw [upToBlock, if_neg hpc, hs]
  rfl

/-- The entry is armed, and `thread_block` comes next. -/
def armed (s : Sleepers) (c : Slot) (i : JobSlot) (w : UInt64) : Sleepers :=
  (s.setJob i { s.jobTable i with state := .sleeping, sleepUntil := w }).goto (.block c)

theorem upToBlock_arm : upToBlock (n + 2) (s.goto (.arm c w i)) = .ok (armed s c i w) := by
  rw [upToBlock_step rfl rfl, upToBlock_step rfl rfl, upToBlock_stop rfl]
  congr 1
  simp only [armed, Sleepers.setJob, Sleepers.goto, Sleepers.mk.injEq, and_true, true_and]
  funext j
  split <;> simp

/-- The entry of `c` among those from `k` on. -/
def entryFrom (s : Sleepers) (c : Slot) (k : Nat) : Option JobSlot :=
  firstFin k fun j => (s.jobTable j).used && (s.jobTable j).tid == (s.sched.threadTable c).tid

/-- What the search for an entry comes to. -/
def searched (s : Sleepers) (c : Slot) (w : UInt64) : Option JobSlot → Sleepers
  | none => s.goto (.block c)
  | some i => armed s c i w

theorem entryFrom_cons (k : JobSlot) : entryFrom s c k =
    if (s.jobTable k).used = true ∧ (s.jobTable k).tid = (s.sched.threadTable c).tid then some k
    else entryFrom s c (k + 1) := by
  unfold entryFrom
  split
  · rename_i h
    exact firstFin_eq_some.mpr ⟨le_refl _, by simp [h.1, h.2], fun j h1 h2 => absurd h1 (not_le.mpr h2)⟩
  · rename_i h
    cases hf : firstFin (k + 1) fun j => (s.jobTable j).used && (s.jobTable j).tid == (s.sched.threadTable c).tid with
    | none =>
      refine firstFin_eq_none.mpr fun j hj => ?_
      by_cases hjk : j = k
      · simpa [hjk] using h
      · exact firstFin_eq_none.mp hf j (by have := Fin.val_ne_of_ne hjk; omega)
    | some i =>
      obtain ⟨h1, h2, h3⟩ := firstFin_eq_some.mp hf
      refine firstFin_eq_some.mpr ⟨by omega, h2, fun j hj hji => ?_⟩
      by_cases hjk : j = k
      · simpa [hjk] using h
      · exact h3 j (by have := Fin.val_ne_of_ne hjk; omega) hji

/-- The search from entry `k` on. -/
theorem upToBlock_scan {k : Nat} (hk : k + n = 32) :
    upToBlock (n + 3) (s.goto (.scan c w k)) = .ok (searched s c w (entryFrom s c k)) := by
  induction n generalizing k with
  | zero =>
    have hnone : entryFrom s c k = none := firstFin_eq_none.mpr fun j hj => absurd j.isLt (by omega)
    have hstep : sleepTicks (s.goto (.scan c w k)) = .ok (s.goto (.block c)) := by
      show (if h : k < 32 then _ else _) = _
      rw [dif_neg (by omega)]
      rfl
    rw [upToBlock_step rfl hstep, upToBlock_stop rfl, hnone]
    rfl
  | succ n ih =>
    have hlt : k < 32 := by omega
    have hcons := entryFrom_cons (s := s) (c := c) ⟨k, hlt⟩
    by_cases hentry : (s.jobTable ⟨k, hlt⟩).used = true ∧
        (s.jobTable ⟨k, hlt⟩).tid = (s.sched.threadTable c).tid
    · have hstep : sleepTicks (s.goto (.scan c w k)) = .ok (s.goto (.arm c w ⟨k, hlt⟩)) := by
        show (if h : k < 32 then _ else _) = _
        rw [dif_pos hlt]
        exact if_pos hentry
      rw [if_pos hentry] at hcons
      rw [upToBlock_step rfl hstep, upToBlock_arm, hcons]
      rfl
    · have hstep : sleepTicks (s.goto (.scan c w k)) = .ok (s.goto (.scan c w (k + 1))) := by
        show (if h : k < 32 then _ else _) = _
        rw [dif_pos hlt]
        exact if_neg hentry
      rw [if_neg hentry] at hcons
      rw [upToBlock_step rfl hstep, ih (by omega), hcons]

/-- All of `sleep_ticks` up to the block. -/
theorem upToBlock_entered (hc : s.sched.currentThread = some c) (ticks : UInt64) :
    upToBlock 38 (s.goto (.entered ticks)) =
      .ok (searched s c (wakeTimeMs (getUptimeMs s.timerTicks) ticks) (entryFrom s c 0)) := by
  have hentered : sleepTicks (s.goto (.entered ticks)) = .ok (s.goto (.time c ticks)) := by
    simp [sleepTicks, Sleepers.goto, hc]
  rw [upToBlock_step rfl hentered, upToBlock_step rfl rfl, upToBlock_step rfl rfl]
  exact upToBlock_scan (s := s) (n := 32) rfl

theorem armed_iff : IsEntry (armed s c i w) c i ↔ IsEntry s c i := by
  unfold IsEntry
  have hsame : ∀ j, ((armed s c i w).jobTable j).used = (s.jobTable j).used ∧
      ((armed s c i w).jobTable j).tid = (s.jobTable j).tid := by
    intro j
    simp only [armed, Sleepers.goto, Sleepers.setJob]
    split
    · rename_i h
      subst h
      exact ⟨rfl, rfl⟩
    · exact ⟨rfl, rfl⟩
  simp only [hsame]
  rfl

theorem armsAtLeast_entered (hc : s.sched.currentThread = some c) (ticks : UInt64) (time : Nat) :
    ArmsAtLeast (s.goto (.entered ticks)) time ↔
      (∃ i, IsEntry s c i) ∧ time ≤ (wakeTimeMs (getUptimeMs s.timerTicks) ticks).toNat := by
  unfold ArmsAtLeast
  rw [upToBlock_entered hc]
  constructor
  · rintro ⟨s', c', i, hs, hc', hpc, hentry, hstate, htime⟩
    cases he : entryFrom s c 0 with
    | none =>
      rw [he] at hs
      obtain rfl := Except.ok.inj hs
      obtain rfl : c = c' := Option.some.inj (hc.symm.trans hc')
      cases he.symm.trans hentry
    | some j =>
      rw [he] at hs
      obtain rfl := Except.ok.inj hs
      obtain rfl : c = c' := Option.some.inj (hc.symm.trans hc')
      obtain rfl : j = i := Option.some.inj ((armed_iff.mpr he).symm.trans hentry)
      refine ⟨⟨j, he⟩, ?_⟩
      simpa [searched, armed, Sleepers.goto, Sleepers.setJob] using htime
  · rintro ⟨⟨i, hi⟩, htime⟩
    refine ⟨armed s c i (wakeTimeMs (getUptimeMs s.timerTicks) ticks), c, i, ?_, hc, rfl, armed_iff.mpr hi, ?_, ?_⟩
    · rw [show entryFrom s c 0 = some i from hi]
      rfl
    · simp [armed, Sleepers.goto, Sleepers.setJob]
    · simpa [armed, Sleepers.goto, Sleepers.setJob] using htime

end Statements

/-! ## The conversions -/

section Conversions

theorem getUptimeMs_toNat (t : UInt64) : (getUptimeMs t).toNat = t.toNat * 1000 % 2 ^ 64 / 1000 := by
  unfold getUptimeMs
  rw [UInt64.toNat_div, UInt64.toNat_mul]
  rfl

theorem getUptimeMs_le (t : UInt64) : (getUptimeMs t).toNat ≤ t.toNat := by
  rw [getUptimeMs_toNat]
  omega

/-- The uptime is the number of ticks as long as the product fits. -/
theorem le_uptime_iff (t : Nat) : t ≤ t * 1000 % 2 ^ 64 / 1000 ↔ t * 1000 < 2 ^ 64 := by
  omega

theorem wakeTimeMs_toNat (now ticks : UInt64) :
    (wakeTimeMs now ticks).toNat = (now.toNat + ticks.toNat * 1000 % 2 ^ 64 / 1000) % 2 ^ 64 := by
  unfold wakeTimeMs
  rw [UInt64.toNat_add, UInt64.toNat_div, UInt64.toNat_mul]
  rfl

variable {s : Sleepers} {c : Slot}

/-- What `sleep_ms` arms when its own products fit. -/
theorem sleepMs_arms_iff (hc : s.sched.currentThread = some c) {ms : UInt64} (hpos : 0 < ms.toNat)
    (hms : ms.toNat < 2 ^ 53) (time : Nat) :
    ArmsAtLeast (sleepMs s ms) time ↔
      (∃ i, IsEntry s c i) ∧ time ≤ s.timerTicks.toNat * 1000 % 2 ^ 64 / 1000 + ms.toNat := by
  have hne : ms ≠ 0 := by
    rintro rfl
    exact lt_irrefl 0 hpos
  have hticks : ms * 1000 / 1000 = ms := by
    apply UInt64.toNat_inj.mp
    rw [UInt64.toNat_div, UInt64.toNat_mul]
    show ms.toNat * 1000 % 2 ^ 64 / 1000 = ms.toNat
    omega
  unfold sleepMs
  rw [if_neg hne]
  simp only [hticks, if_neg hne]
  rw [armsAtLeast_entered hc, wakeTimeMs_toNat, getUptimeMs_toNat]
  have hback : ms.toNat * 1000 % 2 ^ 64 / 1000 = ms.toNat := by omega
  rw [hback, Nat.mod_eq_of_lt (by omega)]

theorem not_armsAtLeast_of_idle (h : s.sched.cpu = .rest) (time : Nat) : ¬ArmsAtLeast s time := by
  rintro ⟨s', c, i, hs, -, hpc, -⟩
  have hstop : s.sched.cpu.pc.stops = true := by rw [h]; rfl
  rw [upToBlock, if_pos hstop] at hs
  obtain rfl := Except.ok.inj hs
  rw [h] at hpc
  cases hpc

/-- **`sleep_ms`.** -/
theorem sleepMs_arms (hc : s.sched.currentThread = some c) (hcpu : s.sched.cpu = .rest) {ms : UInt64}
    (hms : ms.toNat < 2 ^ 53) :
    ArmsAtLeast (sleepMs s ms) (s.timerTicks.toNat + ms.toNat) ↔
      (∃ i, IsEntry s c i) ∧ 0 < ms.toNat ∧ s.timerTicks.toNat * 1000 < 2 ^ 64 := by
  rcases Nat.eq_zero_or_pos ms.toNat with h0 | hpos
  · have hzero : ms = 0 := UInt64.toNat_inj.mp h0
    have hnot := not_armsAtLeast_of_idle hcpu (s.timerTicks.toNat + ms.toNat)
    rw [hzero] at hnot ⊢
    exact ⟨fun h => absurd h hnot, fun h => absurd h.2.1 (lt_irrefl 0)⟩
  · rw [sleepMs_arms_iff hc hpos hms]
    refine and_congr_right fun _ => ?_
    omega

/-- **`sleep_seconds`.** -/
theorem sleepSeconds_arms (seconds : UInt32) (hc : s.sched.currentThread = some c) (hcpu : s.sched.cpu = .rest)
    (hpos : 0 < seconds.toNat) :
    ArmsAtLeast (sleepSeconds s seconds) (s.timerTicks.toNat + 1000 * seconds.toNat) ↔
      (∃ i, IsEntry s c i) ∧ 1000 * seconds.toNat < 2 ^ 32 ∧ s.timerTicks.toNat * 1000 < 2 ^ 64 := by
  have hne : seconds ≠ 0 := by
    rintro rfl
    exact lt_irrefl 0 hpos
  have hprod : (seconds * 1000).toUInt64.toNat = seconds.toNat * 1000 % 2 ^ 32 := by
    rw [UInt32.toNat_toUInt64, UInt32.toNat_mul]
    rfl
  unfold sleepSeconds
  rw [if_neg hne]
  rcases Nat.eq_zero_or_pos (seconds * 1000).toUInt64.toNat with h0 | hms
  · have hzero : (seconds * 1000).toUInt64 = 0 := UInt64.toNat_inj.mp h0
    have hnot := not_armsAtLeast_of_idle hcpu (s.timerTicks.toNat + 1000 * seconds.toNat)
    rw [hzero]
    refine ⟨fun h => absurd h hnot, fun h => ?_⟩
    omega
  · rw [sleepMs_arms_iff hc hms (by omega), hprod]
    have hle : s.timerTicks.toNat * 1000 % 2 ^ 64 / 1000 ≤ s.timerTicks.toNat := by omega
    have hexact := le_uptime_iff s.timerTicks.toNat
    refine and_congr_right fun _ => ?_
    generalize s.timerTicks.toNat * 1000 % 2 ^ 64 / 1000 = uptime at hle hexact ⊢
    rw [← hexact]
    omega

end Conversions

/-! ## `update_jobs_safe` -/

section Update

variable {s s' : Sleepers} {x : Slot} {time : Nat} {now : UInt64}

/-- The thread sleeps, and none of its entries is armed to wake it before `time`. -/
structure AsleepUntil (s : Sleepers) (x : Slot) (tid : UInt32) (time : Nat) : Prop where
  used : (s.sched.threadTable x).used = true
  tid_eq : (s.sched.threadTable x).tid = tid
  blocked : (s.sched.threadTable x).state = .blocked
  due : ∀ i, (s.jobTable i).used = true → (s.jobTable i).tid = tid → 0 < (s.jobTable i).sleepUntil →
    time ≤ (s.jobTable i).sleepUntil.toNat

theorem modify_next_bare {π : Type} (s : Sched π) (t x : Slot) (n : Option Slot) :
    ((s.modify t fun y => { y with next := n }).threadTable x).bare = (s.threadTable x).bare :=
  congrFun (congrArg Fifo.table (modify_next_view (q := []) n)) x

/-- `ready_queue_add` changes links only. -/
theorem readyQueueAdd_bare {π : Type} {s s' : Sched π} {t : Slot} (h : readyQueueAdd s t = .ok s') (x : Slot) :
    (s'.threadTable x).bare = (s.threadTable x).bare := by
  unfold readyQueueAdd at h
  simp only at h
  split at h
  · obtain rfl := Except.ok.inj h
    exact modify_next_bare s t x none
  · split at h
    · cases h
    · obtain rfl := Except.ok.inj h
      exact (modify_next_bare _ _ x (some t)).trans (modify_next_bare s t x none)

/-- `thread_unblock` changes one thread, links aside. -/
theorem threadUnblock_bare {π : Type} {s s' : Sched π} {tid : UInt32} (h : threadUnblock s tid = .ok s')
    (hx : getThread s tid ≠ some x) : (s'.threadTable x).bare = (s.threadTable x).bare := by
  unfold threadUnblock at h
  cases ht : getThread s tid with
  | none =>
    rw [ht] at h
    rw [Except.ok.inj h]
  | some t =>
    rw [ht] at h
    have hne : x ≠ t := fun e => hx (e ▸ ht)
    simp only at h
    split at h
    · rw [Except.ok.inj h]
    · rw [readyQueueAdd_bare h]
      show Thread.bare (if x = t then _ else s.threadTable x) = _
      rw [if_neg hne]

theorem AsleepUntil.setJob {tid : UInt32} (h : AsleepUntil s x tid time) {sched : Sched Point} (i : JobSlot) {job : Job}
    (hsched : (sched.threadTable x).bare = (s.sched.threadTable x).bare)
    (hjob : job.used = true → job.tid = tid → 0 < job.sleepUntil → time ≤ job.sleepUntil.toNat) :
    AsleepUntil ({ s with sched }.setJob i job) x tid time := by
  have hused := congrArg Thread.used hsched
  have htid := congrArg Thread.tid hsched
  have hstate := congrArg Thread.state hsched
  refine ⟨hused.trans h.used, htid.trans h.tid_eq, hstate.trans h.blocked, fun j => ?_⟩
  by_cases hj : j = i
  · simpa [Sleepers.setJob, hj] using hjob
  · simpa [Sleepers.setJob, hj] using h.due j

theorem updateJob_asleep {tid : UInt32} (h : AsleepUntil s x tid time) (hnow : now.toNat < time) {i : JobSlot}
    (hs : updateJob now s i = .ok s') : AsleepUntil s' x tid time := by
  unfold updateJob at hs
  simp only at hs
  split at hs
  · obtain rfl := Except.ok.inj hs
    exact h
  · rename_i hused
    cases ht : getThread s.sched (s.jobTable i).tid with
    | none =>
      rw [ht] at hs
      obtain rfl := Except.ok.inj hs
      exact h.setJob i rfl fun hu => absurd hu (by simp)
    | some t =>
      rw [ht] at hs
      simp only at hs
      split at hs
      · obtain rfl := Except.ok.inj hs
        exact h.setJob i rfl fun hu => absurd hu (by simp)
      · split at hs
        · rename_i hsleeping
          split at hs
          · rename_i hdue
            obtain ⟨sched, hsched, hs⟩ := bind_eq_ok.mp hs
            obtain rfl := Except.ok.inj hs
            refine h.setJob i (threadUnblock_bare hsched ?_) fun _ _ hz => absurd hz (lt_irrefl 0)
            -- an entry of `x` is not due
            intro hx
            have hfound := (firstFin_eq_some.mp hx).2.1
            simp only [Bool.and_eq_true, beq_iff_eq] at hfound
            have hlate := h.due i (by simpa using hused) (hfound.2.symm.trans h.tid_eq) hsleeping.2
            rw [ge_iff_le, UInt64.le_iff_toNat_le] at hdue
            omega
          · obtain rfl := Except.ok.inj hs
            exact h
        · obtain rfl := Except.ok.inj hs
          exact h.setJob i rfl (h.due i)

theorem updateJobs_asleep {tid : UInt32} (h : AsleepUntil s x tid time) (hnow : now.toNat < time) {l : List JobSlot}
    (hs : l.foldlM (updateJob now) s = .ok s') : AsleepUntil s' x tid time := by
  induction l generalizing s with
  | nil =>
    obtain rfl := Except.ok.inj hs
    exact h
  | cons i l ih =>
    rw [List.foldlM_cons] at hs
    obtain ⟨s₁, hs₁, hs⟩ := bind_eq_ok.mp hs
    exact ih (updateJob_asleep h hnow hs₁) hs

/-- **No early wake-up.** While the uptime is below the time to which its entries are armed a thread stays blocked. -/
theorem updateJobsSafe_asleep {tid : UInt32} (h : AsleepUntil s x tid time) (hnow : s.timerTicks.toNat < time)
    (hs : updateJobsSafe s = .ok s') : (s'.sched.threadTable x).state = .blocked := by
  unfold updateJobsSafe at hs
  split at hs
  · obtain rfl := Except.ok.inj hs
    exact h.blocked
  · exact (updateJobs_asleep h (lt_of_le_of_lt (getUptimeMs_le _) hnow) hs).blocked

end Update

/-! ## All of it -/

section Times

variable {s : Sleepers} {c : Slot}

/-- **Sleep times.** A thread with an entry arms it for the time it asked for, or later, if and only if the products fit;
and no thread is unblocked before the time to which its entries are armed. -/
theorem sleep_times (hc : s.sched.currentThread = some c) (hcpu : s.sched.cpu = .rest) :
    (∀ seconds : UInt32, 0 < seconds.toNat →
      (ArmsAtLeast (sleepSeconds s seconds) (s.timerTicks.toNat + 1000 * seconds.toNat) ↔
        (∃ i, IsEntry s c i) ∧ 1000 * seconds.toNat < 2 ^ 32 ∧ s.timerTicks.toNat * 1000 < 2 ^ 64)) ∧
    (∀ ms : UInt64, ms.toNat < 2 ^ 53 →
      (ArmsAtLeast (sleepMs s ms) (s.timerTicks.toNat + ms.toNat) ↔
        (∃ i, IsEntry s c i) ∧ 0 < ms.toNat ∧ s.timerTicks.toNat * 1000 < 2 ^ 64)) ∧
    ∀ s₁ s₂ x tid time, AsleepUntil s₁ x tid time → s₁.timerTicks.toNat < time → updateJobsSafe s₁ = .ok s₂ →
      (s₂.sched.threadTable x).state = .blocked :=
  ⟨fun _ hpos => sleepSeconds_arms _ hc hcpu hpos, fun _ hms => sleepMs_arms hc hcpu hms,
    fun _ _ _ _ _ h hnow hs => updateJobsSafe_asleep h hnow hs⟩

/-- A thread with an entry, about to sleep. -/
def napper : Sleepers :=
  { bootSleepers with
    sched := { bootSleepers.sched with currentThread := some (Fin.last 255) }
    jobTable := fun _ => ⟨true, 1, 0, .running, 0⟩ }

theorem napper_entry : IsEntry napper (Fin.last 255) 0 :=
  firstFin_eq_some.mpr ⟨le_refl _, rfl, fun j _ hj => absurd hj (Nat.not_lt_zero j.val)⟩

theorem sleep_times_napper : ArmsAtLeast (sleepSeconds napper 5) (0 + 1000 * 5) :=
  ((sleep_times (s := napper) rfl rfl).1 5 (Nat.succ_pos 4)).mpr ⟨⟨0, napper_entry⟩, by decide, by decide⟩

/-- A sleep of 4294968 seconds is armed for 704 milliseconds. -/
theorem long_sleep_short : (∃ s, upToBlock 38 (sleepSeconds napper 4294968) = .ok s ∧ (s.jobTable 0).sleepUntil = 704) ∧
    ¬ArmsAtLeast (sleepSeconds napper 4294968) (0 + 1000 * 4294968) := by
  constructor
  · have hcall : sleepSeconds napper 4294968 = napper.goto (.entered 704) := rfl
    refine ⟨_, by rw [hcall]; exact upToBlock_entered (c := Fin.last 255) rfl 704, ?_⟩
    rw [show entryFrom napper (Fin.last 255) 0 = some 0 from napper_entry]
    rfl
  · intro h
    have hfit := ((sleepSeconds_arms (s := napper) (c := Fin.last 255) 4294968 rfl rfl (by decide)).mp h).2.1
    exact absurd hfit (by decide)

end Times

end AmqOs.Processes
