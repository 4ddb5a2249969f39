import AmqOs.Lib.Guarded

/-!
# Runs that leave a state, and constant stores

`Ending ε σ` is the outcome of a computation on a state that also leaves a state when it ends early; `ends x s` is the outcome
of a computation `x` that changes the state `s` only when it returns. A patch gives new values for some addresses of a memory;
patches compose, the later one over the earlier one (`patch_patch`), and twice the same is once (`patch_self`). A loop whose
iterations store constants is one patch (`forEnding_eq_patchLoop`), so running it again changes nothing (`forEnding_twice`).
-/

set_option autoImplicit false

namespace AmqOs.Lib

open Guarded

/-! ## Runs that leave a state -/

/-- The code of an early end, if there is one, and the state; nothing when the computation goes wrong. -/
abbrev Ending (ε σ : Type) := Option (Option ε × σ)

section Runs

variable {ε α σ : Type}

/-- What follows when the computation has not ended. -/
def andThen (x : Ending ε σ) (f : σ → Ending ε σ) : Ending ε σ :=
  match x with
  | none => none
  | some (some e, s) => some (some e, s)
  | some (none, s) => f s

/-- A value that is computed without a change of the state, and what follows with it. -/
def onValue (x : Guarded ε α) (s : σ) (f : α → Ending ε σ) : Ending ε σ :=
  match (x : Option (Except ε α)) with
  | none => none
  | some (.error e) => some (some e, s)
  | some (.ok a) => f a

/-- A computation that changes the state only when it returns. -/
def ends (x : Guarded ε σ) (s : σ) : Ending ε σ := onValue x s fun t => some (none, t)

/-- `f 0`, then `f 1`, …, then `f (n - 1)`. -/
def forEnding (f : Nat → σ → Ending ε σ) : Nat → σ → Ending ε σ
  | 0, s => some (none, s)
  | n + 1, s => andThen (forEnding f n s) (f n)

/-- The outcome without the state of an early end. -/
def forget (x : Ending ε σ) : Guarded ε σ :=
  match x with
  | none => (none : Option (Except ε σ))
  | some (some e, _) => throw e
  | some (none, s) => pure s

theorem andThen_assoc (x : Ending ε σ) (f g : σ → Ending ε σ) :
    andThen (andThen x f) g = andThen x fun s => andThen (f s) g := by
  rcases x with _ | ⟨_ | e, s⟩ <;> rfl

theorem forget_andThen (x : Ending ε σ) (f : σ → Ending ε σ) : forget (andThen x f) = forget x >>= fun s => forget (f s) := by
  rcases x with _ | ⟨_ | e, s⟩ <;> rfl

theorem forget_onValue (x : Guarded ε α) (s : σ) (f : α → Ending ε σ) :
    forget (onValue x s f) = x >>= fun a => forget (f a) := by
  rcases cases_eq x with rfl | ⟨e, rfl⟩ | ⟨a, rfl⟩ <;> rfl

theorem forget_ends (x : Guarded ε σ) (s : σ) : forget (ends x s) = x := by
  rcases cases_eq x with rfl | ⟨e, rfl⟩ | ⟨a, rfl⟩ <;> rfl

theorem ends_bind_pure (x : Guarded ε α) (s : σ) (g : α → σ) :
    ends (x >>= fun a => pure (g a)) s = onValue x s fun a => some (none, g a) := by
  rcases cases_eq x with rfl | ⟨e, rfl⟩ | ⟨a, rfl⟩ <;> rfl

/-- The loop that leaves its state follows the loop that does not. -/
theorem forget_forEnding {f : Nat → σ → Ending ε σ} {g : Nat → σ → Guarded ε σ} (h : ∀ i s, forget (f i s) = g i s)
    (n : Nat) (s : σ) : forget (forEnding f n s) = forLoop g n s := by
  induction n with
  | zero => rfl
  | succ n ih =>
    rw [forEnding, forget_andThen, ih, forLoop]
    congr 1
    funext t
    exact h n t

end Runs

/-! ## Patches -/

/-- New values for some addresses. -/
abbrev Patch (ι α : Type) := ι → Option α

section Patches

variable {ι α : Type}

/-- The memory with the new values. -/
def patch (p : Patch ι α) (m : ι → α) : ι → α := fun x => (p x).getD (m x)

/-- The later patch, over the earlier one. -/
def Patch.over (q p : Patch ι α) : Patch ι α := fun x => (q x).or (p x)

def Patch.empty : Patch ι α := fun _ => none

/-- The patch stays within these addresses. -/
def Patch.Within (p : Patch ι α) (W : ι → Prop) : Prop := ∀ x, ¬ W x → p x = none

theorem patch_patch (q p : Patch ι α) (m : ι → α) : patch q (patch p m) = patch (q.over p) m := by
  funext x
  unfold patch Patch.over
  cases q x <;> rfl

/-- Twice the same patch is once. -/
theorem patch_self (p : Patch ι α) (m : ι → α) : patch p (patch p m) = patch p m := by
  funext x
  unfold patch
  cases p x <;> rfl

theorem patch_of_not {p : Patch ι α} {W : ι → Prop} (h : p.Within W) {m : ι → α} {x : ι} (hx : ¬ W x) : patch p m x = m x := by
  unfold patch
  rw [h x hx]
  rfl

theorem Patch.Within.over {q p : Patch ι α} {W : ι → Prop} (hq : q.Within W) (hp : p.Within W) : (q.over p).Within W := by
  intro x hx
  unfold Patch.over
  rw [hq x hx, hp x hx]
  rfl

end Patches

/-! ## Loops of constant stores -/

section Loops

variable {ε σ ι α : Type}

/-- The patch of a loop whose iterations store `E 0`, `E 1`, …, and where it ends. -/
def patchLoop (E : Nat → Guarded ε (Patch ι α)) (n : Nat) : Ending ε (Patch ι α) :=
  forEnding (fun i p => onValue (E i) p fun q => some (none, q.over p)) n Patch.empty

/-- What a patch makes of a memory, with the code. -/
def leave (put : (ι → α) → σ) (m : ι → α) (out : Ending ε (Patch ι α)) : Ending ε σ :=
  out.map fun r => (r.1, put (patch r.2 m))

variable {E : Nat → Guarded ε (Patch ι α)} {W : ι → Prop} {f : Nat → σ → Ending ε σ} {put : (ι → α) → σ} {m₀ m : ι → α}
  {n : Nat}

theorem patchLoop_within (hE : ∀ i < n, ∀ q, Returns (E i) q → q.Within W) {r : Option ε × Patch ι α}
    (h : patchLoop E n = some r) : r.2.Within W := by
  induction n generalizing r with
  | zero =>
    cases h
    exact fun _ _ => rfl
  | succ n ih =>
    unfold patchLoop at h
    rw [forEnding] at h
    have ihn := @ih fun i hi => hE i (by omega)
    unfold patchLoop at ihn
    rcases hn : forEnding (fun i p => onValue (E i) p fun q => some (none, q.over p)) n Patch.empty with _ | ⟨_ | e, p⟩
    · rw [hn] at h
      cases h
    · have hp := ihn hn
      rw [hn, andThen] at h
      rcases cases_eq (E n) with hx | ⟨e, hx⟩ | ⟨q, hx⟩
      · rw [hx] at h
        cases h
      · rw [hx] at h
        cases h
        exact hp
      · rw [hx] at h
        cases h
        exact (hE n (by omega) q hx).over hp
    · have hp := ihn hn
      rw [hn] at h
      cases h
      exact hp

/-- A loop of constant stores is one patch: iteration `i` stores `E i` in every memory that is as `m₀` outside of `W`. -/
theorem forEnding_eq_patchLoop (hE : ∀ i < n, ∀ q, Returns (E i) q → q.Within W)
    (hf : ∀ i < n, ∀ m, (∀ x, ¬ W x → m x = m₀ x) →
      f i (put m) = onValue (E i) (put m) fun q => some (none, put (patch q m)))
    (hm : ∀ x, ¬ W x → m x = m₀ x) : forEnding f n (put m) = leave put m (patchLoop E n) := by
  induction n with
  | zero => rfl
  | succ n ih =>
    have hEn : ∀ i < n, ∀ q, Returns (E i) q → q.Within W := fun i hi => hE i (by omega)
    have hwithin := @patchLoop_within _ _ _ E W n hEn
    rw [forEnding, ih hEn fun i hi => hf i (by omega)]
    unfold patchLoop at hwithin ⊢
    rw [forEnding]
    rcases hout : forEnding (fun i p => onValue (E i) p fun q => some (none, q.over p)) n Patch.empty with _ | ⟨_ | e, p⟩
    · rfl
    · have hpW : p.Within W := hwithin hout
      have hp : ∀ x, ¬ W x → patch p m x = m₀ x := fun x hx => (patch_of_not hpW hx).trans (hm x hx)
      show f n (put (patch p m)) = leave put m (onValue (E n) p fun q => some (none, q.over p))
      rw [hf n (by omega) _ hp]
      rcases cases_eq (E n) with hx | ⟨e, hx⟩ | ⟨q, hx⟩
      · rw [hx]
        rfl
      · rw [hx]
        rfl
      · rw [hx]
        show some (none, put (patch q (patch p m))) = some (none, put (patch (q.over p) m))
        rw [patch_patch]
    · rfl

/-- What follows a patch changes nothing if it is the same patch again. -/
theorem andThen_leave {g : σ → Ending ε σ} {out : Ending ε (Patch ι α)}
    (hg : ∀ p, out = some (none, p) → g (put (patch p m)) = some (none, put (patch p m))) :
    andThen (leave put m out) g = leave put m out := by
  rcases out with _ | ⟨_ | e, p⟩
  · rfl
  · exact hg p rfl
  · rfl

theorem leave_patch {out : Ending ε (Patch ι α)} {p : Patch ι α} (h : out = some (none, p)) :
    leave put (patch p m) out = some (none, put (patch p m)) := by
  rw [h]
  show some (none, put (patch p (patch p m))) = _
  rw [patch_self]

theorem patchLoop_congr {E' : Nat → Guarded ε (Patch ι α)} (h : ∀ i < n, E i = E' i) : patchLoop E n = patchLoop E' n := by
  induction n with
  | zero => rfl
  | succ n ih =>
    have ihn := ih fun i hi => h i (by omega)
    unfold patchLoop at ihn ⊢
    rw [forEnding, forEnding, ihn, h n (by omega)]

/-- Running it a second time gives the same code and changes nothing. -/
theorem forEnding_twice (hE : ∀ i < n, ∀ q, Returns (E i) q → q.Within W)
    (hf : ∀ i < n, ∀ m, (∀ x, ¬ W x → m x = m₀ x) →
      f i (put m) = onValue (E i) (put m) fun q => some (none, put (patch q m)))
    (hm : ∀ x, ¬ W x → m x = m₀ x) {r : Option ε} {s : σ} (h : forEnding f n (put m) = some (r, s)) :
    forEnding f n s = some (r, s) := by
  have hfirst := forEnding_eq_patchLoop hE hf hm
  rcases hout : patchLoop E n with _ | ⟨r', p⟩
  · rw [hfirst, hout] at h
    cases h
  · have hp := patchLoop_within hE hout
    rw [hfirst, hout] at h
    obtain ⟨rfl, rfl⟩ : r' = r ∧ put (patch p m) = s := by
      simpa [leave] using h
    rw [forEnding_eq_patchLoop hE hf fun x hx => (patch_of_not hp hx).trans (hm x hx), hout]
    show some (r', put (patch p (patch p m))) = _
    rw [patch_self]

end Loops

end AmqOs.Lib
