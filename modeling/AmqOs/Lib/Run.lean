import Mathlib

/-!
# Runs of a step function

A step takes a state and an input to an answer and a new state, or faults. `runFrom step s is` performs the inputs
in order and collects the answers; `Along step C s is` says that every step of that run meets the condition `C` in
the state it starts from (`Along.snoc` singles out the last step); it can be evaluated when `C` can.

- The run rule (`runFrom_inv`): when a step that meets `C` never faults and keeps `Inv`, so does a run whose steps all
  meet `C`; and the rule for steps that may fault (`runFrom_keeps`).
- The rule for two runs (`runFrom_agree`): when related states give the same answer and related states, or the same
  fault, two runs over the same inputs give the same answers.
- `Traces R a is rs b`: a transition relation allows the answers `rs` to the inputs `is`; the rule for a refinement
  (`runFrom_refines`): when every step is allowed as seen through an abstraction, so is every run.
-/

set_option autoImplicit false

namespace AmqOs.Lib

section Binds

variable {α β ε : Type}

@[simp] theorem ok_bind (a : α) (f : α → Except ε β) : (Except.ok a >>= f) = f a := rfl

@[simp] theorem error_bind (e : ε) (f : α → Except ε β) : ((Except.error e : Except ε α) >>= f) = .error e := rfl

/-- A sequence succeeds when its parts do. -/
theorem bind_eq_ok {x : Except ε α} {f : α → Except ε β} {b : β} :
    x >>= f = .ok b ↔ ∃ a, x = .ok a ∧ f a = .ok b := by
  cases x <;> simp

/-- What a projection of the result shows of it. -/
theorem exists_ok_of_map {x : Except ε α} {f : α → β} {b : β} (h : x.toOption.map f = some b) :
    ∃ a, x = .ok a ∧ f a = b := by
  cases x with
  | error e => cases h
  | ok a => exact ⟨a, rfl, Option.some.inj h⟩

end Binds

variable {σ ι ρ ε : Type} (step : σ → ι → Except ε (ρ × σ))

/-- All the inputs in order, with the answers. -/
def runFrom : σ → List ι → Except ε (List ρ × σ)
  | s, [] => .ok ([], s)
  | s, i :: is =>
    match step s i with
    | .error e => .error e
    | .ok (r, s') =>
      match runFrom s' is with
      | .error e => .error e
      | .ok (rs, s'') => .ok (r :: rs, s'')

/-- Every step of the run meets `C` in the state it starts from. -/
def Along (C : σ → ι → Prop) : σ → List ι → Prop
  | _, [] => True
  | s, i :: is => C s i ∧ ∀ r s', step s i = .ok (r, s') → Along C s' is

variable {step}

theorem runFrom_nil {s : σ} : runFrom step s [] = .ok ([], s) := rfl

theorem runFrom_cons {s s' s'' : σ} {i : ι} {is : List ι} {r : ρ} {rs : List ρ} (h : step s i = .ok (r, s'))
    (hr : runFrom step s' is = .ok (rs, s'')) : runFrom step s (i :: is) = .ok (r :: rs, s'') := by
  simp [runFrom, h, hr]

/-- The first step of a run that returned, and the rest. -/
theorem exists_of_runFrom_cons {s s'' : σ} {i : ι} {is : List ι} {out : List ρ}
    (h : runFrom step s (i :: is) = .ok (out, s'')) :
    ∃ r s' rs, step s i = .ok (r, s') ∧ runFrom step s' is = .ok (rs, s'') ∧ out = r :: rs := by
  cases hi : step s i with
  | error e => simp [runFrom, hi] at h
  | ok first =>
    obtain ⟨r, s'⟩ := first
    cases htail : runFrom step s' is with
    | error e => simp [runFrom, hi, htail] at h
    | ok rest =>
      simp only [runFrom, hi, htail, Except.ok.injEq, Prod.mk.injEq] at h
      obtain ⟨rfl, rfl⟩ := h
      exact ⟨r, s', rest.1, rfl, htail, rfl⟩

/-- Two runs, one after the other. -/
theorem runFrom_append {s s' s'' : σ} {is js : List ι} {rs rs' : List ρ} (h : runFrom step s is = .ok (rs, s'))
    (h' : runFrom step s' js = .ok (rs', s'')) : runFrom step s (is ++ js) = .ok (rs ++ rs', s'') := by
  induction is generalizing s rs with
  | nil =>
    obtain ⟨rfl, rfl⟩ := Prod.mk.inj (Except.ok.inj h)
    exact h'
  | cons i is ih =>
    obtain ⟨r, s₁, rs₁, hi, hrest, rfl⟩ := exists_of_runFrom_cons h
    exact runFrom_cons hi (ih hrest)

/-- **The run rule.** -/
theorem runFrom_inv {C : σ → ι → Prop} (Inv : σ → Prop)
    (hstep : ∀ s i, Inv s → C s i → ∃ r s', step s i = .ok (r, s') ∧ Inv s') {s : σ} {is : List ι} (hs : Inv s)
    (hC : Along step C s is) : ∃ rs s', runFrom step s is = .ok (rs, s') ∧ Inv s' := by
  induction is generalizing s with
  | nil => exact ⟨[], s, rfl, hs⟩
  | cons i is ih =>
    obtain ⟨hc, hrest⟩ := hC
    obtain ⟨r, s', hr, hs'⟩ := hstep s i hs hc
    obtain ⟨rs, s'', hrs, hs''⟩ := ih hs' (hrest r s' hr)
    exact ⟨r :: rs, s'', runFrom_cons hr hrs, hs''⟩

/-- **The rule for runs that may fault.** -/
theorem runFrom_keeps {C : σ → ι → Prop} (Inv : σ → Prop)
    (hstep : ∀ s i r s', Inv s → C s i → step s i = .ok (r, s') → Inv s') {s s' : σ} {is : List ι} {rs : List ρ}
    (hs : Inv s) (hC : Along step C s is) (hrun : runFrom step s is = .ok (rs, s')) : Inv s' := by
  induction is generalizing s rs with
  | nil =>
    obtain ⟨-, rfl⟩ := Prod.mk.inj (Except.ok.inj hrun)
    exact hs
  | cons i is ih =>
    obtain ⟨r, s₁, rs', hi, htail, -⟩ := exists_of_runFrom_cons hrun
    exact ih (hstep s i r s₁ hs hC.1 hi) (hC.2 r s₁ hi) htail

/-- **The rule for two runs.** -/
theorem runFrom_agree {C : ι → Prop} (R : σ → σ → Prop)
    (hstep : ∀ s t i, R s t → C i → (∃ e, step s i = .error e ∧ step t i = .error e) ∨
      ∃ r s' t', step s i = .ok (r, s') ∧ step t i = .ok (r, t') ∧ R s' t') {s t : σ} {is : List ι} (hst : R s t)
    (hC : ∀ i ∈ is, C i) : (runFrom step s is).map Prod.fst = (runFrom step t is).map Prod.fst := by
  induction is generalizing s t with
  | nil => rfl
  | cons i is ih =>
    rcases hstep s t i hst (hC i List.mem_cons_self) with ⟨e, h1, h2⟩ | ⟨r, s', t', h1, h2, hst'⟩
    · simp [runFrom, h1, h2]
    · have hrest := ih hst' fun j hj => hC j (List.mem_cons_of_mem _ hj)
      simp only [runFrom, h1, h2]
      cases hs : runFrom step s' is <;> cases ht : runFrom step t' is <;> simp_all [Except.map]

/-- The condition on a run is one on its start and one on its last step. -/
theorem Along.snoc {C : σ → ι → Prop} {s : σ} {is : List ι} {i : ι} (h : Along step C s (is ++ [i])) :
    Along step C s is ∧ ∀ rs s', runFrom step s is = .ok (rs, s') → C s' i := by
  induction is generalizing s with
  | nil =>
    refine ⟨trivial, fun rs s' hr => ?_⟩
    cases hr
    exact h.1
  | cons j is ih =>
    refine ⟨⟨h.1, fun r s' hr => (ih (h.2 r s' hr)).1⟩, fun rs s'' hrun => ?_⟩
    obtain ⟨r, s', rs', hj, htail, -⟩ := exists_of_runFrom_cons hrun
    exact (ih (h.2 r s' hj)).2 rs' s'' htail

theorem Along.imp {C D : σ → ι → Prop} (hCD : ∀ s i, C s i → D s i) {s : σ} {is : List ι} (h : Along step C s is) :
    Along step D s is := by
  induction is generalizing s with
  | nil => trivial
  | cons i is ih => exact ⟨hCD s i h.1, fun r s' hr => ih (h.2 r s' hr)⟩

theorem Along.and {C D : σ → ι → Prop} {s : σ} {is : List ι} (hC : Along step C s is) (hD : Along step D s is) :
    Along step (fun s i => C s i ∧ D s i) s is := by
  induction is generalizing s with
  | nil => trivial
  | cons i is ih => exact ⟨⟨hC.1, hD.1⟩, fun r s' hr => ih (hC.2 r s' hr) (hD.2 r s' hr)⟩

/-- Conditions that agree where an invariant holds, which the steps that meet one of them keep. -/
theorem along_congr_of {C D : σ → ι → Prop} (Inv : σ → Prop)
    (hstep : ∀ s i r s', Inv s → C s i → step s i = .ok (r, s') → Inv s') (hCD : ∀ s i, Inv s → (C s i ↔ D s i)) {s : σ}
    (hs : Inv s) (is : List ι) : Along step C s is ↔ Along step D s is := by
  induction is generalizing s with
  | nil => exact Iff.rfl
  | cons i is ih =>
    constructor
    · rintro ⟨hC, hrest⟩
      exact ⟨(hCD s i hs).mp hC, fun r s' h => (ih (hstep s i r s' hs hC h)).mp (hrest r s' h)⟩
    · rintro ⟨hD, hrest⟩
      have hC := (hCD s i hs).mpr hD
      exact ⟨hC, fun r s' h => (ih (hstep s i r s' hs hC h)).mpr (hrest r s' h)⟩

/-- Conditions that agree where an invariant of the steps holds. -/
theorem along_congr {C D : σ → ι → Prop} (Inv : σ → Prop) (hstep : ∀ s i r s', Inv s → step s i = .ok (r, s') → Inv s')
    (hCD : ∀ s i, Inv s → (C s i ↔ D s i)) {s : σ} (hs : Inv s) (is : List ι) :
    Along step C s is ↔ Along step D s is :=
  along_congr_of Inv (fun s i r s' h _ => hstep s i r s' h) hCD hs is

theorem along_cons_ok {C : σ → ι → Prop} {s s' : σ} {i : ι} {is : List ι} {r : ρ} (h : step s i = .ok (r, s')) :
    C s i ∧ Along step C s' is ↔ Along step C s (i :: is) := by
  constructor
  · rintro ⟨hc, hrest⟩
    refine ⟨hc, fun r' t ht => ?_⟩
    cases h.symm.trans ht
    exact hrest
  · exact fun hal => ⟨hal.1, hal.2 r s' h⟩

theorem along_cons_error {C : σ → ι → Prop} {s : σ} {i : ι} {is : List ι} {e : ε} (h : step s i = .error e) :
    C s i ↔ Along step C s (i :: is) := by
  constructor
  · intro hc
    refine ⟨hc, fun r' t ht => ?_⟩
    cases h.symm.trans ht
  · exact fun hal => hal.1

instance alongDecidable {C : σ → ι → Prop} [hC : ∀ s i, Decidable (C s i)] :
    ∀ s is, Decidable (Along step C s is)
  | _, [] => .isTrue trivial
  | s, i :: is =>
    match h : step s i with
    | .error _ => @decidable_of_iff _ _ (along_cons_error h) (hC s i)
    | .ok (_, s') =>
      @decidable_of_iff _ _ (along_cons_ok h) (@instDecidableAnd _ _ (hC s i) (alongDecidable s' is))

variable (step) in
/-- A condition that always holds holds along every run. -/
theorem along_of_forall {C : σ → ι → Prop} (h : ∀ s i, C s i) (s : σ) (is : List ι) : Along step C s is := by
  induction is generalizing s with
  | nil => trivial
  | cons i is ih => exact ⟨h s i, fun _ s' _ => ih s'⟩

/-! ## Refinement -/

/-- The transition relation leads from one state to another over the inputs and answers. -/
inductive Traces {α : Type} (R : α → ι → ρ → α → Prop) : α → List ι → List ρ → α → Prop
  | nil (a : α) : Traces R a [] [] a
  | cons {a b c : α} {i : ι} {r : ρ} {is : List ι} {rs : List ρ} (head : R a i r b) (tail : Traces R b is rs c) :
      Traces R a (i :: is) (r :: rs) c

/-- **The rule for a refinement.** -/
theorem runFrom_refines {α : Type} {R : α → ι → ρ → α → Prop} (view : σ → α) (Inv : σ → Prop)
    (hstep : ∀ s i, Inv s → ∃ r s', step s i = .ok (r, s') ∧ Inv s' ∧ R (view s) i r (view s')) {s : σ} (hs : Inv s)
    (is : List ι) : ∃ rs s', runFrom step s is = .ok (rs, s') ∧ Inv s' ∧ Traces R (view s) is rs (view s') := by
  induction is generalizing s with
  | nil => exact ⟨[], s, rfl, hs, .nil _⟩
  | cons i is ih =>
    obtain ⟨r, s', hr, hs', hR⟩ := hstep s i hs
    obtain ⟨rs, s'', hrs, hs'', htrace⟩ := ih hs'
    exact ⟨r :: rs, s'', runFrom_cons hr hrs, hs'', .cons hR htrace⟩

end AmqOs.Lib
