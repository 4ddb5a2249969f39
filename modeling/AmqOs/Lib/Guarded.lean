import Mathlib

/-!
# Computations that may go wrong

`Guarded ε α` is the outcome of a computation that returns a value, ends early with a code of type `ε`, or goes wrong
(an access outside of the memory it was given, a loop that does not end). `Safe x` says that `x` does not go wrong and
`Returns x a` that it returns `a`. A sequence is safe if its first part is and what follows is for the value returned
(`safe_bind`); a loop is safe if every iteration is, in the state before it (`safe_forLoop`). A loop may read its bound again
before every iteration (`forBelow`); while that does not change, it is the loop up to the bound (`forBelow_eq`). `Goes x Q`
says that `x` does not end early, and then `Q` holds of its value. `Decides x Q G R` says when `x` goes wrong (unless `Q`),
when it ends early (unless `G`), and that `R` holds of its value, with a rule for each way to build a computation. `final x`
is the state that `x` leaves, early or not.
-/

set_option autoImplicit false

namespace AmqOs.Lib

/-- A value, an early end with a code, or nothing. -/
abbrev Guarded (ε α : Type) := ExceptT ε Option α

namespace Guarded

variable {ε α β σ : Type}

def Returns (x : Guarded ε α) (a : α) : Prop := x = (some (.ok a) : Option (Except ε α))

def Safe (x : Guarded ε α) : Prop := x ≠ (none : Option (Except ε α))

/-- Goes wrong unless `p` holds. -/
def require (p : Prop) [Decidable p] (a : α) : Guarded ε α := if p then pure a else (none : Option (Except ε α))

theorem cases_eq (x : Guarded ε α) : x = (none : Option (Except ε α)) ∨ (∃ e, x = throw e) ∨ ∃ a, Returns x a := by
  rcases hx : (x : Option (Except ε α)) with _ | (e | a)
  · exact .inl rfl
  · exact .inr (.inl ⟨e, rfl⟩)
  · exact .inr (.inr ⟨a, rfl⟩)

@[simp] theorem returns_pure {a b : α} : Returns (pure a : Guarded ε α) b ↔ a = b := by
  constructor
  · intro h
    cases h
    rfl
  · rintro rfl
    rfl

@[simp] theorem safe_pure (a : α) : Safe (pure a : Guarded ε α) := by
  intro h
  cases h

@[simp] theorem safe_throw (e : ε) : Safe (throw e : Guarded ε α) := by
  intro h
  cases h

@[simp] theorem not_returns_throw {e : ε} {a : α} : ¬ Returns (throw e : Guarded ε α) a := by
  intro h
  cases h

/-- The value that is returned, if one is. -/
def value? (x : Guarded ε α) : Option α :=
  match (x : Option (Except ε α)) with
  | some (.ok a) => some a
  | _ => none

theorem returns_of_value? {x : Guarded ε α} {a : α} (h : value? x = some a) : Returns x a := by
  rcases cases_eq x with rfl | ⟨e, rfl⟩ | ⟨b, hb⟩
  · cases h
  · cases h
  · rw [hb] at h ⊢
    cases h
    rfl

theorem returns_bind {x : Guarded ε α} {f : α → Guarded ε β} {b : β} :
    Returns (x >>= f) b ↔ ∃ a, Returns x a ∧ Returns (f a) b := by
  rcases cases_eq x with rfl | ⟨e, rfl⟩ | ⟨a, rfl⟩
  · constructor
    · intro h
      cases h
    · rintro ⟨a, h, _⟩
      cases h
  · constructor
    · intro h
      cases h
    · rintro ⟨a, h, _⟩
      cases h
  · constructor
    · intro h
      exact ⟨a, rfl, h⟩
    · rintro ⟨a', h, h'⟩
      cases h
      exact h'

theorem Returns.bind {x : Guarded ε α} {f : α → Guarded ε β} {a : α} (h : Returns x a) : x >>= f = f a := by
  cases h
  rfl

theorem Returns.inj {x : Guarded ε α} {a b : α} (ha : Returns x a) (hb : Returns x b) : a = b := by
  rw [ha] at hb
  cases hb
  rfl

theorem Returns.safe {x : Guarded ε α} {a : α} (h : Returns x a) : Safe x := by
  cases h
  exact safe_pure a

/-- A sequence ends early in its first part, or in what follows. -/
theorem bind_eq_throw {x : Guarded ε α} {f : α → Guarded ε β} {e : ε} :
    x >>= f = throw e ↔ x = throw e ∨ ∃ a, Returns x a ∧ f a = throw e := by
  rcases cases_eq x with rfl | ⟨e', rfl⟩ | ⟨a, rfl⟩
  · constructor
    · intro h
      cases h
    · rintro (h | ⟨a, h, _⟩)
      · cases h
      · cases h
  · constructor
    · intro h
      cases h
      exact .inl rfl
    · rintro (h | ⟨a, h, _⟩)
      · cases h
        rfl
      · cases h
  · constructor
    · intro h
      exact .inr ⟨a, rfl, h⟩
    · rintro (h | ⟨a', h, h'⟩)
      · cases h
      · cases h
        exact h'

theorem pure_ne_throw {a : α} {e : ε} : (pure a : Guarded ε α) ≠ throw e := by
  intro h
  cases h

theorem throw_inj {e e' : ε} : (throw e : Guarded ε α) = throw e' ↔ e = e' := by
  constructor
  · intro h
    cases h
    rfl
  · rintro rfl
    rfl

/-- A sequence is safe if its parts are. -/
theorem safe_bind {x : Guarded ε α} {f : α → Guarded ε β} :
    Safe (x >>= f) ↔ Safe x ∧ ∀ a, Returns x a → Safe (f a) := by
  rcases cases_eq x with rfl | ⟨e, rfl⟩ | ⟨a, rfl⟩
  · constructor
    · intro h
      exact absurd rfl h
    · rintro ⟨h, _⟩
      exact absurd rfl h
  · constructor
    · intro _
      refine ⟨safe_throw e, ?_⟩
      intro a h
      cases h
    · intro _ h
      cases h
  · constructor
    · intro h
      refine ⟨safe_pure a, ?_⟩
      intro a' ha
      cases ha
      exact h
    · rintro ⟨_, h⟩
      exact h a rfl

theorem safe_ite {p : Prop} [Decidable p] {x y : Guarded ε α} :
    Safe (if p then x else y) ↔ (p → Safe x) ∧ (¬ p → Safe y) := by
  split <;> simp_all

@[simp] theorem safe_require {p : Prop} [Decidable p] {a : α} : Safe (require p a : Guarded ε α) ↔ p := by
  unfold require
  split
  · simp_all
  · simp_all [Safe]

@[simp] theorem returns_require {p : Prop} [Decidable p] {a b : α} :
    Returns (require p a : Guarded ε α) b ↔ p ∧ a = b := by
  unfold require
  split
  · simp_all
  · simp_all [Returns]

theorem require_ne_throw {p : Prop} [Decidable p] {a : α} {e : ε} : (require p a : Guarded ε α) ≠ throw e := by
  unfold require
  split
  · exact pure_ne_throw
  · intro h
    cases h

/-- Unless it goes wrong, the computation returns a value that satisfies `Q`. -/
def Goes (x : Guarded ε α) (Q : α → Prop) : Prop := Safe x → ∃ a, Returns x a ∧ Q a

theorem goes_pure {a : α} {Q : α → Prop} (h : Q a) : Goes (pure a : Guarded ε α) Q := fun _ => ⟨a, rfl, h⟩

theorem goes_require {p : Prop} [Decidable p] {a : α} : Goes (require p a : Guarded ε α) fun _ => True := by
  intro h
  exact ⟨a, returns_require.mpr ⟨safe_require.mp h, rfl⟩, trivial⟩

theorem Goes.of_returns {x : Guarded ε α} {a : α} {Q : α → Prop} (h : Goes x Q) (ha : Returns x a) : Q a := by
  obtain ⟨a', ha', hQ⟩ := h ha.safe
  rw [ha] at ha'
  cases ha'
  exact hQ

theorem Goes.ne_throw {x : Guarded ε α} {Q : α → Prop} (h : Goes x Q) {e : ε} : x ≠ throw e := by
  rintro rfl
  obtain ⟨a, ha, _⟩ := h (safe_throw e)
  exact not_returns_throw ha

theorem Goes.mono {x : Guarded ε α} {P Q : α → Prop} (h : Goes x P) (hpq : ∀ a, P a → Q a) : Goes x Q := by
  intro hsafe
  obtain ⟨a, ha, hP⟩ := h hsafe
  exact ⟨a, ha, hpq a hP⟩

theorem goes_bind {x : Guarded ε α} {f : α → Guarded ε β} {P : α → Prop} {Q : β → Prop} (hx : Goes x P)
    (hf : ∀ a, P a → Goes (f a) Q) : Goes (x >>= f) Q := by
  intro h
  obtain ⟨hsafe, hrest⟩ := safe_bind.mp h
  obtain ⟨a, ha, hP⟩ := hx hsafe
  obtain ⟨b, hb, hQ⟩ := hf a hP (hrest a ha)
  exact ⟨b, returns_bind.mpr ⟨a, ha, hb⟩, hQ⟩

theorem goes_ite {p : Prop} [Decidable p] {x y : Guarded ε α} {Q : α → Prop} (hx : Goes x Q) (hy : Goes y Q) :
    Goes (if p then x else y) Q := by
  split
  · exact hx
  · exact hy

/-- The same case split in the computation and in what it leaves. -/
theorem goes_ite_both {p : Prop} [Decidable p] {x y : Guarded ε α} {a b : β} {R : β → α → Prop} (hx : p → Goes x (R a))
    (hy : ¬ p → Goes y (R b)) : Goes (if p then x else y) (R (if p then a else b)) := by
  split
  · rename_i h
    exact hx h
  · rename_i h
    exact hy h

/-! ## The codes of early ends -/

/-- If `x` ends early, `E` holds of the code. -/
def Fails (x : Guarded ε α) (E : ε → Prop) : Prop := ∀ e, x = throw e → E e

theorem fails_pure {a : α} {E : ε → Prop} : Fails (pure a : Guarded ε α) E := fun _ he => absurd he pure_ne_throw

theorem Goes.fails {x : Guarded ε α} {Q : α → Prop} {E : ε → Prop} (h : Goes x Q) : Fails x E :=
  fun _ he => absurd he h.ne_throw

theorem fails_bind {x : Guarded ε α} {f : α → Guarded ε β} {E : ε → Prop} (hx : Fails x E) (hf : ∀ a, Fails (f a) E) :
    Fails (x >>= f) E := by
  intro e he
  rcases bind_eq_throw.mp he with hx' | ⟨a, _, ha⟩
  · exact hx e hx'
  · exact hf a e ha

theorem fails_ite {p : Prop} [Decidable p] {x y : Guarded ε α} {E : ε → Prop} (hx : Fails x E) (hy : Fails y E) :
    Fails (if p then x else y) E := by
  split
  · exact hx
  · exact hy

/-! ## What decides an outcome -/

/-- `x` goes wrong unless `Q`; then it returns a value that satisfies `R` if `G` holds, and ends early if not. -/
structure Decides (x : Guarded ε α) (Q G : Prop) (R : α → Prop) : Prop where
  safe_iff : Safe x ↔ Q
  returned : Q → G → ∃ a, Returns x a ∧ R a
  early : Q → ¬ G → ∃ e, x = throw e

section Decides

variable {x y : Guarded ε α} {Q G Q' G' : Prop} {P R : α → Prop}

theorem Goes.decides (h : Goes x R) (hsafe : Safe x ↔ Q) : Decides x Q True R where
  safe_iff := hsafe
  returned := fun hQ _ => h (hsafe.mpr hQ)
  early := fun _ hG => absurd trivial hG

theorem Decides.of_returns {a : α} (h : Decides x Q G R) (ha : Returns x a) : Q ∧ G ∧ R a := by
  have hQ := h.safe_iff.mp ha.safe
  have hG : G := by
    by_contra hG
    obtain ⟨e, he⟩ := h.early hQ hG
    rw [he] at ha
    exact not_returns_throw ha
  obtain ⟨a', ha', hR⟩ := h.returned hQ hG
  exact ⟨hQ, hG, ha.inj ha' ▸ hR⟩

theorem Decides.of_throw {e : ε} (h : Decides x Q G R) (he : x = throw e) : ¬ G := by
  intro hG
  have hsafe : Safe x := he ▸ safe_throw e
  obtain ⟨a, ha, _⟩ := h.returned (h.safe_iff.mp hsafe) hG
  rw [he] at ha
  exact not_returns_throw ha

theorem Decides.returned_iff (h : Decides x Q G R) (hQ : Q) : (∃ a, Returns x a) ↔ G := by
  constructor
  · rintro ⟨a, ha⟩
    exact (h.of_returns ha).2.1
  · intro hG
    obtain ⟨a, ha, _⟩ := h.returned hQ hG
    exact ⟨a, ha⟩

theorem Decides.goes (h : Decides x Q True R) : Goes x R := fun hsafe => h.returned (h.safe_iff.mp hsafe) trivial

theorem Decides.congr (h : Decides x Q G P) (hQ : Q ↔ Q') (hG : Q' → (G ↔ G')) (hR : ∀ a, P a → R a) :
    Decides x Q' G' R where
  safe_iff := h.safe_iff.trans hQ
  returned := by
    intro hQ' hG'
    obtain ⟨a, ha, hP⟩ := h.returned (hQ.mpr hQ') ((hG hQ').mpr hG')
    exact ⟨a, ha, hR a hP⟩
  early := fun hQ' hG' => h.early (hQ.mpr hQ') fun hG'' => hG' ((hG hQ').mp hG'')

/-- What holds of the value may rely on what it takes to get it. -/
theorem Decides.imp (h : Decides x Q G P) (hR : Q → G → ∀ a, P a → R a) : Decides x Q G R where
  safe_iff := h.safe_iff
  returned := by
    intro hQ hG
    obtain ⟨a, ha, hP⟩ := h.returned hQ hG
    exact ⟨a, ha, hR hQ hG a hP⟩
  early := h.early

theorem decides_pure {a : α} (h : R a) : Decides (pure a : Guarded ε α) True True R :=
  (goes_pure h).decides (iff_true_intro (safe_pure a))

theorem decides_throw {e : ε} : Decides (throw e : Guarded ε α) True False R where
  safe_iff := iff_true_intro (safe_throw e)
  returned := fun _ h => h.elim
  early := fun _ _ => ⟨e, rfl⟩

theorem Decides.safe_bind {f : α → Guarded ε β} (hx : Decides x Q G P) (hf : Q → G → ∀ a, P a → (Safe (f a) ↔ Q')) :
    Safe (x >>= f) ↔ Q ∧ (G → Q') := by
  rw [Guarded.safe_bind, hx.safe_iff]
  refine and_congr_right fun hQ => ⟨fun h hG => ?_, fun h a ha => ?_⟩
  · obtain ⟨a, ha, hP⟩ := hx.returned hQ hG
    exact (hf hQ hG a hP).mp (h a ha)
  · obtain ⟨_, hG, hP⟩ := hx.of_returns ha
    exact (hf hQ hG a hP).mpr (h hG)

/-- What follows may rely on what it takes to get there. -/
theorem decides_bind {f : α → Guarded ε β} {R : β → Prop} (hx : Decides x Q G P)
    (hf : Q → G → ∀ a, P a → Decides (f a) Q' G' R) : Decides (x >>= f) (Q ∧ (G → Q')) (G ∧ G') R where
  safe_iff := hx.safe_bind fun hQ hG a hP => (hf hQ hG a hP).safe_iff
  returned := by
    rintro ⟨hQ, hQ'⟩ ⟨hG, hG'⟩
    obtain ⟨a, ha, hP⟩ := hx.returned hQ hG
    rw [ha.bind]
    exact (hf hQ hG a hP).returned (hQ' hG) hG'
  early := by
    rintro ⟨hQ, hQ'⟩ hnot
    by_cases hG : G
    · obtain ⟨a, ha, hP⟩ := hx.returned hQ hG
      rw [ha.bind]
      exact (hf hQ hG a hP).early (hQ' hG) fun hG' => hnot ⟨hG, hG'⟩
    · obtain ⟨e, he⟩ := hx.early hQ hG
      exact ⟨e, bind_eq_throw.mpr (.inl he)⟩

theorem decides_ite {p : Prop} [Decidable p] (hx : p → Decides x Q G R) (hy : ¬ p → Decides y Q' G' R) :
    Decides (if p then x else y) ((p → Q) ∧ (¬ p → Q')) ((p → G) ∧ (¬ p → G')) R := by
  by_cases hp : p
  · rw [if_pos hp]
    exact (hx hp).congr (by simp [hp]) (fun _ => by simp [hp]) fun _ h => h
  · rw [if_neg hp]
    exact (hy hp).congr (by simp [hp]) (fun _ => by simp [hp]) fun _ h => h

end Decides

/-! ## Early ends with a state -/

/-- What a computation leaves that returns a state, or ends early with one. -/
def final (x : Guarded α α) : Option α :=
  match (x : Option (Except α α)) with
  | none => none
  | some (.error a) => some a
  | some (.ok a) => some a

theorem Returns.final {x : Guarded α α} {a : α} (h : Returns x a) : final x = some a := by
  cases h
  rfl

@[simp] theorem final_throw (a : α) : final (throw a : Guarded α α) = some a := rfl

@[simp] theorem final_pure (a : α) : final (pure a : Guarded α α) = some a := rfl

theorem safe_iff_final {x : Guarded α α} : Safe x ↔ ∃ a, final x = some a := by
  rcases cases_eq x with rfl | ⟨a, rfl⟩ | ⟨a, h⟩
  · constructor
    · intro h
      exact absurd rfl h
    · rintro ⟨a, h⟩
      cases h
  · exact ⟨fun _ => ⟨a, rfl⟩, fun _ => safe_throw a⟩
  · exact ⟨fun _ => ⟨a, h.final⟩, fun _ => h.safe⟩

/-! ## Loops -/

/-- `f 0`, then `f 1`, …, then `f (n - 1)`. -/
def forLoop (f : Nat → σ → Guarded ε σ) : Nat → σ → Guarded ε σ
  | 0, s => pure s
  | n + 1, s => forLoop f n s >>= f n

/-- A loop is safe if every iteration is, in the state before it. -/
theorem safe_forLoop {f : Nat → σ → Guarded ε σ} {n : Nat} {s : σ} :
    Safe (forLoop f n s) ↔ ∀ i < n, ∀ t, Returns (forLoop f i s) t → Safe (f i t) := by
  induction n with
  | zero => simp [forLoop]
  | succ n ih =>
    rw [forLoop, safe_bind, ih]
    constructor
    · rintro ⟨hfirst, hlast⟩ i hi t ht
      rcases Nat.lt_succ_iff_lt_or_eq.mp hi with hlt | rfl
      · exact hfirst i hlt t ht
      · exact hlast t ht
    · intro h
      exact ⟨fun i hi => h i (by omega), fun t ht => h n (by omega) t ht⟩

/-- A loop ends early where an iteration does. -/
theorem forLoop_eq_throw {f : Nat → σ → Guarded ε σ} {n : Nat} {s : σ} {e : ε} :
    forLoop f n s = throw e ↔ ∃ i < n, ∃ t, Returns (forLoop f i s) t ∧ f i t = throw e := by
  induction n with
  | zero =>
    constructor
    · intro h
      exact absurd h pure_ne_throw
    · rintro ⟨i, hi, _⟩
      omega
  | succ n ih =>
    rw [forLoop, bind_eq_throw, ih]
    constructor
    · rintro (⟨i, hi, h⟩ | ⟨t, ht, h⟩)
      · exact ⟨i, by omega, h⟩
      · exact ⟨n, by omega, t, ht, h⟩
    · rintro ⟨i, hi, t, ht, h⟩
      rcases Nat.lt_succ_iff_lt_or_eq.mp hi with hlt | rfl
      · exact .inl ⟨i, hlt, t, ht, h⟩
      · exact .inr ⟨t, ht, h⟩

theorem fails_forLoop {f : Nat → σ → Guarded ε σ} {n : Nat} {s : σ} {E : ε → Prop} (h : ∀ i s, Fails (f i s) E) :
    Fails (forLoop f n s) E := by
  intro e he
  obtain ⟨i, _, t, _, ht⟩ := forLoop_eq_throw.mp he
  exact h i t e ht

/-- The iterations of a loop that returns. -/
theorem returns_forLoop_lt {f : Nat → σ → Guarded ε σ} {n i : Nat} {s t u : σ} (h : Returns (forLoop f n s) u) (hi : i < n)
    (ht : Returns (forLoop f i s) t) : ∃ t', Returns (f i t) t' := by
  induction n generalizing u with
  | zero => omega
  | succ n ih =>
    rw [forLoop, returns_bind] at h
    obtain ⟨t', ht', hlast⟩ := h
    rcases Nat.lt_succ_iff_lt_or_eq.mp hi with hlt | rfl
    · exact ih ht' hlt
    · exact ⟨u, ht.inj ht' ▸ hlast⟩

/-- Iterations that do nothing may be left out at the end. -/
theorem Returns.forLoop_idle {f : Nat → σ → Guarded ε σ} {k n : Nat} {s t : σ} (h : Returns (forLoop f k s) t) (hkn : k ≤ n)
    (hidle : ∀ i, k ≤ i → f i t = pure t) : Returns (forLoop f n s) t := by
  induction n, hkn using Nat.le_induction with
  | base => exact h
  | succ n hn ih =>
    rw [forLoop, ih.bind, hidle n hn]
    rfl

/-- The invariant rule: `P i` holds before iteration `i`. -/
theorem forLoop_inv {f : Nat → σ → Guarded ε σ} {n : Nat} {s t : σ} (P : Nat → σ → Prop) (h0 : P 0 s)
    (hs : ∀ i t t', i < n → P i t → Returns (f i t) t' → P (i + 1) t') (ht : Returns (forLoop f n s) t) : P n t := by
  induction n generalizing t with
  | zero =>
    rw [forLoop, returns_pure] at ht
    exact ht ▸ h0
  | succ n ih =>
    rw [forLoop, returns_bind] at ht
    obtain ⟨u, hu, htail⟩ := ht
    exact hs n u t (by omega) (ih (fun i t t' hi => hs i t t' (by omega)) hu) htail

/-- A loop whose iterations are decided: iteration `i` takes place if those before it go on. -/
theorem decides_forLoop {f : Nat → σ → Guarded ε σ} {n : Nat} {s : σ} {Q G : Nat → Prop} (P : Nat → σ → Prop) (h0 : P 0 s)
    (hs : ∀ i < n, ∀ t, P i t → Decides (f i t) (Q i) (G i) (P (i + 1))) :
    Decides (forLoop f n s) (∀ i < n, (∀ j < i, G j) → Q i) (∀ i < n, G i) (P n) := by
  induction n with
  | zero => exact (decides_pure h0).congr (by simp) (fun _ => by simp) fun _ h => h
  | succ n ih =>
    refine (decides_bind (ih fun i hi => hs i (by omega)) fun _ _ t ht => hs n (by omega) t ht).congr ?_ (fun _ => ?_)
      fun _ h => h
    · constructor
      · rintro ⟨hbefore, hlast⟩ i hi hgo
        rcases Nat.lt_succ_iff_lt_or_eq.mp hi with hlt | rfl
        · exact hbefore i hlt hgo
        · exact hlast hgo
      · exact fun h => ⟨fun i hi => h i (by omega), fun hgo => h n (by omega) hgo⟩
    · constructor
      · rintro ⟨hbefore, hlast⟩ i hi
        rcases Nat.lt_succ_iff_lt_or_eq.mp hi with hlt | rfl
        · exact hbefore i hlt
        · exact hlast
      · exact fun h => ⟨fun i hi => h i (by omega), h n (by omega)⟩

/-! ## Loops that read their bound again -/

/-- `for (; i < n; i++)` with a bound `n` that is computed before each of at most `fuel` iterations. -/
def forBelow (bound : σ → Guarded ε Nat) (f : Nat → σ → Guarded ε σ) : Nat → Nat → σ → Guarded ε σ
  | 0, _, s => pure s
  | fuel + 1, i, s => do
    let n ← bound s
    if i < n then f i s >>= forBelow bound f fuel (i + 1) else pure s

variable {bound : σ → Guarded ε Nat} {f : Nat → σ → Guarded ε σ} {fuel n i : Nat} {s t : σ}

/-- The invariant rule: `P i` holds before iteration `i`, and the loop ends at its bound, or without fuel. -/
theorem forBelow_inv (P : Nat → σ → Prop) (h0 : P i s)
    (hs : ∀ i n t t', P i t → Returns (bound t) n → i < n → Returns (f i t) t' → P (i + 1) t')
    (h : Returns (forBelow bound f fuel i s) t) : ∃ j, P j t ∧ (j = i + fuel ∨ ∃ n, Returns (bound t) n ∧ n ≤ j) := by
  induction fuel generalizing i s with
  | zero =>
    rw [forBelow, returns_pure] at h
    exact ⟨i, h ▸ h0, .inl rfl⟩
  | succ fuel ih =>
    obtain ⟨n, hn, h⟩ := returns_bind.mp h
    split at h
    · rename_i hlt
      obtain ⟨u, hu, h⟩ := returns_bind.mp h
      obtain ⟨j, hj, hend⟩ := ih (hs i n s u h0 hn hlt hu) h
      exact ⟨j, hj, hend.imp_left fun he => by omega⟩
    · rename_i hge
      obtain rfl := returns_pure.mp h
      exact ⟨i, h0, .inr ⟨n, hn, Nat.not_lt.mp hge⟩⟩

/-- The rest of the loop up to a bound that does not change. -/
theorem forBelow_rest (P : Nat → σ → Prop) (hbound : ∀ i ≤ n, ∀ t, P i t → Returns (bound t) n)
    (hs : ∀ i < n, ∀ t t', P i t → Returns (f i t) t' → P (i + 1) t') (hi : i ≤ n) (hfuel : n ≤ i + fuel)
    (ht : Returns (forLoop f i s) t) (hP : P i t) : forBelow bound f fuel i t = forLoop f n s := by
  induction fuel generalizing i t with
  | zero =>
    obtain rfl : i = n := by omega
    exact ht.symm
  | succ fuel ih =>
    rw [forBelow, (hbound i hi t hP).bind]
    by_cases hlt : i < n
    · rw [if_pos hlt]
      rcases cases_eq (f i t) with hnone | ⟨e, he⟩ | ⟨t', ht'⟩
      · have hwrong : ¬ Safe (forLoop f n s) := fun hsafe => safe_forLoop.mp hsafe i hlt t ht hnone
        rw [hnone, not_not.mp hwrong]
        rfl
      · rw [he, forLoop_eq_throw.mpr ⟨i, hlt, t, ht, he⟩]
        rfl
      · rw [ht'.bind]
        exact ih (by omega) (by omega) (returns_bind.mpr ⟨t, ht, ht'⟩) (hs i hlt t t' hP ht')
    · obtain rfl : i = n := by omega
      rw [if_neg hlt]
      exact ht.symm

/-- While the bound does not change, this is the loop up to it. -/
theorem forBelow_eq (P : Nat → σ → Prop) (h0 : P 0 s) (hbound : ∀ i ≤ n, ∀ t, P i t → Returns (bound t) n)
    (hs : ∀ i < n, ∀ t t', P i t → Returns (f i t) t' → P (i + 1) t') (hfuel : n ≤ fuel) :
    forBelow bound f fuel 0 s = forLoop f n s :=
  forBelow_rest P hbound hs (Nat.zero_le n) (by omega) rfl h0

/-- A loop whose iterations are decided and leave the bound. -/
theorem decides_forBelow {Q G : Nat → Prop} (P : Nat → σ → Prop) (h0 : P 0 s)
    (hbound : ∀ i ≤ n, ∀ t, P i t → Returns (bound t) n)
    (hs : ∀ i < n, ∀ t, P i t → Decides (f i t) (Q i) (G i) (P (i + 1))) (hfuel : n ≤ fuel) :
    Decides (forBelow bound f fuel 0 s) (∀ i < n, (∀ j < i, G j) → Q i) (∀ i < n, G i) (P n) := by
  rw [forBelow_eq P h0 hbound (fun i hi t t' ht hret => ((hs i hi t ht).of_returns hret).2.2) hfuel]
  exact decides_forLoop P h0 hs

end Guarded

end AmqOs.Lib
