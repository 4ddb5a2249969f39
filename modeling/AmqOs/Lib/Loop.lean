import Mathlib

/-!
# Arrays and counted loops

- `setAt v i x`, and `entry v i` and `put v i x` for an index that is not known to be in bounds: the entries of an array;
- `firstFrom lo hi p`: the search loop `for (i = lo; i < hi; i++) if (p(i)) return i;`, with what its two outcomes
  mean (`firstFrom_eq_some`, `firstFrom_eq_none`), and the same over the entries of an array (`firstFin`);
- `forUpTo n f s`: the loop `for (i = 0; i < n; i++) s = f(i, s);`, with its invariant rule (`forUpTo_inv`), the rule for
  two loops side by side (`forUpTo_rel`), and what a loop leaves that treats one part of the state after the other
  (`forUpTo_parts`), and loops that undo each other (`forUpTo_undo`);
- `lastWord f l`: what the last item of `l` that says anything says, which is what a variable holds that every item with
  something to say overwrites (`getD_lastWord_cons`, `getD_lastWord_snoc`).
-/

set_option autoImplicit false

namespace AmqOs.Lib

/-! ## Array entries -/

section Arrays

variable {α : Type} {n : Nat}

theorem get_eq (v : Vector α n) (k : Fin n) : v.get k = v[k.val] := rfl

theorem get_set (v : Vector α n) {i : Nat} (h : i < n) (x : α) (k : Fin n) :
    (v.set i x h).get k = if i = k.val then x else v.get k :=
  Vector.getElem_set h k.isLt

/-- The statement `v[i] = x`. -/
def setAt (v : Vector α n) (i : Fin n) (x : α) : Vector α n := v.set i x

theorem get_setAt (v : Vector α n) (i : Fin n) (x : α) (k : Fin n) :
    (setAt v i x).get k = if i = k then x else v.get k := by
  simp only [setAt, get_set, Fin.ext_iff]

@[simp] theorem get_setAt_self (v : Vector α n) (i : Fin n) (x : α) : (setAt v i x).get i = x := by
  rw [get_setAt, if_pos rfl]

theorem get_setAt_of_ne (v : Vector α n) {i k : Fin n} (x : α) (h : k ≠ i) : (setAt v i x).get k = v.get k := by
  rw [get_setAt, if_neg (Ne.symm h)]

theorem getElem?_of_lt (v : Vector α n) {i : Nat} (h : i < n) : v[i]? = some (v.get ⟨i, h⟩) :=
  Vector.getElem?_eq_getElem h

theorem vec_ext {v w : Vector α n} (h : ∀ k : Fin n, v.get k = w.get k) : v = w :=
  Vector.ext fun i hi => h ⟨i, hi⟩

/-- Putting an element back. -/
theorem setAt_get_self (v : Vector α n) (i : Fin n) : setAt v i (v.get i) = v := vec_ext fun k => by
  rw [get_setAt]
  split
  · rename_i h
    rw [h]
  · rfl

theorem setAt_setAt (v : Vector α n) (i : Fin n) (x y : α) : setAt (setAt v i x) i y = setAt v i y := vec_ext fun k => by
  simp only [get_setAt]
  split <;> rfl

/-- `v[i]`, for an index that is not known to be in bounds. -/
def entry [Inhabited α] (v : Vector α n) (i : Nat) : α := v[i]?.getD default

/-- The statement `v[i] = x`, for an index that is not known to be in bounds. -/
def put (v : Vector α n) (i : Nat) (x : α) : Vector α n := v.setIfInBounds i x

theorem entry_put [Inhabited α] (v : Vector α n) (i : Nat) (x : α) {j : Nat} (h : j < n) :
    entry (put v i x) j = if i = j then x else entry v j := by
  unfold entry put
  rw [Vector.getElem?_setIfInBounds]
  split <;> simp [*]

theorem entry_ext [Inhabited α] {v w : Vector α n} (h : ∀ i < n, entry v i = entry w i) : v = w := by
  apply Vector.ext
  intro i hi
  simpa [entry, hi] using h i hi

end Arrays

/-! ## Search loops -/

/-- The first of the `n` indices `i, i + 1, …` that satisfies `p`. -/
def firstOf (p : Nat → Bool) : Nat → Nat → Option Nat
  | 0, _ => none
  | n + 1, i => if p i then some i else firstOf p n (i + 1)

/-- The first index of `[lo, hi)` that satisfies `p`. -/
def firstFrom (lo hi : Nat) (p : Nat → Bool) : Option Nat := firstOf p (hi - lo) lo

theorem firstOf_eq_some {p : Nat → Bool} {n i k : Nat} :
    firstOf p n i = some k ↔ i ≤ k ∧ k < i + n ∧ p k = true ∧ ∀ j, i ≤ j → j < k → p j = false := by
  induction n generalizing i with
  | zero =>
    simp only [firstOf, reduceCtorEq, false_iff]
    omega
  | succ n ih =>
    unfold firstOf
    split
    · rename_i hp
      constructor
      · intro h
        obtain rfl := Option.some.inj h
        exact ⟨le_refl _, by omega, hp, fun j _ _ => by omega⟩
      · rintro ⟨h1, _, _, h4⟩
        by_cases hik : i = k
        · rw [hik]
        · rw [h4 i (le_refl _) (by omega)] at hp
          cases hp
    · rename_i hp
      rw [ih]
      constructor
      · rintro ⟨h1, h2, h3, h4⟩
        refine ⟨by omega, by omega, h3, fun j hj hjk => ?_⟩
        by_cases hij : j = i
        · subst hij; simpa using hp
        · exact h4 j (by omega) hjk
      · rintro ⟨h1, h2, h3, h4⟩
        have hik : i ≠ k := by rintro rfl; exact hp h3
        exact ⟨by omega, by omega, h3, fun j hj hjk => h4 j (by omega) hjk⟩

theorem firstOf_eq_none {p : Nat → Bool} {n i : Nat} :
    firstOf p n i = none ↔ ∀ j, i ≤ j → j < i + n → p j = false := by
  induction n generalizing i with
  | zero =>
    simp only [firstOf, true_iff]
    intro j h1 h2
    omega
  | succ n ih =>
    unfold firstOf
    split
    · rename_i hp
      simp only [reduceCtorEq, false_iff]
      intro h
      rw [h i (le_refl _) (by omega)] at hp
      cases hp
    · rename_i hp
      rw [ih]
      constructor
      · intro h j h1 h2
        by_cases hij : j = i
        · subst hij; simpa using hp
        · exact h j (by omega) (by omega)
      · intro h j h1 h2
        exact h j (by omega) (by omega)

/-- The search returns `k` iff `k` satisfies `p` and nothing before it does. -/
theorem firstFrom_eq_some {lo hi k : Nat} {p : Nat → Bool} :
    firstFrom lo hi p = some k ↔ lo ≤ k ∧ k < hi ∧ p k = true ∧ ∀ j, lo ≤ j → j < k → p j = false := by
  unfold firstFrom
  rw [firstOf_eq_some]
  constructor
  · rintro ⟨h1, h2, h3⟩
    exact ⟨h1, by omega, h3⟩
  · rintro ⟨h1, h2, h3⟩
    exact ⟨h1, by omega, h3⟩

/-- The search fails iff nothing in the interval satisfies `p`. -/
theorem firstFrom_eq_none {lo hi : Nat} {p : Nat → Bool} :
    firstFrom lo hi p = none ↔ ∀ j, lo ≤ j → j < hi → p j = false := by
  unfold firstFrom
  rw [firstOf_eq_none]
  constructor
  · intro h j h1 h2
    exact h j h1 (by omega)
  · intro h j h1 h2
    exact h j h1 (by omega)

/-- The first index of an array of `n` entries, from `lo` on, that satisfies `p`. -/
def firstFin {n : Nat} (lo : Nat) (p : Fin n → Bool) : Option (Fin n) :=
  match firstFrom lo n (fun i => if h : i < n then p ⟨i, h⟩ else false) with
  | none => none
  | some i => if h : i < n then some ⟨i, h⟩ else none

theorem firstFin_eq_some {n lo : Nat} {p : Fin n → Bool} {k : Fin n} :
    firstFin lo p = some k ↔ lo ≤ k.val ∧ p k = true ∧ ∀ j : Fin n, lo ≤ j.val → j < k → p j = false := by
  unfold firstFin
  split
  · rename_i h
    rw [firstFrom_eq_none] at h
    simp only [reduceCtorEq, false_iff]
    rintro ⟨h1, h2, _⟩
    have h3 := h k h1 k.isLt
    simp [h2] at h3
  · rename_i i h
    obtain ⟨h1, h2, h3, h4⟩ := firstFrom_eq_some.mp h
    simp only [h2, dite_true] at h3 ⊢
    constructor
    · intro hk
      obtain rfl := Option.some.inj hk
      refine ⟨h1, h3, fun j hj hji => ?_⟩
      have h5 := h4 j.val hj hji
      simpa using h5
    · rintro ⟨h5, h6, h7⟩
      congr 1
      rcases lt_trichotomy i k.val with hlt | heq | hgt
      · rw [h7 ⟨i, h2⟩ h1 hlt] at h3
        cases h3
      · exact Fin.ext heq
      · have h8 := h4 k.val h5 hgt
        simp [h6] at h8

theorem firstFin_of_unique {n lo : Nat} {p : Fin n → Bool} {k : Fin n} (hlo : lo ≤ k.val) (hk : p k = true)
    (hu : ∀ j, p j = true → j = k) : firstFin lo p = some k := by
  refine firstFin_eq_some.mpr ⟨hlo, hk, fun j _ hj => ?_⟩
  by_contra hne
  exact absurd (hu j (by simpa using hne)) (ne_of_lt hj)

theorem firstFin_eq_none {n lo : Nat} {p : Fin n → Bool} :
    firstFin lo p = none ↔ ∀ j : Fin n, lo ≤ j.val → p j = false := by
  cases hf : firstFin lo p with
  | some k =>
    obtain ⟨h1, h2, _⟩ := firstFin_eq_some.mp hf
    simp only [reduceCtorEq, false_iff]
    intro h
    rw [h k h1] at h2
    cases h2
  | none =>
    simp only [true_iff]
    intro j hj
    unfold firstFin at hf
    split at hf
    · rename_i h
      have h1 := firstFrom_eq_none.mp h j.val hj j.isLt
      simpa using h1
    · rename_i i h
      obtain ⟨_, h2, _⟩ := firstFrom_eq_some.mp h
      simp [h2] at hf

/-! ## Counted loops -/

variable {σ : Type}

/-- `f 0`, then `f 1`, …, then `f (n - 1)`. -/
def forUpTo (f : Nat → σ → σ) : Nat → σ → σ
  | 0, s => s
  | n + 1, s => f n (forUpTo f n s)

/-- The invariant rule: `P i` holds before iteration `i`. -/
theorem forUpTo_inv {f : Nat → σ → σ} {n : Nat} {s : σ} (P : Nat → σ → Prop) (h0 : P 0 s)
    (hs : ∀ i t, i < n → P i t → P (i + 1) (f i t)) : P n (forUpTo f n s) := by
  induction n with
  | zero => exact h0
  | succ n ih => exact hs n _ (by omega) (ih fun i t hi => hs i t (by omega))

/-- Two loops side by side: `R i` holds before iteration `i`. -/
theorem forUpTo_rel {τ : Type} {f : Nat → σ → σ} {g : Nat → τ → τ} {n : Nat} {s : σ} {t : τ} (R : Nat → σ → τ → Prop)
    (h0 : R 0 s t) (hs : ∀ i s t, i < n → R i s t → R (i + 1) (f i s) (g i t)) :
    R n (forUpTo f n s) (forUpTo g n t) := by
  induction n with
  | zero => exact h0
  | succ n ih => exact hs n _ _ (by omega) (ih fun i s t hi => hs i s t (by omega))

/-- Turn `i` does `g i` to part `i` of the state (`hf`) and leaves the other parts alone (`ho`). -/
theorem forUpTo_parts {β : Type} {f : Nat → σ → σ} {n : Nat} (part : Nat → σ → β) (g : Nat → β → β)
    (hf : ∀ i < n, ∀ s, part i (f i s) = g i (part i s))
    (ho : ∀ i < n, ∀ r < n, r ≠ i → ∀ s, part r (f i s) = part r s) (s : σ) {r : Nat} (hr : r < n) :
    part r (forUpTo f n s) = g r (part r s) := by
  -- Before turn `i`, the parts below `i` are done.
  have hinv : ∀ r < n, part r (forUpTo f n s) = if r < n then g r (part r s) else part r s := by
    apply forUpTo_inv (fun i t => ∀ r < n, part r t = if r < i then g r (part r s) else part r s)
    · intro r _
      rfl
    · intro i t hi ht r hr
      by_cases hri : r = i
      · subst hri
        rw [hf r hi, ht r hr, if_neg (lt_irrefl r), if_pos (by omega)]
      · rw [ho i hi r hr hri, ht r hr]
        split
        · rw [if_pos (by omega)]
        · rw [if_neg (by omega)]
  rw [hinv r hr, if_pos hr]

/-- A loop undoes another one in the opposite order, up to `c`. -/
theorem forUpTo_undo {τ : Type} {f : Nat → σ → σ} {g : Nat → τ → τ} (c : σ → τ) {n : Nat}
    (h : ∀ i < n, ∀ s, g i (c (f (n - 1 - i) s)) = c s) (s : σ) : forUpTo g n (c (forUpTo f n s)) = c s := by
  have hinv : forUpTo g n (c (forUpTo f n s)) = c (forUpTo f (n - n) s) := by
    apply forUpTo_inv (fun i t => t = c (forUpTo f (n - i) s)) rfl
    intro i t hi ht
    rw [ht, show n - i = (n - 1 - i) + 1 by omega, forUpTo, h i hi, show n - 1 - i = n - (i + 1) by omega]
  rw [hinv, Nat.sub_self, forUpTo]

/-! ## Overwritten variables -/

section LastWord

variable {α β : Type} {f : α → Option β}

/-- What the last item says that says anything. -/
def lastWord (f : α → Option β) (l : List α) : Option β := (l.filterMap f).getLast?

@[simp] theorem lastWord_nil : lastWord f [] = none := rfl

@[simp] theorem lastWord_singleton (a : α) : lastWord f [a] = f a := by
  cases h : f a <;> simp [lastWord, h]

theorem lastWord_append (l m : List α) : lastWord f (l ++ m) = (lastWord f m).or (lastWord f l) := by
  simp [lastWord]

theorem lastWord_eq_none {l : List α} (h : ∀ a ∈ l, f a = none) : lastWord f l = none := by
  simpa [lastWord, List.filterMap_eq_nil_iff] using h

theorem exists_lastWord {l : List α} {a : α} {b : β} (ha : a ∈ l) (hb : f a = some b) : ∃ c, lastWord f l = some c := by
  rw [← Option.isSome_iff_exists, Option.isSome_iff_ne_none, lastWord, Ne, List.getLast?_eq_none_iff]
  exact List.ne_nil_of_mem (List.mem_filterMap.mpr ⟨a, ha, hb⟩)

/-- The items after the last that speaks do not matter. -/
theorem lastWord_append_cons {l m : List α} {a : α} {b : β} (ha : f a = some b) (hm : ∀ c ∈ m, f c = none) :
    lastWord f (l ++ a :: m) = some b := by
  rw [List.append_cons, lastWord_append, lastWord_eq_none hm, lastWord_append, lastWord_singleton, ha]
  rfl

theorem getD_lastWord_cons (a : α) (l : List α) (b : β) :
    (lastWord f (a :: l)).getD b = (lastWord f l).getD ((f a).getD b) := by
  rw [← List.singleton_append, lastWord_append, lastWord_singleton]
  cases lastWord f l <;> simp

theorem getD_lastWord_snoc (l : List α) (a : α) (b : β) :
    (lastWord f (l ++ [a])).getD b = (f a).getD ((lastWord f l).getD b) := by
  rw [lastWord_append, lastWord_singleton]
  cases f a <;> simp

end LastWord

end AmqOs.Lib
