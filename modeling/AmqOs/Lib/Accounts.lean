import AmqOs.Lib.Patches

/-!
# Runs that keep an account

`follow f account` is the computation `f` on a state together with what it does to an account, which depends on the state
before it and is kept when `f` ends early. Without the account it is `f` again, and so are sequences and loops
(`plain_follow`, `plain_andThen`, `plain_forEnding`, `plain_forEndingBelow`). `Leaves x E R` says that `E` holds of the code
and the state that an early end leaves and `R` of the state that `x` returns, with the rules for sequences (`leaves_andThen`)
and loops (`leaves_forEnding`, `leaves_forEndingBelow`).
-/

set_option autoImplicit false

namespace AmqOs.Lib

open Guarded

variable {ε α σ τ : Type}

/-! ## Accounts -/

/-- A computation with what it does to the account, also when it ends early. -/
def follow (f : σ → Guarded ε σ) (account : σ → τ → τ) (s : σ × τ) : Ending ε (σ × τ) :=
  match (f s.1 : Option (Except ε σ)) with
  | none => none
  | some (.error e) => some (some e, (s.1, account s.1 s.2))
  | some (.ok t) => some (none, (t, account s.1 s.2))

/-- The outcome without the account. -/
def plain (x : Ending ε (σ × τ)) : Guarded ε σ := forget x >>= fun s => pure s.1

theorem plain_early (e : ε) (s : σ × τ) : plain (some (some e, s)) = throw e := rfl

theorem plain_follow {f : σ → Guarded ε σ} {account : σ → τ → τ} {s : σ × τ} : plain (follow f account s) = f s.1 := by
  unfold follow
  rcases cases_eq (f s.1) with h | ⟨e, h⟩ | ⟨t, h⟩ <;> rw [h] <;> rfl

theorem plain_andThen {x : Ending ε (σ × τ)} {f : σ × τ → Ending ε (σ × τ)} {g : σ → Guarded ε σ}
    (h : ∀ s, plain (f s) = g s.1) : plain (andThen x f) = plain x >>= g := by
  unfold plain
  rw [forget_andThen, bind_assoc, bind_assoc]
  congr 1
  funext s
  rw [pure_bind]
  exact h s

theorem plain_onValue {x : Guarded ε α} {s : σ × τ} {f : α → Ending ε (σ × τ)} :
    plain (onValue x s f) = x >>= fun a => plain (f a) := by
  unfold plain
  rw [forget_onValue, bind_assoc]

theorem plain_forEnding {f : Nat → σ → Guarded ε σ} {account : Nat → σ → τ → τ} (n : Nat) (s : σ × τ) :
    plain (forEnding (fun i => follow (f i) (account i)) n s) = forLoop f n s.1 := by
  induction n with
  | zero => rfl
  | succ n ih => rw [forEnding, plain_andThen fun s => plain_follow, ih, forLoop]

/-- A loop that reads its bound again before each of at most `fuel` iterations, and leaves its state. -/
def forEndingBelow (bound : σ → Guarded ε Nat) (f : Nat → σ → Ending ε σ) : Nat → Nat → σ → Ending ε σ
  | 0, _, s => some (none, s)
  | fuel + 1, i, s => onValue (bound s) s fun n =>
    if i < n then andThen (f i s) (forEndingBelow bound f fuel (i + 1)) else some (none, s)

theorem plain_forEndingBelow {bound : σ → Guarded ε Nat} {f : Nat → σ → Guarded ε σ} {account : Nat → σ → τ → τ}
    (fuel i : Nat) (s : σ × τ) :
    plain (forEndingBelow (fun s => bound s.1) (fun i => follow (f i) (account i)) fuel i s) =
      forBelow bound f fuel i s.1 := by
  induction fuel generalizing i s with
  | zero => rfl
  | succ fuel ih =>
    rw [forEndingBelow, plain_onValue, forBelow]
    congr 1
    funext n
    split
    · rw [plain_andThen (ih (i + 1)), plain_follow]
    · rfl

/-! ## What a run leaves -/

/-- What holds of the state that an early end leaves, with its code, and of the state that is returned. -/
structure Leaves (x : Ending ε σ) (E : ε → σ → Prop) (R : σ → Prop) : Prop where
  early : ∀ e s, x = some (some e, s) → E e s
  returned : ∀ s, x = some (none, s) → R s

variable {x : Ending ε σ} {E : ε → σ → Prop} {P R : σ → Prop}

theorem leaves_none : Leaves (none : Ending ε σ) E R where
  early := by
    intro e s h
    cases h
  returned := by
    intro s h
    cases h

theorem leaves_early {e : ε} {s : σ} (h : E e s) : Leaves (some (some e, s)) E R where
  early := by
    intro e' t ht
    cases ht
    exact h
  returned := by
    intro t ht
    cases ht

theorem leaves_return {s : σ} (h : R s) : Leaves (some (none, s)) E R where
  early := by
    intro e t ht
    cases ht
  returned := by
    intro t ht
    cases ht
    exact h

theorem Leaves.mono {E' : ε → σ → Prop} (h : Leaves x E P) (hE : ∀ e s, E e s → E' e s) (hR : ∀ s, P s → R s) :
    Leaves x E' R :=
  ⟨fun e s hx => hE e s (h.early e s hx), fun s hx => hR s (h.returned s hx)⟩

theorem leaves_andThen {f : σ → Ending ε σ} (hx : Leaves x E P) (hf : ∀ s, P s → Leaves (f s) E R) :
    Leaves (andThen x f) E R := by
  rcases x with _ | ⟨_ | e, s⟩
  · exact leaves_none
  · exact hf s (hx.returned s rfl)
  · exact leaves_early (hx.early e s rfl)

theorem leaves_onValue {v : Guarded ε α} {s : σ} {f : α → Ending ε σ} (he : ∀ e, v = throw e → E e s)
    (hf : ∀ a, Returns v a → Leaves (f a) E R) : Leaves (onValue v s f) E R := by
  rcases cases_eq v with hv | ⟨e, hv⟩ | ⟨a, hv⟩
  · rw [hv]
    exact leaves_none
  · have hearly := he e hv
    rw [hv]
    exact leaves_early hearly
  · have hrest := hf a hv
    rw [hv]
    exact hrest

theorem leaves_follow {f : σ → Guarded ε σ} {account : σ → τ → τ} {s : σ × τ} {E : ε → σ × τ → Prop} {R : σ × τ → Prop}
    (he : ∀ e, f s.1 = throw e → E e (s.1, account s.1 s.2)) (hr : ∀ t, Returns (f s.1) t → R (t, account s.1 s.2)) :
    Leaves (follow f account s) E R := by
  unfold follow
  rcases cases_eq (f s.1) with h | ⟨e, h⟩ | ⟨t, h⟩
  · rw [h]
    exact leaves_none
  · have hearly := he e h
    rw [h]
    exact leaves_early hearly
  · have hrest := hr t h
    rw [h]
    exact leaves_return hrest

/-- What follows from the account alone. -/
theorem leaves_follow_account {f : σ → Guarded ε σ} {account : σ → τ → τ} {s : σ × τ} {R : τ → Prop}
    (h : R (account s.1 s.2)) : Leaves (follow f account s) (fun _ t => R t.2) fun t => R t.2 :=
  leaves_follow (fun _ _ => h) fun _ _ => h

/-- The invariant rule: `P i` holds before iteration `i`. -/
theorem leaves_forEnding {f : Nat → σ → Ending ε σ} {n : Nat} {s : σ} (P : Nat → σ → Prop) (h0 : P 0 s)
    (hs : ∀ i < n, ∀ t, P i t → Leaves (f i t) E (P (i + 1))) : Leaves (forEnding f n s) E (P n) := by
  induction n with
  | zero => exact leaves_return h0
  | succ n ih => exact leaves_andThen (ih fun i hi => hs i (by omega)) (hs n (by omega))

/-- The invariant rule for a loop that reads its bound again, which ends at the bound, or without fuel. -/
theorem leaves_forEndingBelow {bound : σ → Guarded ε Nat} {f : Nat → σ → Ending ε σ} {fuel i : Nat} {s : σ}
    (P : Nat → σ → Prop) (h0 : P i s) (hbound : ∀ t e, bound t ≠ throw e)
    (hs : ∀ i n t, P i t → Returns (bound t) n → i < n → Leaves (f i t) E (P (i + 1))) :
    Leaves (forEndingBelow bound f fuel i s) E fun t =>
      ∃ j, P j t ∧ (j = i + fuel ∨ ∃ n, Returns (bound t) n ∧ n ≤ j) := by
  induction fuel generalizing i s with
  | zero => exact leaves_return ⟨i, h0, .inl rfl⟩
  | succ fuel ih =>
    refine leaves_onValue (fun e he => absurd he (hbound s e)) fun n hn => ?_
    split
    · rename_i hlt
      refine leaves_andThen (hs i n s h0 hn hlt) fun t ht => (ih ht).mono (fun _ _ h => h) fun u hu => ?_
      obtain ⟨j, hj, hend⟩ := hu
      exact ⟨j, hj, hend.imp_left fun he => by omega⟩
    · rename_i hge
      exact leaves_return ⟨i, h0, .inr ⟨n, hn, Nat.not_lt.mp hge⟩⟩

end AmqOs.Lib
