import Mathlib

/-!
# Scanning text

`scan p n l` is the loop that copies at most `n` items for as long as `p` holds: the copied items and the rest. A run of
such items that fits is copied whole (`scan_append`), and one that is followed by more of them is the start of what is
copied (`scan_prefix`).
-/

set_option autoImplicit false

namespace AmqOs.Lib

variable {α : Type} {p : α → Bool}

/-- The items at the start of a list that satisfy `p`, at most `n` of them, and the rest. -/
def scan (p : α → Bool) : Nat → List α → List α × List α
  | 0, l => ([], l)
  | _ + 1, [] => ([], [])
  | n + 1, a :: l => if p a then (a :: (scan p n l).1, (scan p n l).2) else ([], a :: l)

/-- The list does not start with an item that satisfies `p`. -/
def StopsAt (p : α → Bool) (l : List α) : Prop := ∀ a l', l = a :: l' → p a = false

theorem stopsAt_nil : StopsAt p [] := fun _ _ h => by cases h

theorem stopsAt_cons {a : α} {l : List α} (h : p a = false) : StopsAt p (a :: l) := by
  rintro b l' ⟨rfl, rfl⟩
  exact h

theorem scan_stop {l : List α} (h : StopsAt p l) (n : Nat) : scan p n l = ([], l) := by
  cases n with
  | zero => rfl
  | succ n =>
    cases l with
    | nil => rfl
    | cons a l => simp [scan, h a l rfl]

/-- What is copied, and what is left. -/
theorem scan_eq (n : Nat) (l : List α) : scan p n l = ((l.takeWhile p).take n, l.drop ((l.takeWhile p).take n).length) := by
  induction l generalizing n with
  | nil => cases n <;> simp [scan]
  | cons a l ih =>
    cases n with
    | zero => simp [scan]
    | succ n =>
      by_cases ha : p a = true
      · simp [scan, ha, ih, List.takeWhile_cons_of_pos ha]
      · simp [scan, ha, List.takeWhile_cons_of_neg ha]

theorem length_scan_le (n : Nat) (l : List α) : (scan p n l).1.length ≤ n := by
  rw [scan_eq]
  exact List.length_take_le _ _

theorem scan_append {t r : List α} {n : Nat} (ht : ∀ a ∈ t, p a = true) (hn : t.length ≤ n) (hr : StopsAt p r) :
    scan p n (t ++ r) = (t, r) := by
  induction t generalizing n with
  | nil => exact scan_stop hr n
  | cons a t ih =>
    cases n with
    | zero => simp at hn
    | succ n =>
      have hrest := ih (fun b hb => ht b (List.mem_cons_of_mem _ hb)) (Nat.le_of_succ_le_succ hn)
      simp [scan, ht a List.mem_cons_self, hrest]

theorem scan_prefix {t r : List α} {n : Nat} (ht : ∀ a ∈ t, p a = true) (hn : t.length ≤ n) :
    ∃ u v, scan p n (t ++ r) = (t ++ u, v) := by
  induction t generalizing n with
  | nil => exact ⟨_, _, rfl⟩
  | cons a t ih =>
    cases n with
    | zero => simp at hn
    | succ n =>
      obtain ⟨u, v, hrest⟩ := ih (fun b hb => ht b (List.mem_cons_of_mem _ hb)) (Nat.le_of_succ_le_succ hn)
      exact ⟨u, v, by simp [scan, ht a List.mem_cons_self, hrest]⟩

theorem stopsAt_dropWhile (p : α → Bool) (l : List α) : StopsAt p (l.dropWhile p) := by
  intro a l' h
  have hhead := List.head_dropWhile_not p (l := l) (by simp [h])
  simpa [h] using hhead

/-- A run of items that fits is copied whole. -/
theorem scan_short {n : Nat} {l : List α} (h : (l.takeWhile p).length ≤ n) :
    scan p n l = (l.takeWhile p, l.dropWhile p) := by
  have hall : ∀ a ∈ l.takeWhile p, p a = true := fun a ha => List.mem_takeWhile_imp ha
  have hscan := scan_append hall h (stopsAt_dropWhile p l)
  rwa [List.takeWhile_append_dropWhile] at hscan

/-- The items up to the first that does not satisfy `p`. -/
theorem takeWhile_append {t r : List α} (ht : ∀ a ∈ t, p a = true) (hr : StopsAt p r) : (t ++ r).takeWhile p = t := by
  rw [List.takeWhile_append_of_pos ht]
  cases r with
  | nil => simp
  | cons a r => simp [hr a r rfl]

/-- Skipping items that satisfy `p`. -/
theorem dropWhile_append {b r : List α} (hb : ∀ a ∈ b, p a = true) (hr : StopsAt p r) :
    (b ++ r).dropWhile p = r := by
  rw [List.dropWhile_append_of_pos hb]
  cases r with
  | nil => rfl
  | cons a r => rw [List.dropWhile_cons_of_neg (by simp [hr a r rfl])]

end AmqOs.Lib
