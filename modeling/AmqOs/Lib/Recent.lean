import Mathlib

/-!
# Maps that forget the oldest entry

A map with room for `cap` keys, as the list of its entries with the newest first: `touch cap k v l` enters `v` at `k`, which
becomes the newest key, and drops the oldest when there are too many. `recent cap h` is the map after the entries `h`,
newest first. It holds for each of its keys what was entered last (`lookup_recent`), in the order of these last entries
(`pairwise_age_recent`). While there is room no key is lost (`lookup_touch`), and a key that is new to a full map takes the
place of the key whose last entry is oldest (`lookup_touch_full`).
-/

set_option autoImplicit false

namespace AmqOs.Lib

variable {K V : Type} [DecidableEq K] {cap : Nat} {k k' : K} {v : V} {l h : List (K × V)}

/-- Enters `v` at `k`. -/
def touch (cap : Nat) (k : K) (v : V) (l : List (K × V)) : List (K × V) :=
  ((k, v) :: l.filter fun e => e.1 ≠ k).take cap

/-- The map after the entries `h`, newest first. -/
def recent (cap : Nat) : List (K × V) → List (K × V)
  | [] => []
  | (k, v) :: h => touch cap k v (recent cap h)

/-- The number of entries since the last one at `k`. -/
def age (h : List (K × V)) (k : K) : Nat := h.findIdx fun e => e.1 = k

/-! ## One entry -/

theorem touch_sublist : (touch cap k v l).Sublist ((k, v) :: l.filter fun e => e.1 ≠ k) := List.take_sublist _ _

theorem lookup_eq_none_of_notMem (hk : k ∉ l.map Prod.fst) : l.lookup k = none := by
  rw [List.lookup_eq_none_iff]
  rintro ⟨k', v'⟩ he
  rw [bne_iff_ne]
  rintro rfl
  exact hk (List.mem_map_of_mem he)

/-- With distinct keys, every entry is found. -/
theorem lookup_eq_some_of_mem (hl : (l.map Prod.fst).Nodup) (hv : (k, v) ∈ l) : l.lookup k = some v := by
  induction l with
  | nil => cases hv
  | cons e l ih =>
    obtain ⟨k', v'⟩ := e
    rw [List.map_cons, List.nodup_cons] at hl
    rw [List.lookup_cons]
    rcases List.mem_cons.mp hv with heq | hmem
    · cases heq
      simp
    · have hne : k ≠ k' := by
        intro heq
        rw [← heq] at hl
        exact hl.1 (List.mem_map.mpr ⟨(k, v), hmem, rfl⟩)
      rw [beq_false_of_ne hne]
      exact ih hl.2 hmem

theorem mem_of_lookup (hv : l.lookup k = some v) : (k, v) ∈ l := by
  obtain ⟨l₁, l₂, rfl, -⟩ := List.lookup_eq_some_iff.mp hv
  simp

theorem lookup_filter_ne (hk : k' ≠ k) : (l.filter fun e => e.1 ≠ k).lookup k' = l.lookup k' := by
  induction l with
  | nil => rfl
  | cons e l ih =>
    obtain ⟨k₁, v₁⟩ := e
    by_cases h1 : k₁ = k
    · subst h1
      simpa [List.lookup_cons, beq_false_of_ne hk] using ih
    · by_cases h2 : k' = k₁
      · simp [h1, h2]
      · simpa [h1, List.lookup_cons, beq_false_of_ne h2] using ih

/-- A key that the map has, or a map that is not full: the other keys are left alone. -/
theorem lookup_touch (hfit : (l.filter fun e => e.1 ≠ k).length < cap) :
    (touch cap k v l).lookup k' = if k' = k then some v else l.lookup k' := by
  have hall : touch cap k v l = (k, v) :: l.filter fun e => e.1 ≠ k := by
    apply List.take_of_length_le
    rw [List.length_cons]
    exact hfit
  rw [hall, List.lookup_cons]
  by_cases hk : k' = k
  · simp [hk]
  · rw [beq_false_of_ne hk, if_neg hk]
    exact lookup_filter_ne hk

/-- A new key in a full map. -/
theorem lookup_touch_full {old : K} {w : V} (hk : k ∉ (l ++ [(old, w)]).map Prod.fst)
    (hl : ((l ++ [(old, w)]).map Prod.fst).Nodup) (hfull : (l ++ [(old, w)]).length = cap) :
    (touch cap k v (l ++ [(old, w)])).lookup k' =
      if k' = k then some v else if k' = old then none else (l ++ [(old, w)]).lookup k' := by
  have hfilter : (l ++ [(old, w)]).filter (fun e => e.1 ≠ k) = l ++ [(old, w)] := by
    rw [List.filter_eq_self]
    intro e he
    rw [decide_eq_true_eq]
    rintro rfl
    exact hk (List.mem_map_of_mem he)
  have hall : touch cap k v (l ++ [(old, w)]) = (k, v) :: l := by
    rw [List.length_append, List.length_singleton] at hfull
    rw [touch, hfilter, ← List.cons_append, List.take_left' (by rw [List.length_cons, hfull])]
  have hold : old ∉ l.map Prod.fst := by
    rw [List.map_append, List.nodup_append] at hl
    intro hmem
    exact hl.2.2 old hmem old (by simp) rfl
  rw [hall, List.lookup_cons]
  by_cases hk' : k' = k
  · simp [hk']
  · rw [beq_false_of_ne hk', if_neg hk']
    by_cases ho : k' = old
    · rw [if_pos ho, ho]
      exact lookup_eq_none_of_notMem hold
    · rw [if_neg ho, List.lookup_append, List.lookup_cons, beq_false_of_ne ho]
      simp

/-! ## All entries -/

/-- What the map holds was entered last. -/
theorem lookup_recent (hv : (k', v) ∈ recent cap h) : h.lookup k' = some v := by
  induction h with
  | nil => cases hv
  | cons e h ih =>
    obtain ⟨k, w⟩ := e
    rw [List.lookup_cons]
    rcases List.mem_cons.mp (touch_sublist.subset hv) with heq | hmem
    · cases heq
      simp
    · obtain ⟨hmem, hne⟩ := List.mem_filter.mp hmem
      rw [decide_eq_true_eq] at hne
      rw [beq_false_of_ne hne]
      exact ih hmem

theorem age_cons_self : age ((k, v) :: h) k = 0 := by simp [age, List.findIdx_cons]

theorem age_cons_of_ne (hk : k' ≠ k) : age ((k, v) :: h) k' = age h k' + 1 := by
  simp [age, List.findIdx_cons, hk.symm]

/-- The entries are in the order of the last entries at their keys. -/
theorem pairwise_age_recent (h : List (K × V)) : (recent cap h).Pairwise fun a b => age h a.1 < age h b.1 := by
  induction h with
  | nil => exact List.Pairwise.nil
  | cons e h ih =>
    obtain ⟨k, v⟩ := e
    refine List.Pairwise.sublist touch_sublist (List.pairwise_cons.mpr ⟨?_, ?_⟩)
    · intro b hb
      have hne : b.1 ≠ k := by simpa using (List.mem_filter.mp hb).2
      rw [age_cons_self, age_cons_of_ne hne]
      exact Nat.succ_pos _
    · have hsub := ih.sublist (List.filter_sublist (p := fun e : K × V => e.1 ≠ k) (l := recent cap h))
      apply List.Pairwise.imp_of_mem _ hsub
      intro a b ha hb hab
      have hna : a.1 ≠ k := by simpa using (List.mem_filter.mp ha).2
      have hnb : b.1 ≠ k := by simpa using (List.mem_filter.mp hb).2
      rw [age_cons_of_ne hna, age_cons_of_ne hnb]
      omega

end AmqOs.Lib
