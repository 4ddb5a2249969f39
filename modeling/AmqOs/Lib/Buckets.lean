import Mathlib

/-!
# Hash tables with chains

A table is a list of items for every hash value; an item goes to the head of its list (`addBucket`), and the first item
with the key is found (`findBucket`). Whatever the hash function is, such a table is the list of all items, the latest
first (`Bucketed`): what is found in the table is what is found in the list (`findBucket_eq`). The list shows which of the
items with one key wins: the last one if every item is added, the first one if an item is added only when its key is new
(`find?_addNew`, `find?_addNews`).
-/

set_option autoImplicit false

namespace AmqOs.Lib

section Buckets

variable {α κ ι : Type} [DecidableEq ι] (key : α → κ) (hash : κ → ι)

/-- The item at the head of its list. -/
def addBucket (table : ι → List α) (a : α) : ι → List α :=
  fun i => if i = hash (key a) then a :: table (hash (key a)) else table i

/-- The table has the items of the list, in its order. -/
def Bucketed (table : ι → List α) (items : List α) : Prop := ∀ i, table i = items.filter fun a => hash (key a) = i

/-- The first item with the key. -/
def findBucket [DecidableEq κ] (table : ι → List α) (k : κ) : Option α := (table (hash k)).find? fun a => key a = k

variable {key hash} {table : ι → List α} {items : List α}

theorem bucketed_empty (h : ∀ i, table i = []) : Bucketed key hash table [] := h

theorem bucketed_addBucket (h : Bucketed key hash table items) (a : α) :
    Bucketed key hash (addBucket key hash table a) (a :: items) := by
  intro i
  unfold addBucket
  by_cases hi : i = hash (key a)
  · rw [if_pos hi, List.filter_cons_of_pos (by simpa using hi.symm), h, hi]
  · rw [if_neg hi, List.filter_cons_of_neg (by simpa using Ne.symm hi), h]

/-- The chains find what the list finds. -/
theorem findBucket_eq [DecidableEq κ] (h : Bucketed key hash table items) (k : κ) :
    findBucket key hash table k = items.find? fun a => key a = k := by
  unfold findBucket
  rw [h, List.find?_filter]
  congr 1
  funext a
  by_cases hk : key a = k
  · simp [hk]
  · simp [hk]

end Buckets

/-! ## Which item wins -/

section Policies

variable {α κ : Type} [DecidableEq κ] (key : α → κ)

/-- The item is added if its key is new. -/
def addNew (items : List α) (a : α) : List α :=
  if (items.find? fun b => key b = key a).isSome then items else a :: items

variable {key}

/-- An item that is added if its key is new is found only where nothing was found before. -/
theorem find?_addNew (items : List α) (a : α) (k : κ) :
    (addNew key items a).find? (fun b => key b = k) =
      (items.find? fun b => key b = k).or (if key a = k then some a else none) := by
  unfold addNew
  by_cases hk : key a = k
  · subst hk
    cases hf : items.find? fun b => key b = key a with
    | none => simp
    | some b => simp [hf]
  · split
    · simp
    · simp [hk]

/-- The first one of a key wins. -/
theorem find?_addNews (items news : List α) (k : κ) :
    (news.foldl (addNew key) items).find? (fun b => key b = k) =
      (items.find? fun b => key b = k).or (news.find? fun b => key b = k) := by
  induction news generalizing items with
  | nil => simp
  | cons a news ih =>
    rw [List.foldl_cons, ih, find?_addNew, Option.or_assoc, List.find?_cons]
    by_cases hk : key a = k
    · simp [hk]
    · simp [hk]

end Policies

/-! ## The first and the last of a table -/

section Ends

variable {α : Type} {f : Nat → Option α} {p : α → Bool} {n : Nat} {a : α}

theorem filterMap_range_succ (f : Nat → Option α) (n : Nat) :
    (List.range (n + 1)).filterMap f = (List.range n).filterMap f ++ (f n).toList := by
  rw [List.range_succ, List.filterMap_append]
  cases h : f n <;> simp [h]

theorem mem_filterMap_range : a ∈ (List.range n).filterMap f ↔ ∃ i < n, f i = some a := by
  simp [List.mem_filterMap]

/-- The first entry of the table that satisfies `p`. -/
theorem find?_filterMap_range : ((List.range n).filterMap f).find? p = some a ↔
    ∃ i < n, f i = some a ∧ p a = true ∧ ∀ j < i, ∀ b, f j = some b → p b = false := by
  induction n with
  | zero => simp
  | succ n ih =>
    rw [filterMap_range_succ, List.find?_append, Option.or_eq_some_iff, ih, List.find?_eq_none]
    constructor
    · rintro (⟨i, hi, h⟩ | ⟨hnone, hlast⟩)
      · exact ⟨i, by omega, h⟩
      · have hmem := List.mem_of_find?_eq_some hlast
        refine ⟨n, by omega, by simpa using hmem, List.find?_some hlast, ?_⟩
        intro j hj b hb
        simpa using hnone b (mem_filterMap_range.mpr ⟨j, hj, hb⟩)
    · rintro ⟨i, hi, hf, hp, hbefore⟩
      rcases Nat.lt_succ_iff_lt_or_eq.mp hi with hlt | rfl
      · exact .inl ⟨i, hlt, hf, hp, hbefore⟩
      · refine .inr ⟨?_, by simp [hf, hp]⟩
        intro b hb
        obtain ⟨j, hj, hfb⟩ := mem_filterMap_range.mp hb
        simp [hbefore j hj b hfb]

/-- The last entry of the table that satisfies `p`. -/
theorem find?_reverse_filterMap_range : ((List.range n).filterMap f).reverse.find? p = some a ↔
    ∃ i < n, f i = some a ∧ p a = true ∧ ∀ j < n, i < j → ∀ b, f j = some b → p b = false := by
  induction n with
  | zero => simp
  | succ n ih =>
    rw [filterMap_range_succ, List.reverse_append, List.find?_append, Option.or_eq_some_iff, ih, List.find?_eq_none]
    constructor
    · rintro (hlast | ⟨hnone, i, hi, hf, hp, hafter⟩)
      · have hmem := List.mem_of_find?_eq_some hlast
        exact ⟨n, by omega, by simpa using hmem, List.find?_some hlast, fun j hj hnj => absurd hj (by omega)⟩
      · refine ⟨i, by omega, hf, hp, ?_⟩
        intro j hj hij b hb
        rcases Nat.lt_succ_iff_lt_or_eq.mp hj with hlt | rfl
        · exact hafter j hlt hij b hb
        · simpa using hnone b (by simp [hb])
    · rintro ⟨i, hi, hf, hp, hafter⟩
      rcases Nat.lt_succ_iff_lt_or_eq.mp hi with hlt | rfl
      · refine .inr ⟨?_, i, hlt, hf, hp, fun j hj => hafter j (by omega)⟩
        intro b hb
        have hb' : f n = some b := by simpa using hb
        simp [hafter n (by omega) hlt b hb']
      · exact .inl (by simp [hf, hp])

end Ends

end AmqOs.Lib
