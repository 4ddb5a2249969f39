import Mathlib

/-!
# Intrusive queues

A queue whose links are a field of its members: `Linked next head tail l` says that following `next` from `head` visits
the members `l`, each once, and that `tail` is the last of them (both ends are `none` when there are none).

- a member is added at the end (`Linked.add`), where the links of other members stay as they were;
- the first member is taken off (`Linked.pop`), or one in the middle (`Linked.remove`);
- links of things that are not members do not matter (`Linked.congr`).
-/

set_option autoImplicit false

namespace AmqOs.Lib

variable {α : Type}

/-- Following `next` visits the list and ends. -/
def LinkedFrom (next : α → Option α) : Option α → List α → Prop
  | head, [] => head = none
  | head, a :: l => head = some a ∧ LinkedFrom next (next a) l

structure Linked (next : α → Option α) (head tail : Option α) (l : List α) : Prop where
  links : LinkedFrom next head l
  last : tail = l.getLast?
  nodup : l.Nodup

variable {next next' : α → Option α} {head tail : Option α} {l p q : List α} {a b : α}

theorem LinkedFrom.congr (h : LinkedFrom next head l) (hag : ∀ x ∈ l, next' x = next x) :
    LinkedFrom next' head l := by
  induction l generalizing head with
  | nil => exact h
  | cons a l ih =>
    refine ⟨h.1, ?_⟩
    rw [hag a List.mem_cons_self]
    exact ih h.2 fun x hx => hag x (List.mem_cons_of_mem _ hx)

/-- The links in the middle of a list. -/
theorem LinkedFrom.suffix (h : LinkedFrom next head (p ++ a :: q)) : LinkedFrom next (next a) q := by
  induction p generalizing head with
  | nil => exact h.2
  | cons b p ih => exact ih h.2

/-- What comes after a member is replaced. -/
theorem LinkedFrom.splice (h : LinkedFrom next head (p ++ a :: q)) (hq : LinkedFrom next' (next' a) l)
    (hag : ∀ x ∈ p, next' x = next x) : LinkedFrom next' head (p ++ a :: l) := by
  induction p generalizing head with
  | nil => exact ⟨h.1, hq⟩
  | cons b p ih =>
    refine ⟨h.1, ?_⟩
    rw [hag b List.mem_cons_self]
    exact ih h.2 fun x hx => hag x (List.mem_cons_of_mem _ hx)

namespace Linked

theorem nil : Linked next none none [] := ⟨rfl, rfl, List.nodup_nil⟩

theorem congr (h : Linked next head tail l) (hag : ∀ x ∈ l, next' x = next x) : Linked next' head tail l :=
  ⟨h.links.congr hag, h.last, h.nodup⟩

theorem head_eq (h : Linked next head tail l) : head = l.head? := by
  cases l with
  | nil => exact h.links
  | cons a l => exact h.links.1

theorem eq_nil (h : Linked next none tail l) : l = [] := by
  cases l with
  | nil => rfl
  | cons a l => cases h.links.1

/-- The queue was empty. -/
theorem single (ha : next a = none) : Linked next (some a) (some a) [a] :=
  ⟨⟨rfl, ha⟩, rfl, List.nodup_singleton a⟩

/-- A new member is linked behind the last one. -/
theorem add (h : Linked next head (some b) l) (ha : a ∉ l) (hb : next' b = some a) (hnew : next' a = none)
    (hag : ∀ x ∈ l, x ≠ b → next' x = next x) : Linked next' head (some a) (l ++ [a]) := by
  obtain ⟨p, rfl⟩ : ∃ p, l = p ++ [b] := by
    rcases List.eq_nil_or_concat' l with rfl | ⟨p, c, rfl⟩
    · cases h.last
    · have hlast := h.last
      rw [List.getLast?_concat] at hlast
      cases hlast
      exact ⟨p, rfl⟩
  have hbp : b ∉ p := fun hm => (List.disjoint_of_nodup_append h.nodup) hm (by simp)
  refine ⟨?_, by simp, ?_⟩
  · rw [List.append_assoc]
    refine h.links.splice (l := [a]) ?_ fun x hx => ?_
    · rw [hb]
      exact ⟨rfl, hnew⟩
    · exact hag x (List.mem_append_left _ hx) fun e => hbp (e ▸ hx)
  · exact List.nodup_append.mpr ⟨h.nodup, List.nodup_singleton a, fun x hx y hy e => by
      rw [List.mem_singleton.mp hy] at e
      exact ha (e ▸ hx)⟩

/-- The first member is taken off. -/
theorem pop [DecidableEq α] (h : Linked next head tail (a :: l)) (hag : ∀ x ∈ l, next' x = next x) :
    Linked next' (next a) (if tail = some a then none else tail) l := by
  refine ⟨h.links.2.congr hag, ?_, (List.nodup_cons.mp h.nodup).2⟩
  cases l with
  | nil =>
    rw [h.last]
    simp
  | cons b l =>
    have hne : (a :: b :: l).getLast? ≠ some a := by
      intro he
      rw [List.getLast?_cons_cons] at he
      exact (List.nodup_cons.mp h.nodup).1 (List.mem_of_getLast? he)
    rw [h.last, if_neg hne, List.getLast?_cons_cons]

/-- A member that follows `b` is taken out. -/
theorem remove [DecidableEq α] (h : Linked next head tail (p ++ b :: a :: q)) (hb : next' b = next a)
    (hag : ∀ x ∈ p ++ q, next' x = next x) :
    Linked next' head (if tail = some a then some b else tail) (p ++ b :: q) := by
  have hsub : (p ++ b :: q).Sublist (p ++ b :: a :: q) :=
    List.Sublist.append_left ((List.sublist_cons_self a q).cons_cons b) p
  refine ⟨?_, ?_, h.nodup.sublist hsub⟩
  · refine h.links.splice ?_ fun x hx => hag x (List.mem_append_left _ hx)
    rw [hb]
    have hs : LinkedFrom next (next b) (a :: q) := h.links.suffix
    exact hs.2.congr fun x hx => hag x (List.mem_append_right _ hx)
  · have hnd := List.nodup_append.mp h.nodup
    have haq : a ∉ q := (List.nodup_cons.mp (List.nodup_cons.mp hnd.2.1).2).1
    rw [h.last]
    cases hq : q.getLast? with
    | none =>
      obtain rfl := List.getLast?_eq_none_iff.mp hq
      simp
    | some c =>
      obtain ⟨r, rfl⟩ := List.getLast?_eq_some_iff.mp hq
      have hca : c ≠ a := fun e => haq (by simp [← e])
      have h1 : (p ++ b :: a :: (r ++ [c])).getLast? = some c := by
        rw [show p ++ b :: a :: (r ++ [c]) = (p ++ b :: a :: r) ++ [c] by simp, List.getLast?_concat]
      have h2 : (p ++ b :: (r ++ [c])).getLast? = some c := by
        rw [show p ++ b :: (r ++ [c]) = (p ++ b :: r) ++ [c] by simp, List.getLast?_concat]
      rw [h1, h2, if_neg fun e => hca (Option.some.inj e)]

end Linked

end AmqOs.Lib
