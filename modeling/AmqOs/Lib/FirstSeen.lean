import Mathlib.Data.Finset.Card
import Mathlib.Data.Finset.Basic

/-!
# A log of the first `cap` keys

`enter cap l k` notes a key that is not in the log yet, while there is room. After any number of keys the log has those
that came before `cap` others had come (`mem_enterAll`).
-/

set_option autoImplicit false

namespace AmqOs.Lib

variable {K : Type} [DecidableEq K] {cap : Nat} {k : K} {l ks : List K}

def enter (cap : Nat) (l : List K) (k : K) : List K :=
  if k ∈ l then l else if l.length < cap then l ++ [k] else l

def enterAll (cap : Nat) (ks : List K) : List K := ks.foldl (enter cap) []

/-- The key came while there was room. -/
def InTime (cap : Nat) (ks : List K) (k : K) : Prop := ∃ pre post, ks = pre ++ k :: post ∧ pre.toFinset.card < cap

theorem enterAll_append_singleton : enterAll cap (ks ++ [k]) = enter cap (enterAll cap ks) k := by
  simp [enterAll]

/-- The log has all keys so far, or it is full. -/
structure LogOf (cap : Nat) (ks l : List K) : Prop where
  nodup : l.Nodup
  subset : l ⊆ ks
  all : l.length < cap → ks ⊆ l
  room : l.length ≤ cap

theorem LogOf.enter (h : LogOf cap ks l) (k : K) : LogOf cap (ks ++ [k]) (enter cap l k) := by
  have hsub : l ⊆ ks ++ [k] := fun x hx => List.mem_append_left _ (h.subset hx)
  unfold Lib.enter
  split_ifs with hk hlt
  · refine ⟨h.nodup, hsub, fun hroom x hx => ?_, h.room⟩
    rcases List.mem_append.mp hx with hx | hx
    · exact h.all hroom hx
    · rwa [List.mem_singleton.mp hx]
  · refine ⟨?_, ?_, fun _ x hx => ?_, ?_⟩
    · rw [List.nodup_append]
      refine ⟨h.nodup, List.nodup_singleton k, fun a ha b hb => ?_⟩
      rw [List.mem_singleton.mp hb]
      rintro rfl
      exact hk ha
    · exact List.append_subset.mpr ⟨hsub, List.subset_append_right _ _⟩
    · rcases List.mem_append.mp hx with hx | hx
      · exact List.mem_append_left _ (h.all hlt hx)
      · exact List.mem_append_right _ hx
    · rw [List.length_append, List.length_singleton]
      exact hlt
  · exact ⟨h.nodup, hsub, fun hroom => absurd hroom hlt, h.room⟩

theorem logOf_enterAll (cap : Nat) (ks : List K) : LogOf cap ks (enterAll cap ks) := by
  induction ks using List.reverseRecOn with
  | nil => exact ⟨List.nodup_nil, List.Subset.refl _, fun _ => List.Subset.refl _, Nat.zero_le _⟩
  | append_singleton ks k ih =>
    rw [enterAll_append_singleton]
    exact ih.enter k

/-- There is room as long as fewer than `cap` different keys have come. -/
theorem LogOf.length_lt_iff (h : LogOf cap ks l) : l.length < cap ↔ ks.toFinset.card < cap := by
  have hle : l.toFinset ⊆ ks.toFinset := fun x hx => List.mem_toFinset.mpr (h.subset (List.mem_toFinset.mp hx))
  have hcard := Finset.card_le_card hle
  rw [List.toFinset_card_of_nodup h.nodup] at hcard
  constructor
  · intro hroom
    have hall : ks.toFinset ⊆ l.toFinset := fun x hx => List.mem_toFinset.mpr (h.all hroom (List.mem_toFinset.mp hx))
    have hcard' := Finset.card_le_card hall
    rw [List.toFinset_card_of_nodup h.nodup] at hcard'
    omega
  · omega

theorem inTime_append_singleton {k' : K} :
    InTime cap (ks ++ [k']) k ↔ InTime cap ks k ∨ k = k' ∧ ks.toFinset.card < cap := by
  constructor
  · rintro ⟨pre, post, he, hlt⟩
    rcases List.eq_nil_or_concat post with rfl | ⟨post', last, rfl⟩
    · obtain ⟨rfl, hk⟩ := List.append_inj' he rfl
      exact .inr ⟨(List.cons.inj hk).1.symm, hlt⟩
    · rw [List.concat_eq_append, ← List.cons_append, ← List.append_assoc] at he
      exact .inl ⟨pre, post', (List.append_inj' he rfl).1, hlt⟩
  · rintro (⟨pre, post, rfl, hlt⟩ | ⟨rfl, hlt⟩)
    · exact ⟨pre, post ++ [k'], by simp, hlt⟩
    · exact ⟨ks, [], rfl, hlt⟩

/-- **What the log has.** -/
theorem mem_enterAll : k ∈ enterAll cap ks ↔ InTime cap ks k := by
  induction ks using List.reverseRecOn with
  | nil =>
    refine iff_of_false (List.not_mem_nil) ?_
    rintro ⟨pre, post, he, -⟩
    simp at he
  | append_singleton ks k' ih =>
    have hlog := logOf_enterAll cap ks
    have hroom := hlog.length_lt_iff
    rw [enterAll_append_singleton, inTime_append_singleton, ← ih]
    unfold enter
    split_ifs with hk hlt
    · refine (or_iff_left_of_imp ?_).symm
      rintro ⟨rfl, -⟩
      exact hk
    · simp [hroom.mp hlt]
    · simp [mt hroom.mpr hlt]

end AmqOs.Lib
