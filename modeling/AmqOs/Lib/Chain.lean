import Mathlib

/-!
# Chains of a successor map

`ChainTo next stop a l`: following the partial map `next` from `a` visits exactly the nodes of `l`, in order, and
then arrives at `stop`. A file's list of blocks, a free list and a path of parents are all chains.

- a chain is determined by its start (`ChainTo.unique`), so it never visits a node twice (`ChainTo.nodup`);
- only the successors of its own nodes matter (`ChainTo.congr`);
- it can be lengthened at its end by one node (`ChainTo.snoc`), cut at a node (`ChainTo.suffix`) and have a node
  inserted (`ChainTo.insert`) or removed (`ChainTo.skip`).
-/

set_option autoImplicit false

namespace AmqOs.Lib

variable {α : Type}

/-- Following `next` from the first argument visits the list and ends at `stop`. -/
inductive ChainTo (next : α → Option α) (stop : α) : α → List α → Prop
  | nil : ChainTo next stop stop []
  | cons {a b : α} {l : List α} (hne : a ≠ stop) (hn : next a = some b) (hl : ChainTo next stop b l) :
      ChainTo next stop a (a :: l)

namespace ChainTo

variable {next next' : α → Option α} {stop a b x y : α} {l l' p q : List α}

theorem nil_iff : ChainTo next stop a [] ↔ a = stop := by
  constructor
  · intro h; cases h; rfl
  · rintro rfl; exact .nil

theorem cons_iff : ChainTo next stop a (x :: l) ↔
    a = x ∧ x ≠ stop ∧ ∃ b, next x = some b ∧ ChainTo next stop b l := by
  constructor
  · intro h
    cases h with
    | cons hne hn hl => exact ⟨rfl, hne, _, hn, hl⟩
  · rintro ⟨rfl, hne, b, hn, hl⟩
    exact .cons hne hn hl

theorem head_mem (h : ChainTo next stop a l) (hne : a ≠ stop) : a ∈ l := by
  cases h with
  | nil => exact absurd rfl hne
  | cons _ _ _ => exact List.mem_cons_self

/-- The start determines the chain. -/
theorem unique (h : ChainTo next stop a l) (h' : ChainTo next stop a l') : l = l' := by
  induction h generalizing l' with
  | nil =>
    cases h' with
    | nil => rfl
    | cons hne _ _ => exact absurd rfl hne
  | cons hne hn _ ih =>
    cases h' with
    | nil => exact absurd rfl hne
    | cons _ hn' hl' =>
      rw [hn] at hn'
      cases hn'
      rw [ih hl']

/-- From any of its nodes on, a chain is the chain of that node. -/
theorem suffix (h : ChainTo next stop a (p ++ x :: q)) : ChainTo next stop x (x :: q) := by
  induction p generalizing a with
  | nil =>
    obtain ⟨rfl, _⟩ := cons_iff.mp h
    exact h
  | cons z p ih =>
    obtain ⟨_, _, b, _, hl⟩ := cons_iff.mp h
    exact ih hl

/-- The successor of a node comes right after it. -/
theorem exists_next (h : ChainTo next stop a l) (hx : x ∈ l) (hn : next x = some y) (hy : y ≠ stop) :
    ∃ p q, l = p ++ x :: y :: q := by
  obtain ⟨p, q, rfl⟩ := List.append_of_mem hx
  obtain ⟨-, -, b, hb, hq⟩ := cons_iff.mp h.suffix
  obtain rfl : b = y := Option.some.inj (hb.symm.trans hn)
  cases q with
  | nil => exact absurd (nil_iff.mp hq) hy
  | cons z q =>
    obtain ⟨rfl, -⟩ := cons_iff.mp hq
    exact ⟨p, q, rfl⟩

/-- A chain ends, so it visits no node twice. -/
theorem nodup (h : ChainTo next stop a l) : l.Nodup := by
  induction h with
  | nil => exact List.nodup_nil
  | @cons a b l hne hn hl ih =>
    refine List.nodup_cons.mpr ⟨fun hmem => ?_, ih⟩
    obtain ⟨p, q, rfl⟩ := List.append_of_mem hmem
    have hsame := (ChainTo.cons hne hn hl).unique hl.suffix
    have hlen := congrArg List.length hsame
    simp only [List.length_cons, List.length_append] at hlen
    omega

/-- No chain leads from a node that is its own successor. -/
theorem not_self (h : ChainTo next stop a l) (hn : next a = some a) (hne : a ≠ stop) : False := by
  obtain ⟨p, q, rfl⟩ := h.exists_next (h.head_mem hne) hn hne
  have hnd := (List.nodup_append.mp h.nodup).2.1
  exact (List.nodup_cons.mp hnd).1 List.mem_cons_self

/-- Successors outside the chain do not matter. -/
theorem congr (h : ChainTo next stop a l) (hag : ∀ x ∈ l, next' x = next x) : ChainTo next' stop a l := by
  induction h with
  | nil => exact .nil
  | @cons a b l hne hn _ ih =>
    refine .cons hne ?_ (ih fun x hx => hag x (List.mem_cons_of_mem _ hx))
    rw [hag a List.mem_cons_self, hn]

/-- The successor of a node that is not the last. -/
theorem next_getElem (h : ChainTo next stop a l) {k : Nat} (hk : k + 1 < l.length) :
    next (l[k]) = some (l[k + 1]) := by
  induction h generalizing k with
  | nil => simp at hk
  | @cons a b l hne hn hl ih =>
    cases k with
    | zero =>
      cases hl with
      | nil => simp at hk
      | cons _ _ _ => simpa using hn
    | succ k => simpa using ih (k := k) (by simpa using hk)

/-- The successor of the last node is the end marker. -/
theorem next_last (h : ChainTo next stop a l) {k : Nat} (hk : k + 1 = l.length) :
    next (l[k]) = some stop := by
  induction h generalizing k with
  | nil => simp at hk
  | @cons a b l hne hn hl ih =>
    cases k with
    | zero =>
      cases hl with
      | nil => simpa using hn
      | cons _ _ _ => simp at hk
    | succ k => simpa using ih (k := k) (by simpa using hk)

theorem getElem_zero (h : ChainTo next stop a l) (hk : 0 < l.length) : l[0] = a := by
  cases h with
  | nil => simp at hk
  | cons _ _ _ => rfl

/-- Lengthening a chain: the last node now leads to `y`, and `y` to the end. -/
theorem snoc (h : ChainTo next stop a (l ++ [x])) (hy : y ≠ stop) (hag : ∀ z ∈ l, next' z = next z)
    (hx : next' x = some y) (hend : next' y = some stop) : ChainTo next' stop a (l ++ [x, y]) := by
  induction l generalizing a with
  | nil =>
    obtain ⟨rfl, hne, _⟩ := cons_iff.mp h
    exact .cons hne hx (.cons hy hend .nil)
  | cons z l ih =>
    obtain ⟨rfl, hne, b, hn, hl⟩ := cons_iff.mp h
    refine .cons hne ?_ (ih hl fun w hw => hag w (List.mem_cons_of_mem _ hw))
    rw [hag a List.mem_cons_self, hn]

/-- Removing an inner node: its predecessor now leads to its successor. -/
theorem skip (h : ChainTo next stop a (p ++ x :: y :: q)) (hx : next' x = next y)
    (hag : ∀ z ∈ p ++ q, next' z = next z) : ChainTo next' stop a (p ++ x :: q) := by
  induction p generalizing a with
  | nil =>
    obtain ⟨rfl, hne, b, hn, hl⟩ := cons_iff.mp h
    obtain ⟨rfl, _, c, hc, hq⟩ := cons_iff.mp hl
    exact .cons hne (by rw [hx, hc]) (hq.congr fun z hz => hag z (by simpa using hz))
  | cons z p ih =>
    obtain ⟨rfl, hne, b, hn, hl⟩ := cons_iff.mp h
    refine .cons hne ?_ (ih hl fun w hw => hag w (by simpa using Or.inr (by simpa using hw)))
    rw [hag a (by simp), hn]

/-- Inserting a node after another. -/
theorem insert (h : ChainTo next stop a (p ++ x :: q)) (hy : y ≠ stop) (hx : next' x = some y)
    (hnext : next' y = next x) (hag : ∀ z ∈ p ++ q, next' z = next z) : ChainTo next' stop a (p ++ x :: y :: q) := by
  induction p generalizing a with
  | nil =>
    obtain ⟨rfl, hne, b, hn, hl⟩ := cons_iff.mp h
    exact .cons hne hx (.cons hy (hnext.trans hn) (hl.congr fun z hz => hag z (by simpa using hz)))
  | cons z p ih =>
    obtain ⟨rfl, hne, b, hn, hl⟩ := cons_iff.mp h
    refine .cons hne ?_ (ih hl fun w hw => hag w (by simpa using Or.inr (by simpa using hw)))
    rw [hag a (by simp), hn]

end ChainTo

/-- The nodes visited from `a`, at most `fuel` of them. -/
def walk [DecidableEq α] (next : α → Option α) (stop : α) : Nat → α → List α
  | 0, _ => []
  | fuel + 1, a =>
    if a = stop then []
    else match next a with
      | none => [a]
      | some b => a :: walk next stop fuel b

/-- With fuel for every node the walk is the chain. -/
theorem ChainTo.walk_eq [DecidableEq α] {next : α → Option α} {stop a : α} {l : List α}
    (h : ChainTo next stop a l) {fuel : Nat} (hf : l.length ≤ fuel) : walk next stop fuel a = l := by
  induction h generalizing fuel with
  | nil => cases fuel <;> simp [walk]
  | @cons a b l hne hn _ ih =>
    cases fuel with
    | zero => simp at hf
    | succ fuel =>
      have htail : walk next stop fuel b = l := ih (by simpa using hf)
      simp [walk, hne, hn, htail]

end AmqOs.Lib
