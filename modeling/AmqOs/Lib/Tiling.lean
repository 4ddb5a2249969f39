import AmqOs.Lib.Chain

/-!
# Tilings of memory regions

A region of addresses is tiled by blocks: each block `a` is `len a` addresses long, the first block starts where the
region starts, and each block ends where the next one starts or where the region ends. `Tiles len rs B` says so of the
blocks `B` of the regions `rs`.

- only the lengths of blocks matter (`Tiles.congr`);
- a block can be cut in two (`Tiles.split`), two neighbours of one region joined (`Tiles.merge`) and a region of one
  block added (`Tiles.add`);
- blocks are together not longer than what they lie in (`Tiles.sum_lt`);
- stepping from block to block visits exactly the blocks of a region (`Tiles.iff_reached`) and arrives at its end
  (`Tiles.chain`); on the way to a block it visits those before it (`Tiles.chain_before`).
-/

set_option autoImplicit false

namespace AmqOs.Lib

/-- The addresses from `start` up to `stop`. -/
structure Region where
  start : Nat
  stop : Nat
  deriving DecidableEq

structure Tiles (len : Nat → Nat) (rs : List Region) (B : Nat → Prop) : Prop where
  proper : ∀ r ∈ rs, r.start < r.stop
  regions : ∀ r ∈ rs, ∀ r' ∈ rs, r ≠ r' → r.stop ≤ r'.start ∨ r'.stop ≤ r.start
  pos : ∀ a, B a → 0 < len a
  first : ∀ r ∈ rs, B r.start
  inside : ∀ a, B a → ∃ r ∈ rs, r.start ≤ a ∧ a + len a ≤ r.stop
  next : ∀ a, B a → ∀ r ∈ rs, r.start ≤ a → a < r.stop → a + len a = r.stop ∨ B (a + len a)
  apart : ∀ a b, B a → B b → a < b → a + len a ≤ b

namespace Tiles

variable {len len' : Nat → Nat} {rs : List Region} {B : Nat → Prop} {r : Region} {a b c : Nat}

/-- A block lies in the region that its first address is in. -/
theorem within (h : Tiles len rs B) (ha : B a) (hr : r ∈ rs) (h1 : r.start ≤ a) (h2 : a < r.stop) :
    a + len a ≤ r.stop := by
  obtain ⟨r', hr', h3, h4⟩ := h.inside a ha
  have hpos := h.pos a ha
  by_cases he : r = r'
  · rw [he]
    exact h4
  · have hap := h.regions r hr r' hr' he
    omega

/-- An address is in one region only. -/
theorem region_unique (h : Tiles len rs B) (hr : r ∈ rs) {r' : Region} (hr' : r' ∈ rs) (h1 : r.start ≤ a)
    (h2 : a < r.stop) (h3 : r'.start ≤ a) (h4 : a < r'.stop) : r = r' := by
  by_contra hne
  have hap := h.regions r hr r' hr' hne
  omega

theorem congr (h : Tiles len rs B) (hag : ∀ a, B a → len' a = len a) : Tiles len' rs B := by
  constructor
  · exact h.proper
  · exact h.regions
  · intro a ha
    rw [hag a ha]
    exact h.pos a ha
  · exact h.first
  · intro a ha
    rw [hag a ha]
    exact h.inside a ha
  · intro a ha r hr h1 h2
    rw [hag a ha]
    exact h.next a ha r hr h1 h2
  · intro a b ha hb hab
    rw [hag a ha]
    exact h.apart a b ha hb hab

/-- The block `b` is cut after `k` addresses. -/
theorem split {k : Nat} (h : Tiles len rs B) (hb : B b) (hk : 0 < k) (hlt : k < len b) (hfirst : len' b = k)
    (hsecond : len' (b + k) = len b - k) (hag : ∀ a, B a → a ≠ b → len' a = len a) :
    Tiles len' rs fun a => B a ∨ a = b + k := by
  -- a block does not meet the inside of another
  have hout : ∀ a, B a → a ≠ b → a + len a ≤ b ∨ b + len b ≤ a := by
    intro a ha hne
    rcases Nat.lt_or_gt_of_ne hne with hlt | hgt
    · exact .inl (h.apart a b ha hb hlt)
    · exact .inr (h.apart b a hb ha hgt)
  constructor
  · exact h.proper
  · exact h.regions
  · rintro a (ha | rfl)
    · by_cases he : a = b
      · rw [he, hfirst]
        exact hk
      · rw [hag a ha he]
        exact h.pos a ha
    · omega
  · intro r hr
    exact .inl (h.first r hr)
  · rintro a (ha | rfl)
    · by_cases he : a = b
      · subst he
        obtain ⟨r, hr, h1, h2⟩ := h.inside a ha
        exact ⟨r, hr, h1, by omega⟩
      · rw [hag a ha he]
        exact h.inside a ha
    · obtain ⟨r, hr, h1, h2⟩ := h.inside b hb
      exact ⟨r, hr, by omega, by omega⟩
  · rintro a (ha | rfl) r hr h1 h2
    · by_cases he : a = b
      · subst he
        rw [hfirst]
        exact .inr (.inr rfl)
      · rw [hag a ha he]
        exact (h.next a ha r hr h1 h2).imp_right .inl
    · obtain ⟨r', hr', h3, h4⟩ := h.inside b hb
      have he : r' = r := h.region_unique hr' hr (a := b + k) (by omega) (by omega) h1 h2
      subst he
      rw [hsecond, show b + k + (len b - k) = b + len b by omega]
      exact (h.next b hb r' hr h3 (by omega)).imp_right .inl
  · rintro a a' (ha | rfl) (ha' | rfl) hlt'
    · by_cases he : a = b
      · subst he
        have hap := h.apart a a' ha ha' hlt'
        omega
      · rw [hag a ha he]
        exact h.apart a a' ha ha' hlt'
    · by_cases he : a = b
      · subst he
        omega
      · rw [hag a ha he]
        have hap := hout a ha he
        omega
    · rw [hsecond]
      have hne : a' ≠ b := by omega
      have hap := hout a' ha' hne
      have hpos := h.pos a' ha'
      omega
    · omega

/-- The block `b` takes in the block after it, which is not the first of a region. -/
theorem merge (h : Tiles len rs B) (hb : B b) (hc : B (b + len b)) (hin : ∀ r ∈ rs, r.start ≠ b + len b)
    (hjoin : len' b = len b + len (b + len b)) (hag : ∀ a, B a → a ≠ b → a ≠ b + len b → len' a = len a) :
    Tiles len' rs fun a => B a ∧ a ≠ b + len b := by
  have hpb := h.pos b hb
  have hpc := h.pos _ hc
  obtain ⟨r₀, hr₀, hb1, hb2⟩ := h.inside b hb
  have hlt₀ : b + len b < r₀.stop := by
    obtain ⟨r, hr, h1, h2⟩ := h.inside _ hc
    by_cases he : r = r₀
    · subst he
      omega
    · have hap := h.regions r hr r₀ hr₀ he
      have hne := hin r hr
      omega
  have hend := h.within hc hr₀ (by omega) hlt₀
  constructor
  · exact h.proper
  · exact h.regions
  · rintro a ⟨ha, hne⟩
    by_cases he : a = b
    · rw [he, hjoin]
      omega
    · rw [hag a ha he hne]
      exact h.pos a ha
  · intro r hr
    exact ⟨h.first r hr, hin r hr⟩
  · rintro a ⟨ha, hne⟩
    by_cases he : a = b
    · subst he
      exact ⟨r₀, hr₀, hb1, by omega⟩
    · rw [hag a ha he hne]
      exact h.inside a ha
  · rintro a ⟨ha, hne⟩ r hr h1 h2
    by_cases he : a = b
    · subst he
      obtain rfl : r₀ = r := h.region_unique hr₀ hr (a := a) hb1 (by omega) h1 h2
      rw [hjoin, ← Nat.add_assoc]
      rcases h.next _ hc r₀ hr (by omega) hlt₀ with hstop | hn
      · exact .inl hstop
      · exact .inr ⟨hn, by omega⟩
    · rw [hag a ha he hne]
      rcases h.next a ha r hr h1 h2 with hstop | hn
      · exact .inl hstop
      · refine .inr ⟨hn, ?_⟩
        intro heq
        -- only `b` ends where the joined block started
        rcases Nat.lt_or_gt_of_ne he with hab | hab
        · have hap := h.apart a b ha hb hab
          omega
        · have hap := h.apart b a hb ha hab
          have hpos := h.pos a ha
          omega
  · rintro a a' ⟨ha, hne⟩ ⟨ha', hne'⟩ hlt
    by_cases he : a = b
    · subst he
      have hap := h.apart a a' ha ha' hlt
      have hap' := h.apart _ a' hc ha' (by omega)
      omega
    · rw [hag a ha he hne]
      exact h.apart a a' ha ha' hlt

/-- A region of one block is added. -/
theorem add (h : Tiles len rs B) (hr : r.start < r.stop) (hnew : ∀ r' ∈ rs, r.stop ≤ r'.start ∨ r'.stop ≤ r.start)
    (hwhole : len' r.start = r.stop - r.start) (hag : ∀ a, B a → len' a = len a) :
    Tiles len' (r :: rs) fun a => B a ∨ a = r.start := by
  have hin : ∀ a, B a → a + len a ≤ r.start ∨ r.stop ≤ a := by
    intro a ha
    obtain ⟨r', hr', h1, h2⟩ := h.inside a ha
    have hap := hnew r' hr'
    omega
  constructor
  · intro r' hr'
    rcases List.mem_cons.mp hr' with rfl | hr'
    · exact hr
    · exact h.proper r' hr'
  · intro r₁ hr₁ r₂ hr₂ hne
    rcases List.mem_cons.mp hr₁ with he₁ | hold₁ <;> rcases List.mem_cons.mp hr₂ with he₂ | hold₂
    · exact absurd (he₁.trans he₂.symm) hne
    · exact he₁ ▸ hnew r₂ hold₂
    · exact he₂ ▸ (hnew r₁ hold₁).symm
    · exact h.regions r₁ hold₁ r₂ hold₂ hne
  · rintro a (ha | rfl)
    · rw [hag a ha]
      exact h.pos a ha
    · omega
  · intro r' hr'
    rcases List.mem_cons.mp hr' with rfl | hr'
    · exact .inr rfl
    · exact .inl (h.first r' hr')
  · rintro a (ha | rfl)
    · obtain ⟨r', hr', h1, h2⟩ := h.inside a ha
      rw [hag a ha]
      exact ⟨r', List.mem_cons_of_mem _ hr', h1, h2⟩
    · exact ⟨r, List.mem_cons_self, le_refl _, by omega⟩
  · rintro a (ha | rfl) r' hr' h1 h2
    · rcases List.mem_cons.mp hr' with rfl | hr'
      · have hpos := h.pos a ha
        have ho := hin a ha
        omega
      · rw [hag a ha]
        exact (h.next a ha r' hr' h1 h2).imp_right .inl
    · rcases List.mem_cons.mp hr' with rfl | hr'
      · exact .inl (by omega)
      · have hap := hnew r' hr'
        omega
  · rintro a b (ha | rfl) (hb | rfl) hlt
    · rw [hag a ha]
      exact h.apart a b ha hb hlt
    · rw [hag a ha]
      have ho := hin a ha
      omega
    · have ho := hin b hb
      omega
    · omega

/-- Stepping from a block on arrives at the end of its region. -/
theorem chain_from (h : Tiles len rs B) (hr : r ∈ rs) (n : Nat) :
    ∀ a, B a → r.start ≤ a → a < r.stop → r.stop - a ≤ n →
      ∃ l, ChainTo (fun a => some (a + len a)) r.stop a l := by
  induction n with
  | zero =>
    intro a _ _ h2 h3
    omega
  | succ n ih =>
    intro a ha h1 h2 h3
    have hpos := h.pos a ha
    have hwithin := h.within ha hr h1 h2
    by_cases hstop : a + len a = r.stop
    · refine ⟨[a], .cons (by omega) rfl ?_⟩
      rw [hstop]
      exact .nil
    · have hn := (h.next a ha r hr h1 h2).resolve_left hstop
      obtain ⟨l, hl⟩ := ih (a + len a) hn (by omega) (by omega) (by omega)
      exact ⟨a :: l, .cons (by omega) rfl hl⟩

theorem chain (h : Tiles len rs B) (hr : r ∈ rs) :
    ∃ l, ChainTo (fun a => some (a + len a)) r.stop r.start l :=
  h.chain_from hr (r.stop - r.start) r.start (h.first r hr) (le_refl _) (h.proper r hr) (le_refl _)

/-- Stepping from a block on arrives at every later block of its region. -/
theorem reached_from (h : Tiles len rs B) (hr : r ∈ rs) (ha : B a) (hlt : a < r.stop) (n : Nat) :
    ∀ x, B x → r.start ≤ x → x ≤ a → a - x ≤ n →
      Relation.ReflTransGen (fun x y => y = x + len x ∧ y < r.stop) x a := by
  induction n with
  | zero =>
    intro x _ _ h2 h3
    obtain rfl : x = a := by omega
    exact .refl
  | succ n ih =>
    intro x hx h1 h2 h3
    by_cases he : x = a
    · rw [he]
    · have hle := h.apart x a hx ha (by omega)
      have hpos := h.pos x hx
      have hn := (h.next x hx r hr h1 (by omega)).resolve_left (by omega)
      exact .head ⟨rfl, by omega⟩ (ih _ hn (by omega) hle (by omega))

/-- Stepping from a block to a later one of its region, by way of the blocks between them. -/
theorem chain_up (h : Tiles len rs B) (hr : r ∈ rs) (ha : B a) (hlt : a < r.stop) (n : Nat) :
    ∀ x, B x → r.start ≤ x → x ≤ a → a - x ≤ n →
      ∃ l, ChainTo (fun a => some (a + len a)) a x l ∧ ∀ y ∈ l, B y := by
  induction n with
  | zero =>
    intro x _ _ h2 h3
    obtain rfl : x = a := by omega
    exact ⟨[], .nil, by simp⟩
  | succ n ih =>
    intro x hx h1 h2 h3
    by_cases he : x = a
    · rw [he]
      exact ⟨[], .nil, by simp⟩
    · have hle := h.apart x a hx ha (by omega)
      have hpos := h.pos x hx
      have hn := (h.next x hx r hr h1 (by omega)).resolve_left (by omega)
      obtain ⟨l, hl, hB⟩ := ih _ hn (by omega) hle (by omega)
      refine ⟨x :: l, .cons he rfl hl, fun y hy => ?_⟩
      rcases List.mem_cons.mp hy with rfl | hy
      · exact hx
      · exact hB y hy

theorem chain_before (h : Tiles len rs B) (hr : r ∈ rs) (ha : B a) (h1 : r.start ≤ a) (h2 : a < r.stop) :
    ∃ l, ChainTo (fun a => some (a + len a)) a r.start l ∧ ∀ y ∈ l, B y :=
  h.chain_up hr ha h2 (a - r.start) r.start (h.first r hr) (le_refl _) h1 (le_refl _)

theorem le_of_chain {l : List Nat} (hc : ChainTo (fun a => some (a + len a)) b a l) : a ≤ b := by
  induction hc with
  | nil => exact le_refl _
  | cons _ hn _ ih =>
    cases hn
    omega

/-- **The blocks** are what stepping from the start of a region arrives at before its end. -/
theorem iff_reached (h : Tiles len rs B) :
    B a ↔ ∃ r ∈ rs, Relation.ReflTransGen (fun x y => y = x + len x ∧ y < r.stop) r.start a := by
  constructor
  · intro ha
    obtain ⟨r, hr, h1, h2⟩ := h.inside a ha
    have hpos := h.pos a ha
    exact ⟨r, hr, h.reached_from hr ha (by omega) _ r.start (h.first r hr) (le_refl _) h1 (le_refl _)⟩
  · rintro ⟨r, hr, hreach⟩
    suffices hin : B a ∧ r.start ≤ a ∧ a < r.stop from hin.1
    induction hreach with
    | refl => exact ⟨h.first r hr, le_refl _, h.proper r hr⟩
    | tail _ hstep ih =>
      obtain ⟨rfl, hlt⟩ := hstep
      obtain ⟨hb, h1, h2⟩ := ih
      exact ⟨(h.next _ hb r hr h1 h2).resolve_left (by omega), by omega, hlt⟩

/-- Blocks do not overlap, so together they are not longer than the addresses they are among. -/
theorem sum_lt (h : Tiles len rs B) {top : Nat} (htop : ∀ r ∈ rs, 0 < r.start ∧ r.stop ≤ top) (h0 : 0 < top)
    {l : List Nat} (hl : ∀ a ∈ l, B a) (hnd : l.Nodup) : (l.map len).sum < top := by
  have hdisj : Set.PairwiseDisjoint (↑l.toFinset) fun a => Finset.Ico a (a + len a) := by
    intro a ha b hb hne
    rw [Function.onFun, Finset.disjoint_left]
    intro x hxa hxb
    rw [Finset.mem_Ico] at hxa hxb
    have ha' := hl a (List.mem_toFinset.mp ha)
    have hb' := hl b (List.mem_toFinset.mp hb)
    rcases Nat.lt_or_gt_of_ne hne with hlt | hgt
    · have hap := h.apart a b ha' hb' hlt
      omega
    · have hap := h.apart b a hb' ha' hgt
      omega
  have hsub : l.toFinset.biUnion (fun a => Finset.Ico a (a + len a)) ⊆ Finset.Ico 1 top := by
    intro x hx
    obtain ⟨a, ha, hxa⟩ := Finset.mem_biUnion.mp hx
    obtain ⟨r, hr, h1, h2⟩ := h.inside a (hl a (List.mem_toFinset.mp ha))
    have hr' := htop r hr
    rw [Finset.mem_Ico] at hxa ⊢
    omega
  have hcard := Finset.card_le_card hsub
  rw [Finset.card_biUnion hdisj, Nat.card_Ico] at hcard
  simp only [Nat.card_Ico, Nat.add_sub_cancel_left] at hcard
  rw [List.sum_toFinset len hnd] at hcard
  omega

end Tiles

end AmqOs.Lib
