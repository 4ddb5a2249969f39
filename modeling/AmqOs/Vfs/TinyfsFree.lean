import AmqOs.Vfs.TinyfsLinks

/-!
# Freeing chains of any table

`free_block_chain` clears an entry before it follows the old link, so it ends on tables with cyclic and merging chains
too: every round but the last one clears an entry that was not 0. `FreeRun` are the rounds of the loop, with the blocks
visited; these are reachable in the table as it was before (`FreeRun.reachable`), and no other entry changes
(`freeBlockChain_terminates`).
-/

set_option autoImplicit false

namespace AmqOs.Vfs

open AmqOs.Lib

/-- The end of a chain, or the number of an entry of the table. -/
def InTable (b : UInt32) : Prop := b = 0 ∨ b = eof ∨ b.toNat < 1024

/-- Every entry of the table ends a chain or leads to an entry of the table. -/
def TableSound (fat : Vector UInt32 1024) : Prop := ∀ (k : Nat) (v : UInt32), fat[k]? = some v → InTable v

/-- The link of block `a` leads to `b`. -/
def Follows (fat : Vector UInt32 1024) (a b : UInt32) : Prop := a ≠ eof ∧ a ≠ 0 ∧ fat[a.toNat]? = some b

/-- The rounds of the loop of `free_block_chain`, with the blocks that they visit. -/
inductive FreeRun : TinyfsData → UInt32 → List UInt32 → TinyfsData → Prop
  | stop {d : TinyfsData} {current : UInt32} : ¬ (current ≠ eof ∧ current ≠ 0) → FreeRun d current [] d
  | round {d d₁ d' : TinyfsData} {current next : UInt32} {visited : List UInt32} : current ≠ eof ∧ current ≠ 0 →
      d.fatGet current = .ok next → d.fatSet current 0 = .ok d₁ →
      FreeRun (d₁.setFree (d₁.sb.freeBlocks + 1)) next visited d' → FreeRun d current (current :: visited) d'

variable {d d' : TinyfsData} {current : UInt32} {visited : List UInt32}

/-- The rounds are those of the function. -/
theorem FreeRun.freeLoop_eq (h : FreeRun d current visited d') {fuel : Nat} (hfuel : visited.length < fuel) :
    freeLoop fuel d current = .ok d' := by
  induction h generalizing fuel with
  | stop hstop =>
    obtain ⟨fuel, rfl⟩ := Nat.exists_eq_succ_of_ne_zero (Nat.ne_of_gt hfuel)
    rw [freeLoop, if_neg hstop]
  | round hgo hget hset _ ih =>
    obtain ⟨fuel, rfl⟩ := Nat.exists_eq_succ_of_ne_zero (Nat.ne_zero_of_lt hfuel)
    rw [freeLoop, if_pos hgo, hget, ok_bind, hset, ok_bind]
    exact ih (Nat.lt_of_succ_lt_succ hfuel)

theorem FreeRun.visited_ne (h : FreeRun d current visited d') {b : UInt32} (hb : b ∈ visited) : b ≠ eof ∧ b ≠ 0 := by
  induction h with
  | stop => cases hb
  | round hgo _ _ _ ih =>
    rcases List.mem_cons.mp hb with rfl | hb
    · exact hgo
    · exact ih hb

/-- What a round leaves before it goes on. -/
theorem fatSet_zero_ok {d₁ : TinyfsData} (h : d.fatSet current 0 = .ok d₁) :
    current.toNat < 1024 ∧ d₁ = { d with fat := fatPut d.fat current.toNat 0 } := by
  by_cases hlt : current.toNat < 1024
  · rw [fatSet_eq hlt] at h
    exact ⟨hlt, (Except.ok.inj h).symm⟩
  · rw [TinyfsData.fatSet, dif_neg hlt] at h
    cases h

theorem fatGet_ok {next : UInt32} (h : d.fatGet current = .ok next) : d.fat[current.toNat]? = some next := by
  unfold TinyfsData.fatGet at h
  split at h
  · rename_i v hv
    rw [hv, Except.ok.inj h]
  · cases h

/-- The rounds clear the entries that they visit and no others. -/
theorem FreeRun.entries (h : FreeRun d current visited d') (k : Nat) :
    ((∃ b ∈ visited, b.toNat = k) ∨ d.fat[k]? = some 0 → d'.fat[k]? = some 0) ∧
      ((∀ b ∈ visited, b.toNat ≠ k) → d'.fat[k]? = d.fat[k]?) := by
  induction h with
  | stop => simp
  | @round d d₁ d' current next visited hgo hget hset _ ih =>
    obtain ⟨hlt, rfl⟩ := fatSet_zero_ok hset
    change ((∃ b ∈ visited, b.toNat = k) ∨ (fatPut d.fat current.toNat 0)[k]? = some 0 → _) ∧
      (_ → _ = (fatPut d.fat current.toNat 0)[k]?) at ih
    rw [fatPut_getElem? hlt] at ih
    constructor
    · rintro (⟨b, hb, hbk⟩ | hzero)
      · rcases List.mem_cons.mp hb with rfl | hb
        · exact ih.1 (.inr (if_pos hbk))
        · exact ih.1 (.inl ⟨b, hb, hbk⟩)
      · refine ih.1 (.inr ?_)
        split
        · rfl
        · exact hzero
    · intro hne
      rw [ih.2 fun b hb => hne b (List.mem_cons_of_mem _ hb), if_neg (hne current List.mem_cons_self)]

/-- A path in the table with a cleared entry is one in the table before, or ends in 0. -/
theorem follows_cleared {fat : Vector UInt32 1024} (hc : current.toNat < 1024) {a b : UInt32}
    (h : Relation.ReflTransGen (Follows (fatPut fat current.toNat 0)) a b) :
    b = 0 ∨ Relation.ReflTransGen (Follows fat) a b := by
  induction h with
  | refl => exact .inr .refl
  | @tail x y _ hxy ih =>
    obtain ⟨hx, hx0, hget⟩ := hxy
    have hpath := ih.resolve_left hx0
    by_cases hxc : x.toNat = current.toNat
    · rw [hxc, fatPut_self hc] at hget
      exact .inl (Option.some.inj hget).symm
    · rw [fatPut_of_ne hc hxc] at hget
      exact .inr (hpath.tail ⟨hx, hx0, hget⟩)

/-- The blocks visited are reachable in the table as it was. -/
theorem FreeRun.reachable (h : FreeRun d current visited d') :
    ∀ b ∈ visited, Relation.ReflTransGen (Follows d.fat) current b := by
  induction h with
  | stop => simp
  | @round d d₁ d' current next visited hgo hget hset hrun ih =>
    obtain ⟨hlt, rfl⟩ := fatSet_zero_ok hset
    intro b hb
    rcases List.mem_cons.mp hb with rfl | hb
    · exact .refl
    · have hpath := (follows_cleared hlt (ih b hb)).resolve_left (hrun.visited_ne hb).2
      exact .head ⟨hgo.1, hgo.2, fatGet_ok hget⟩ hpath

/-- The loop ends: every round but the last one clears an entry that is not 0. -/
theorem exists_freeRun (hd : TableSound d.fat) (hc : InTable current) :
    ∃ visited d', FreeRun d current visited d' ∧ visited.length ≤ linkedCount d.fat + 1 := by
  induction hn : linkedCount d.fat using Nat.strong_induction_on generalizing d current with
  | _ n ih =>
    by_cases hgo : current ≠ eof ∧ current ≠ 0
    · have hlt : current.toNat < 1024 := (hc.resolve_left hgo.2).resolve_left hgo.1
      obtain ⟨next, hnext⟩ : ∃ next, d.fat[current.toNat]? = some next := ⟨_, Vector.getElem?_eq_getElem hlt⟩
      have hround : ∀ {visited : List UInt32} {d' : TinyfsData},
          FreeRun (TinyfsData.setFree { d with fat := fatPut d.fat current.toNat 0 } (d.sb.freeBlocks + 1)) next visited
            d' → FreeRun d current (current :: visited) d' :=
        fun h => .round hgo (fatGet_eq hnext) (fatSet_eq hlt) h
      by_cases h0 : next = 0
      · exact ⟨_, _, hround (.stop fun h => h.2 h0), Nat.succ_le_succ (Nat.zero_le _)⟩
      · have hless : linkedCount (fatPut d.fat current.toNat 0) < n := hn ▸ linkedCount_clear hlt hnext h0
        obtain ⟨visited, d', hrun, hlen⟩ := @ih _ hless (TinyfsData.setFree { d with fat := fatPut d.fat current.toNat 0 }
          (d.sb.freeBlocks + 1)) next (fun k v hv => by
            change (fatPut d.fat current.toNat 0)[k]? = some v at hv
            rw [fatPut_getElem? hlt] at hv
            split at hv
            · exact .inl (Option.some.inj hv).symm
            · exact hd k v hv) (hd _ _ hnext) rfl
        exact ⟨_, _, hround hrun, by rw [List.length_cons]; omega⟩
    · exact ⟨[], d, .stop hgo, Nat.zero_le _⟩

/-- **`free_block_chain` ends on every table**, cyclic or not: it visits at most one block more than there are entries that
are not 0, each of which it leaves 0, and leaves every entry alone that cannot be reached from the first block. -/
theorem freeBlockChain_terminates (d : TinyfsData) (firstBlock : UInt32) (hd : TableSound d.fat)
    (hfirst : InTable firstBlock) :
    ∃ visited d', FreeRun d firstBlock visited d' ∧ freeBlockChain d firstBlock = .ok d' ∧
      visited.length ≤ linkedCount d.fat + 1 ∧ (∀ b ∈ visited, d'.fat[b.toNat]? = some 0) ∧
      ∀ k : UInt32, ¬ Relation.ReflTransGen (Follows d.fat) firstBlock k → d'.fat[k.toNat]? = d.fat[k.toNat]? := by
  obtain ⟨visited, d', hrun, hlen⟩ := exists_freeRun hd hfirst
  have hfuel : visited.length < 1026 := by have := linkedCount_le d.fat; omega
  refine ⟨visited, d', hrun, hrun.freeLoop_eq hfuel, hlen, fun b hb => ?_, fun k hk => ?_⟩
  · exact (hrun.entries b.toNat).1 (.inl ⟨b, hb, rfl⟩)
  · refine (hrun.entries k.toNat).2 fun b hb hbk => hk ?_
    rw [← UInt32.toNat_inj.mp hbk]
    exact hrun.reachable b hb

/-- A table in which block 5 leads to itself. -/
def cyclicData : TinyfsData := { blankData with fat := fatPut (Vector.replicate 1024 0) 5 5 }

theorem cyclicData_sound : TableSound cyclicData.fat := by
  intro k v hv
  change (fatPut (Vector.replicate 1024 0) 5 5)[k]? = some v at hv
  rw [fatPut_getElem? (by norm_num)] at hv
  split at hv
  · obtain rfl := Option.some.inj hv
    exact .inr (.inr (by decide))
  · rw [Vector.getElem?_replicate] at hv
    split at hv
    · exact .inl (Option.some.inj hv).symm
    · cases hv

theorem freeBlockChain_terminates_cyclic :
    ∃ visited d', FreeRun cyclicData 5 visited d' ∧ freeBlockChain cyclicData 5 = .ok d' ∧
      visited.length ≤ linkedCount cyclicData.fat + 1 ∧ (∀ b ∈ visited, d'.fat[b.toNat]? = some 0) ∧
      ∀ k : UInt32, ¬ Relation.ReflTransGen (Follows cyclicData.fat) 5 k →
        d'.fat[k.toNat]? = cyclicData.fat[k.toNat]? :=
  freeBlockChain_terminates cyclicData 5 cyclicData_sound (.inr (.inr (by decide)))

end AmqOs.Vfs
