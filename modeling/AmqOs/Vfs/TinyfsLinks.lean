import AmqOs.Vfs.TinyfsFrame
import AmqOs.Vfs.TinyfsOps

/-!
# Links that stay in the table

Which blocks the loops visit on tables that need not be sound: chains may be cyclic, share blocks, or go on to block 0
where a block was freed under them. `Links d live G` says that from the first block of a live entry `i` the links stay
in the set `G i`, which is closed (`Closed`), and that sets with a common block hold block 0.

One lemma for each loop (`nextBlock_links`, `extendLoop_links`, `writeLoop_links`, `readWalk_links`, `readLoop_links`,
`freeLoop_links`): it does not leave the table, it ends, and there are sets for the tables it leaves.
-/

set_option autoImplicit false

namespace AmqOs.Vfs

open AmqOs.Lib

/-- Every link from a block of the set leads into the set, or ends. -/
def Closed (fat : Vector UInt32 1024) (G : Set Nat) : Prop := ∀ b ∈ G, ∃ v, fat[b]? = some v ∧ (v = eof ∨ v.toNat ∈ G)

/-- The first block of entry `i` is in the set, or it has none and at most one byte. -/
def StartsIn (d : TinyfsData) (i : Fin 256) (G : Set Nat) : Prop :=
  (d.dirents.get i).firstBlock.toNat ∈ G ∨ (d.dirents.get i).firstBlock = 0 ∧ (d.dirents.get i).size ≤ 1

structure Links (d : TinyfsData) (live : Fin 256 → Prop) (G : Fin 256 → Set Nat) : Prop where
  table : d.sb.totalBlocks ≤ 1024 ∨ d.sb.totalBlocks ≤ d.sb.dataStart
  closed : ∀ i, Closed d.fat (G i)
  start : ∀ i, live i → StartsIn d i (G i)
  shared : ∀ i j b, i ≠ j → b ∈ G i → b ∈ G j → 0 ∈ G i

section Tables

variable {d d' : TinyfsData} {fat : Vector UInt32 1024} {live : Fin 256 → Prop} {G : Fin 256 → Set Nat} {i : Fin 256}
  {S X : Set Nat} {b : Nat} {v : UInt32}

theorem Closed.lt (h : Closed fat S) (hb : b ∈ S) : b < 1024 := by
  obtain ⟨v, hv, -⟩ := h b hb
  exact (Vector.getElem?_eq_some_iff.mp hv).1

theorem Closed.union (h : Closed fat S) (h' : Closed fat X) : Closed fat (S ∪ X) := by
  rintro b (hb | hb)
  · obtain ⟨v, hv, hnext⟩ := h b hb
    exact ⟨v, hv, hnext.imp_right (.inl ·)⟩
  · obtain ⟨v, hv, hnext⟩ := h' b hb
    exact ⟨v, hv, hnext.imp_right (.inr ·)⟩

/-- A link is changed to one that stays. -/
theorem Closed.put (h : Closed fat S) (hb : b < 1024) (hv : b ∈ S → v = eof ∨ v.toNat ∈ S) :
    Closed (fatPut fat b v) S := by
  intro c hc
  by_cases hcb : c = b
  · subst hcb
    exact ⟨v, fatPut_self hb, hv hc⟩
  · rw [fatPut_of_ne hb hcb]
    exact h c hc

/-- A link is changed to one that stays in every set with its block. -/
theorem Links.put (h : Links d live G) (hb : b < 1024) (hin : ∀ j, b ∈ G j → v = eof ∨ v.toNat ∈ G j) :
    Links { d with fat := fatPut d.fat b v } live G :=
  ⟨h.table, fun j => (h.closed j).put hb (hin j), h.start, h.shared⟩

/-- The counter is not looked at. -/
theorem Links.setFree (h : Links d live G) (n : UInt32) : Links (d.setFree n) live G :=
  ⟨h.table, h.closed, h.start, h.shared⟩

theorem subset_update (G : Fin 256 → Set Nat) (i : Fin 256) (X : Set Nat) (j : Fin 256) :
    G j ⊆ Function.update G i (G i ∪ X) j := by
  intro b hb
  by_cases hji : j = i
  · subst hji
    rw [Function.update_self]
    exact .inl hb
  · rwa [Function.update_of_ne hji]

/-- The set of entry `i` gets larger by a closed set. -/
theorem Links.add (h : Links d live G) (i : Fin 256) (hX : Closed d.fat X)
    (hshared : ∀ j b, j ≠ i → b ∈ X → b ∈ G j → 0 ∈ G j ∧ 0 ∈ X) :
    Links d live (Function.update G i (G i ∪ X)) := by
  refine ⟨h.table, fun j => ?_, fun j hj => (h.start j hj).imp_left (subset_update G i X j ·),
    fun j k b hjk hbj hbk => ?_⟩
  · by_cases hji : j = i
    · subst hji
      rw [Function.update_self]
      exact (h.closed j).union hX
    · rw [Function.update_of_ne hji]
      exact h.closed j
  · by_cases hji : j = i
    · subst hji
      rw [Function.update_self] at hbj ⊢
      rw [Function.update_of_ne (Ne.symm hjk)] at hbk
      rcases hbj with hbj | hbj
      · exact .inl (h.shared j k b hjk hbj hbk)
      · exact .inr (hshared k b (Ne.symm hjk) hbj hbk).2
    · rw [Function.update_of_ne hji] at hbj ⊢
      by_cases hki : k = i
      · subst hki
        rw [Function.update_self] at hbk
        rcases hbk with hbk | hbk
        · exact h.shared j k b hjk hbj hbk
        · exact (hshared j b hji hbk hbj).1
      · rw [Function.update_of_ne hki] at hbk
        exact h.shared j k b hjk hbj hbk

/-- What a step on behalf of entry `i` leaves: sets that are at least as large, with the block it returns. -/
structure Grows (d' : TinyfsData) (live : Fin 256 → Prop) (G G' : Fin 256 → Set Nat) (i : Fin 256)
    (r : Option UInt32) : Prop where
  links : Links d' live G'
  le : ∀ j, G j ⊆ G' j
  mem : ∀ b, r = some b → b.toNat ∈ G' i

/-- **Allocation** for entry `i`. -/
theorem allocateBlock_links (h : Links d live G) (i : Fin 256) :
    ∃ r d' G', allocateBlock d = .ok (r, d') ∧ Grows d' live G G' i r := by
  unfold allocateBlock
  cases hf : firstFrom d.sb.dataStart.toNat d.sb.totalBlocks.toNat (fun i => (d.fat[i]?).all (· == 0)) with
  | none => exact ⟨none, d, G, rfl, h, fun _ _ hb => hb, fun _ hr => by cases hr⟩
  | some k =>
    obtain ⟨hlo, hhi, hfree, -⟩ := firstFrom_eq_some.mp hf
    have hk : k < 1024 := by
      rcases h.table with ht | ht
      · have ht' : d.sb.totalBlocks.toNat ≤ 1024 := UInt32.le_iff_toNat_le.mp ht
        omega
      · have ht' := UInt32.le_iff_toNat_le.mp ht
        omega
    have hkn : (UInt32.ofNat k).toNat = k := by rw [UInt32.toNat_ofNat']; omega
    have hzero : d.fat[k]? = some 0 := by
      rw [getElem?_of_lt _ hk] at hfree ⊢
      simpa using hfree
    have hput : Links (TinyfsData.setFree { d with fat := fatPut d.fat k eof } (d.sb.freeBlocks - 1)) live G :=
      (h.put hk fun _ _ => .inl rfl).setFree _
    have hset : d.fatSet (UInt32.ofNat k) eof = .ok { d with fat := fatPut d.fat k eof } := by
      rw [fatSet_eq (by omega), hkn]
    simp only [hset, ok_bind]
    by_cases hused : ∃ j, k ∈ G j
    · -- another chain leads to the block, and from it to block 0
      obtain ⟨j, hj⟩ := hused
      have h0 : 0 ∈ G j := by
        obtain ⟨v, hv, hnext⟩ := h.closed j k hj
        obtain rfl := Option.some.inj (hzero.symm.trans hv)
        exact hnext.resolve_left (by decide)
      refine ⟨_, _, _, rfl, hput.add i (hput.closed j) fun l b hl hbj hbl => ⟨?_, h0⟩, subset_update G i (G j),
        fun b hb => ?_⟩
      · by_cases hlj : l = j
        · exact hlj ▸ h0
        · exact h.shared l j b hlj hbl hbj
      · obtain rfl := Option.some.inj hb
        rw [Function.update_self, hkn]
        exact .inr hj
    · have hnew : Closed (fatPut d.fat k eof) {k} := by
        rintro c rfl
        exact ⟨eof, fatPut_self hk, .inl rfl⟩
      refine ⟨_, _, _, rfl, hput.add i hnew fun l b _ hb hbl => ?_, subset_update G i {k}, fun b hb => ?_⟩
      · obtain rfl := Set.mem_singleton_iff.mp hb
        exact absurd ⟨l, hbl⟩ hused
      · obtain rfl := Option.some.inj hb
        rw [Function.update_self, hkn]
        exact .inr rfl

/-- **Linking** a block of the set of entry `i` to another: chains that share it go on like that of entry `i`. -/
theorem Links.link (h : Links d live G) {cur b : UInt32} (hcur : cur.toNat ∈ G i) (hb : b.toNat ∈ G i) :
    ∃ d' G', d.fatSet cur b = .ok d' ∧ Links d' live G' ∧ (∀ j, G j ⊆ G' j) ∧ d'.fat[cur.toNat]? = some b := by
  have hlt := (h.closed i).lt hcur
  refine ⟨{ d with fat := fatPut d.fat cur.toNat b }, fun j => {x | x ∈ G j ∨ cur.toNat ∈ G j ∧ x ∈ G i},
    fatSet_eq hlt, ⟨h.table, fun j x hx => ?_, fun j hj => ?_, fun j k x hjk hxj hxk => ?_⟩,
    fun j x hx => .inl hx, fatPut_self hlt⟩
  · by_cases hxc : x = cur.toNat
    · have hj : cur.toNat ∈ G j := by
        rcases hx with hx | hx
        · exact hxc ▸ hx
        · exact hx.1
      exact ⟨b, by rw [hxc]; exact fatPut_self hlt, .inr (.inr ⟨hj, hb⟩)⟩
    · simp only [fatPut_of_ne hlt hxc]
      rcases hx with hx | ⟨hj, hx⟩
      · obtain ⟨v, hv, hnext⟩ := h.closed j x hx
        exact ⟨v, hv, hnext.imp_right (.inl ·)⟩
      · obtain ⟨v, hv, hnext⟩ := h.closed i x hx
        exact ⟨v, hv, hnext.imp_right fun hvi => .inr ⟨hj, hvi⟩⟩
  · exact (h.start j hj).imp_left (.inl ·)
  · -- two chains that come to share a block both had block 0 before, or shared one with entry `i`
    rcases hxj with hxj | ⟨hcj, hxi⟩
    · rcases hxk with hxk | ⟨hck, hxi⟩
      · exact .inl (h.shared j k x hjk hxj hxk)
      · by_cases hji : j = i
        · subst hji
          exact .inl (h.shared j k _ hjk hcur hck)
        · exact .inl (h.shared j i x hji hxj hxi)
    · by_cases hji : j = i
      · subst hji
        rcases hxk with hxk | ⟨hck, -⟩
        · exact .inl (h.shared j k x hjk hxi hxk)
        · exact .inl (h.shared j k _ hjk hcur hck)
      · exact .inl (h.shared j i _ hji hcj hcur)

/-- **Going on** to the next block. -/
theorem nextBlock_links (h : Links d live G) {cur : UInt32} (hcur : cur.toNat ∈ G i) :
    ∃ r d' G', nextBlock d cur = .ok (r, d') ∧ Grows d' live G G' i r := by
  obtain ⟨v, hv, hnext⟩ := h.closed i _ hcur
  unfold nextBlock
  rw [fatGet_eq hv, ok_bind]
  by_cases he : v = eof
  · obtain ⟨r, d₁, G₁, ha, h₁⟩ := allocateBlock_links h i
    rw [if_pos he, ha, ok_bind]
    cases r with
    | none => exact ⟨none, d₁, G₁, rfl, h₁⟩
    | some b =>
      obtain ⟨d₂, G₂, hset, h₂, hle, hget⟩ := h₁.links.link (h₁.le i hcur) (h₁.mem b rfl)
      refine ⟨some b, d₂, G₂, ?_, h₂, fun j => (h₁.le j).trans (hle j), fun c hc => ?_⟩
      · simp only [hset, ok_bind, fatGet_eq hget]
      · obtain rfl := Option.some.inj hc
        exact hle i (h₁.mem b rfl)
  · rw [if_neg he, ok_bind]
    refine ⟨some v, d, G, rfl, h, fun _ _ hb => hb, fun c hc => ?_⟩
    obtain rfl := Option.some.inj hc
    exact hnext.resolve_left he

/-- **The extension loop.** -/
theorem extendLoop_links (h : Links d live G) {cur : UInt32} (hcur : cur.toNat ∈ G i) (n : Nat) :
    ∃ r d' G', extendLoop n d cur = .ok (r, d') ∧ Grows d' live G G' i r := by
  induction n generalizing d G cur with
  | zero =>
    refine ⟨some cur, d, G, rfl, h, fun _ _ hb => hb, fun c hc => ?_⟩
    obtain rfl := Option.some.inj hc
    exact hcur
  | succ n ih =>
    obtain ⟨r, d₁, G₁, hn, h₁⟩ := nextBlock_links h hcur
    rw [extendLoop, hn, ok_bind]
    cases r with
    | none => exact ⟨none, d₁, G₁, rfl, h₁⟩
    | some b =>
      obtain ⟨r, d₂, G₂, hx, h₂⟩ := ih h₁.links (h₁.mem b rfl)
      exact ⟨r, d₂, G₂, hx, h₂.links, fun j => (h₁.le j).trans (h₂.le j), h₂.mem⟩

/-- **The writing loop**, on any disk. -/
theorem writeLoop_links (buffer : List UInt8) (size fuel : Nat) (h : Links d live G) {cur : UInt32}
    (hcur : cur.toNat ∈ G i) (disk : Disk) (bo w : Nat) (bb : Mem) :
    ∃ r d' disk' G', writeLoop buffer size fuel d disk cur bo w bb = .ok (r, d', disk') ∧
      Links d' live G' ∧ ∀ j, G j ⊆ G' j := by
  induction fuel generalizing d G cur disk bo w bb with
  | zero => exact ⟨some w, d, disk, G, rfl, h, fun _ _ hb => hb⟩
  | succ fuel ih =>
    by_cases hlt : w < size
    · simp only [writeLoop_succ d buffer fuel disk cur bb hlt]
      generalize writeRound buffer size bo w disk cur bb = round
      split
      · exact ⟨none, d, round.2.2, G, rfl, h, fun _ _ hb => hb⟩
      · split
        · obtain ⟨r, d₁, G₁, hn, h₁⟩ := nextBlock_links h hcur
          rw [hn, ok_bind]
          cases r with
          | none => exact ⟨_, d₁, round.2.2, G₁, rfl, h₁.links, h₁.le⟩
          | some b =>
            obtain ⟨r, d₂, disk₂, G₂, hw, h₂, hle⟩ := ih h₁.links (h₁.mem b rfl) round.2.2 0 _ round.1
            exact ⟨r, d₂, disk₂, G₂, hw, h₂, fun j => (h₁.le j).trans (hle j)⟩
        · exact ih h hcur round.2.2 0 _ round.1
    · rw [writeLoop, if_neg hlt]
      exact ⟨some w, d, disk, G, rfl, h, fun _ _ hb => hb⟩

/-! ## Reading -/

theorem readWalk_links (h : Closed d.fat S) (n : Nat) {cur : UInt32} (hcur : cur = eof ∨ cur.toNat ∈ S) :
    ∃ cur', readWalk d n cur = .ok cur' ∧ (cur' = eof ∨ cur'.toNat ∈ S) := by
  induction n generalizing cur with
  | zero => exact ⟨cur, rfl, hcur⟩
  | succ n ih =>
    rw [readWalk]
    split
    · exact ⟨cur, rfl, hcur⟩
    · rename_i hne
      obtain ⟨v, hv, hnext⟩ := h _ (hcur.resolve_left hne)
      rw [fatGet_eq hv, ok_bind]
      exact ih hnext

/-- **The reading loop**, on any disk. -/
theorem readLoop_links (h : Closed d.fat S) (size : Nat) {fuel : Nat} {cur : UInt32} (hcur : cur = eof ∨ cur.toNat ∈ S)
    (bo : Nat) (acc : List UInt8) (disk : Disk) : ∃ out, readLoop d size fuel cur bo acc disk = .ok out := by
  induction fuel generalizing cur bo acc disk with
  | zero => exact ⟨_, rfl⟩
  | succ fuel ih =>
    rw [readLoop]
    split
    · rename_i hround
      obtain ⟨v, hv, hnext⟩ := h _ (hcur.resolve_left hround.2)
      split
      · exact ⟨_, rfl⟩
      · rw [fatGet_eq hv, ok_bind]
        exact ih hnext 0 _ _
    · exact ⟨_, rfl⟩

/-- A read of one byte looks at one link. -/
theorem readLoop_one {size fuel : Nat} (hsize : size ≤ 1) {cur : UInt32} (hcur : cur.toNat < 1024) {bo : Nat}
    (hbo : bo < 512) (disk : Disk) : ∃ out, readLoop d size fuel cur bo [] disk = .ok out := by
  cases fuel with
  | zero => exact ⟨_, rfl⟩
  | succ fuel =>
    rw [readLoop]
    split
    · rename_i hround
      have hpos : 0 < size := hround.1
      split
      · exact ⟨_, rfl⟩
      · rw [fatGet_eq (getElem?_of_lt _ hcur), ok_bind]
        cases fuel with
        | zero => exact ⟨_, rfl⟩
        | succ fuel =>
          rw [readLoop, if_neg]
          · exact ⟨_, rfl⟩
          · rintro ⟨hlt, -⟩
            simp only [List.nil_append, List.length_map, List.length_range, List.length_nil] at hlt
            omega
    · exact ⟨_, rfl⟩

/-- **Reading** a live entry. -/
theorem tinyfsRead_links {s : Tinyfs} (h : Links s.data live G) {node : Node}
    (hn : ∀ i, node.dirent = some i → live i) (size offset : UInt32) :
    ∃ out s', tinyfsRead s node size offset = .ok (out, s') ∧ s'.data = s.data := by
  have hok : ∃ out, tinyfsRead s node size offset = .ok out := by
    unfold tinyfsRead
    cases hd : node.dirent with
    | none => exact ⟨_, rfl⟩
    | some i =>
      simp only
      split
      · exact ⟨_, rfl⟩
      · rename_i hoff
        rw [UInt32.le_iff_toNat_le] at hoff
        rcases h.start i (hn i hd) with hin | ⟨h0, h1⟩
        · obtain ⟨cur, hw, hcur⟩ := readWalk_links (h.closed i) (offset.toNat / 512) (.inr hin)
          obtain ⟨⟨n, bytes, disk⟩, hl⟩ := readLoop_links (h.closed i) _ hcur (offset.toNat % 512) [] s.disk
          rw [hw, ok_bind, hl, ok_bind]
          cases n <;> exact ⟨_, rfl⟩
        · -- the only byte there is
          have h1' := UInt32.le_iff_toNat_le.mp h1
          rw [show (1 : UInt32).toNat = 1 from rfl] at h1'
          obtain rfl : offset = 0 := UInt32.toNat_inj.mp (by show offset.toNat = 0; omega)
          have hcut : (if (s.data.dirents.get i).size < 0 + size then (s.data.dirents.get i).size - 0 else size).toNat ≤
              1 := by
            rw [UInt32.zero_add, UInt32.sub_zero]
            split
            · exact h1'
            · rename_i hle
              rw [UInt32.lt_iff_toNat_lt] at hle
              omega
          obtain ⟨⟨n, bytes, disk⟩, hl⟩ := readLoop_one (d := s.data) hcut (show (0 : UInt32).toNat < 1024 by decide)
            (show 0 < 512 by omega) s.disk
          rw [h0]
          show ∃ out, (readLoop s.data _ _ 0 0 [] s.disk >>= _) = Except.ok out
          rw [hl, ok_bind]
          cases n <;> exact ⟨_, rfl⟩
  obtain ⟨⟨out, s'⟩, he⟩ := hok
  exact ⟨out, s', he, tinyfsRead_frame he⟩

/-! ## Writing -/

theorem Links.entry_update (h : Links d live G) (hfat : d'.fat = d.fat) (hsb : d'.sb = d.sb)
    (hother : ∀ j, j ≠ i → d'.dirents.get j = d.dirents.get j) (hself : StartsIn d' i (G i)) : Links d' live G := by
  refine ⟨by rw [hsb]; exact h.table, fun j => by rw [hfat]; exact h.closed j, fun j hj => ?_, h.shared⟩
  by_cases hji : j = i
  · exact hji ▸ hself
  · unfold StartsIn
    rw [hother j hji]
    exact h.start j hj

/-- **The first block**: afterwards the entry has one, in its set. -/
theorem ensureFirstBlock_links (h : Links d live G) (hi : live i) : ensureFirstBlock d i = .ok none ∨
    ∃ d' G', ensureFirstBlock d i = .ok (some d') ∧ Links d' live G' ∧ (d'.dirents.get i).firstBlock.toNat ∈ G' i := by
  unfold ensureFirstBlock
  split
  · obtain ⟨r, d₁, G₁, ha, h₁⟩ := allocateBlock_links h i
    rw [ha, ok_bind]
    cases r with
    | none => exact .inl rfl
    | some b =>
      have hb := h₁.mem b rfl
      refine .inr ⟨_, G₁, rfl, h₁.links.entry_update rfl rfl (fun j hj => modifyDirent_of_ne _ _ hj) (.inl ?_), ?_⟩
      · rw [modifyDirent_self]
        exact hb
      · rw [modifyDirent_self]
        exact hb
  · rename_i h0
    exact .inr ⟨d, G, rfl, h, (h.start i hi).resolve_right fun hno => h0 hno.1⟩

/-- **Writing** through a live entry, on any disk. -/
theorem tinyfsWrite_links {s : Tinyfs} (h : Links s.data live G) {node : Node}
    (hn : ∀ i, node.dirent = some i → live i) (buffer : List UInt8) (offset : UInt32) :
    ∃ r node' s' G', tinyfsWrite s node buffer offset = .ok (r, node', s') ∧ Links s'.data live G' ∧
      node'.dirent = node.dirent := by
  unfold tinyfsWrite
  cases hd : node.dirent with
  | none => exact ⟨-1, node, s, G, rfl, h, hd⟩
  | some i =>
    simp only
    rcases ensureFirstBlock_links h (hn i hd) with he | ⟨d₁, G₁, he, h₁, hfirst⟩
    · rw [he, ok_bind]
      exact ⟨-1, node, s, G, rfl, h, hd⟩
    · obtain ⟨r, d₂, G₂, hx, h₂⟩ := extendLoop_links h₁ hfirst (offset.toNat / 512)
      rw [he, ok_bind]
      simp only
      rw [hx, ok_bind]
      cases r with
      | none => exact ⟨0, node, _, G₂, rfl, h₂.links, hd⟩
      | some cur =>
        obtain ⟨w, d₃, disk, G₃, hl, h₃, hle⟩ := writeLoop_links buffer (UInt32.ofNat buffer.length).toNat
          (UInt32.ofNat buffer.length).toNat h₂.links (h₂.mem cur rfl) s.disk (offset.toNat % 512) 0 zeroBuffer
        simp only
        rw [hl, ok_bind]
        cases w with
        | none => exact ⟨-1, node, _, G₃, rfl, h₃, hd⟩
        | some w =>
          have hdir : d₃.dirents.get i = d₁.dirents.get i := by
            rw [(writeLoop_frame (Nat.zero_le _) hl).1.dirents, (extendLoop_frame hx).dirents]
          have hstart : (d₃.dirents.get i).firstBlock.toNat ∈ G₃ i := by
            rw [hdir]
            exact hle i (h₂.le i hfirst)
          refine ⟨_, _, _, G₃, rfl, ?_, ?_⟩
          · simp only [finishWrite]
            split
            · refine h₃.entry_update rfl rfl (fun j hj => modifyDirent_of_ne _ _ hj) (.inl ?_)
              rw [modifyDirent_self]
              exact hstart
            · exact h₃
          · simp only [finishWrite]
            split <;> exact hd

/-! ## Creating -/

/-- An entry is emptied and becomes live. -/
theorem Links.emptied (h : Links d live G) (hfat : d'.fat = d.fat) (hsb : d'.sb = d.sb) (he : Emptied d d' i) :
    Links d' (fun j => live j ∨ j = i) G := by
  refine ⟨by rw [hsb]; exact h.table, fun j => by rw [hfat]; exact h.closed j, fun j hj => ?_, h.shared⟩
  by_cases hji : j = i
  · subst hji
    exact .inr ⟨he.firstBlock, by rw [he.size]; decide⟩
  · unfold StartsIn
    rw [he.other j hji]
    exact h.start j (hj.resolve_right hji)

/-- **Creating**: the new entry is live. -/
theorem tinyfsCreateNode_links {s : Tinyfs} (h : Links s.data live G) (hu : ∀ i, usedEntry s.data i → live i)
    (parent : Node) (name : CString) (type : FileType) :
    ∃ live', Links (tinyfsCreateNode s parent name type).2.data live' G ∧ (∀ i, live i → live' i) ∧
      ∀ i, usedEntry (tinyfsCreateNode s parent name type).2.data i → live' i := by
  rcases tinyfsCreateNode_frame s parent name type with he | ⟨k, -, -, hfat, hsb, he⟩
  · rw [he]
    exact ⟨live, h, fun _ hi => hi, hu⟩
  · refine ⟨_, h.emptied hfat hsb he, fun _ hi => .inl hi, fun i hi => ?_⟩
    by_cases hik : i = k
    · exact .inr hik
    · unfold usedEntry at hi
      rw [he.other i hik] at hi
      exact .inl (hu i hi)

/-! ## Unlinking -/

/-- The number of entries of the table that are not 0. -/
def linkedCount (fat : Vector UInt32 1024) : Nat := (Finset.univ.filter fun b : Fin 1024 => fat.get b ≠ 0).card

theorem linkedCount_le (fat : Vector UInt32 1024) : linkedCount fat ≤ 1024 :=
  (Finset.card_le_univ _).trans (by simp)

theorem linkedCount_clear (hb : b < 1024) (hv : fat[b]? = some v) (h0 : v ≠ 0) :
    linkedCount (fatPut fat b 0) < linkedCount fat := by
  have hget : ∀ c : Fin 1024, (fatPut fat b 0).get c = if b = c.val then 0 else fat.get c := fun c => by
    have h := @fatPut_getElem? fat b c.val 0 hb
    rw [getElem?_of_lt _ c.isLt] at h
    split at h
    · rw [if_pos ‹_›]
      exact Option.some.inj h
    · rw [if_neg ‹_›]
      rw [getElem?_of_lt _ c.isLt] at h
      exact Option.some.inj h
  refine Finset.card_lt_card (Finset.ssubset_iff_of_subset (fun c hc => ?_) |>.mpr ⟨⟨b, hb⟩, ?_, ?_⟩)
  · simp only [Finset.mem_filter, Finset.mem_univ, true_and, hget] at hc ⊢
    split at hc
    · exact absurd rfl hc
    · exact hc
  · rw [getElem?_of_lt _ hb] at hv
    simp only [Finset.mem_filter, Finset.mem_univ, true_and, Option.some.inj hv]
    exact h0
  · simp [hget]

/-- **The freeing loop** clears blocks of its set and ends: every round but the last one clears an entry that was not
0. A block that it meets twice leads to 0 the second time. -/
theorem freeLoop_links (h : ∀ b ∈ S, ∃ v, d.fat[b]? = some v ∧ (v = eof ∨ v = 0 ∨ v.toNat ∈ S)) {cur : UInt32}
    (hcur : cur = eof ∨ cur = 0 ∨ cur.toNat ∈ S) (fuel : Nat)
    (hfuel : linkedCount d.fat + 2 ≤ fuel ∨ (cur = eof ∨ cur = 0) ∧ 1 ≤ fuel) :
    ∃ d', freeLoop fuel d cur = .ok d' ∧ ∀ k, d'.fat[k]? = d.fat[k]? ∨ k ∈ S ∧ d'.fat[k]? = some 0 := by
  induction fuel generalizing d cur with
  | zero => omega
  | succ fuel ih =>
    rw [freeLoop]
    split
    · rename_i hgo
      have hin : cur.toNat ∈ S := (hcur.resolve_left hgo.1).resolve_left hgo.2
      obtain ⟨v, hv, hnext⟩ := h _ hin
      have hlt : cur.toNat < 1024 := (Vector.getElem?_eq_some_iff.mp hv).1
      have hcount : linkedCount d.fat + 2 ≤ fuel + 1 := hfuel.resolve_right fun hno => by
        rcases hno.1 with he | he
        · exact hgo.1 he
        · exact hgo.2 he
      have hput : ∀ k, (fatPut d.fat cur.toNat 0)[k]? = d.fat[k]? ∨ k ∈ S ∧ (fatPut d.fat cur.toNat 0)[k]? = some 0 :=
        fun k => by
          by_cases hk : k = cur.toNat
          · exact .inr ⟨hk ▸ hin, by rw [hk, fatPut_self hlt]⟩
          · exact .inl (fatPut_of_ne hlt hk)
      have hrest : ∀ b ∈ S, ∃ w, (fatPut d.fat cur.toNat 0)[b]? = some w ∧ (w = eof ∨ w = 0 ∨ w.toNat ∈ S) :=
        fun b hb => by
          rcases hput b with hp | ⟨-, hp⟩
          · obtain ⟨w, hw, hnext⟩ := h b hb
            exact ⟨w, hp.trans hw, hnext⟩
          · exact ⟨0, hp, .inr (.inl rfl)⟩
      have hfuel' : linkedCount (fatPut d.fat cur.toNat 0) + 2 ≤ fuel ∨ (v = eof ∨ v = 0) ∧ 1 ≤ fuel := by
        by_cases h0 : v = 0
        · exact .inr ⟨.inr h0, by omega⟩
        · have hless := linkedCount_clear hlt hv h0
          exact .inl (by omega)
      rw [fatGet_eq hv, ok_bind, fatSet_eq hlt, ok_bind]
      obtain ⟨d', hf, hd'⟩ := ih (d := TinyfsData.setFree { d with fat := fatPut d.fat cur.toNat 0 }
        (d.sb.freeBlocks + 1)) hrest hnext hfuel'
      refine ⟨d', hf, fun k => ?_⟩
      rcases hd' k with he | hcl
      · rcases hput k with hp | ⟨hk, hp⟩
        · exact .inl (he.trans hp)
        · exact .inr ⟨hk, he.trans hp⟩
      · exact .inr hcl
    · exact ⟨d, rfl, fun _ => .inl rfl⟩

/-- Blocks of entry `i` are cleared and the entry is emptied: where another live entry shared a block, its chain now
leads to block 0, which is in its set. -/
theorem Links.cleared (h : Links d live G) (hframe : OnlyTable d d')
    (hfat : ∀ k, d'.fat[k]? = d.fat[k]? ∨ k ∈ G i ∧ d'.fat[k]? = some 0) :
    Links (d'.modifyDirent i clearDirent) live (Function.update G i ∅) := by
  refine ⟨?_, fun j => ?_, fun j hj => ?_, fun j k b hjk hbj hbk => ?_⟩
  · show d'.sb.totalBlocks ≤ 1024 ∨ d'.sb.totalBlocks ≤ d'.sb.dataStart
    rw [hframe.totalBlocks, hframe.dataStart]
    exact h.table
  · by_cases hji : j = i
    · rw [hji, Function.update_self]
      exact fun b hb => absurd hb (Set.notMem_empty b)
    · rw [Function.update_of_ne hji]
      intro b hb
      rcases hfat b with he | ⟨hbi, he⟩
      · obtain ⟨v, hv, hnext⟩ := h.closed j b hb
        exact ⟨v, he.trans hv, hnext⟩
      · exact ⟨0, he, .inr (h.shared j i b hji hb hbi)⟩
  · by_cases hji : j = i
    · subst hji
      refine .inr ⟨by rw [modifyDirent_self]; rfl, ?_⟩
      rw [modifyDirent_self]
      exact UInt32.le_iff_toNat_le.mpr (Nat.zero_le _)
    · rw [Function.update_of_ne hji]
      unfold StartsIn
      rw [modifyDirent_of_ne _ _ hji, hframe.dirents]
      exact h.start j hj
  · by_cases hji : j = i
    · rw [hji, Function.update_self] at hbj
      exact absurd hbj (Set.notMem_empty b)
    · by_cases hki : k = i
      · rw [hki, Function.update_self] at hbk
        exact absurd hbk (Set.notMem_empty b)
      · rw [Function.update_of_ne hji] at hbj ⊢
        rw [Function.update_of_ne hki] at hbk
        exact h.shared j k b hjk hbj hbk

/-- **Unlinking**, on any disk. -/
theorem tinyfsUnlink_links {s : Tinyfs} (h : Links s.data live G) (hu : ∀ i, usedEntry s.data i → live i)
    (parent : Node) (name : CString) : ∃ r s' G', tinyfsUnlink s parent name = .ok (r, s') ∧ Links s'.data live G' ∧
      ∀ i, usedEntry s'.data i → live i := by
  by_cases hd : parent.type = .directory
  · cases hf : firstFin 0 (isNamed s.data name) with
    | none => exact ⟨-1, s, G, by simp [tinyfsUnlink, hd, hf], h, hu⟩
    | some i =>
      have hi := hu i (isNamed_iff.mp (firstFin_eq_some.mp hf).2.1).1
      -- the tables after the loop, whether or not there was a chain
      obtain ⟨d₁, hd₁, hframe, hfat⟩ : ∃ d₁, (if (s.data.dirents.get i).firstBlock ≠ 0
          then freeBlockChain s.data (s.data.dirents.get i).firstBlock else .ok s.data) = .ok d₁ ∧
          OnlyTable s.data d₁ ∧ ∀ k, d₁.fat[k]? = s.data.fat[k]? ∨ k ∈ G i ∧ d₁.fat[k]? = some 0 := by
        split
        · rename_i h0
          have hin := (h.start i hi).resolve_right fun hno => h0 hno.1
          have hcount := linkedCount_le s.data.fat
          obtain ⟨d₁, hfree, hfat⟩ := freeLoop_links (fun b hb => by
            obtain ⟨v, hv, hnext⟩ := h.closed i b hb
            exact ⟨v, hv, hnext.imp_right .inr⟩) (.inr (.inr hin)) 1026 (.inl (by omega))
          exact ⟨d₁, hfree, freeLoop_frame hfree, hfat⟩
        · exact ⟨s.data, rfl, .refl _, fun _ => .inl rfl⟩
      refine ⟨0, _, _, tinyfsUnlink_eq hd hf hd₁, h.cleared hframe hfat, fun j hj => ?_⟩
      by_cases hji : j = i
      · exact hji ▸ hi
      · unfold usedEntry at hj
        rw [modifyDirent_of_ne _ _ hji, hframe.dirents] at hj
        exact hu j hj
  · exact ⟨-1, s, G, by simp [tinyfsUnlink, hd], h, hu⟩

end Tables

end AmqOs.Vfs
