import AmqOs.Lib.Recent
import AmqOs.Network.NetDefs

/-!
# The ARP cache

`arp_cache_add` updates an entry in place, or takes the first free entry, or the one with the smallest timestamp; the
timestamps are those of a clock that ticks at every addition. As long as this clock does not wrap, the entries in the order of
their timestamps are the map of `recent` with room for 32 addresses (`Holds`, `Holds.add`): the cache forgets the address
whose last addition is oldest (`arpCache_run`). `arp_init` clears the entries and leaves the clock as it is, so the additions
that count are those since boot.
-/

set_option autoImplicit false

namespace AmqOs.Network

open AmqOs.Lib

/-! ## The code -/

/-- `arp_init`. -/
def arpInit (arp : Arp) : Arp := ⟨fun i => { arp.cache i with valid := false }, arp.time⟩

/-- The entry that the loops of `arp_cache_add` and `arp_cache_lookup` find for an address. -/
def arpFind (cache : Fin 32 → ArpCacheEntry) (ip : UInt32) : Option (Fin 32) :=
  (List.finRange 32).find? fun i => (cache i).valid && (cache i).ip == ip

/-- `arp_cache_lookup`. -/
def arpCacheLookup (arp : Arp) (ip : UInt32) : Option Mac := (arpFind arp.cache ip).map fun i => (arp.cache i).mac

/-- The calls. -/
inductive ArpOp where
  | init
  | add (ip : UInt32) (mac : Mac)

def arpOp (arp : Arp) : ArpOp → Arp
  | .init => arpInit arp
  | .add ip mac => arpCacheAdd arp ip mac

/-- Before the first call. -/
def arpBoot : Arp := ⟨fun _ => ⟨0, Vector.replicate 6 0, 0, false⟩, 0⟩

def arpRun (ops : List ArpOp) : Arp := ops.foldl arpOp arpBoot

/-! ## The map -/

/-- The additions since the last `arp_init`, newest first. -/
def arpHistory (ops : List ArpOp) : List (UInt32 × Mac) :=
  ops.foldl (fun h op =>
    match op with
    | .init => []
    | .add ip mac => (ip, mac) :: h) []

/-- The number of additions. -/
def arpAdds (ops : List ArpOp) : Nat := (ops.filter fun op => op matches .add _ _).length

/-- The cache is the map of the last additions `h`. -/
structure CacheOk (arp : Arp) (h : List (UInt32 × Mac)) : Prop where
  distinct : ∀ i j, (arp.cache i).valid = true → (arp.cache j).valid = true → (arp.cache i).ip = (arp.cache j).ip → i = j
  lookup : ∀ ip, arpCacheLookup arp ip = (recent 32 h).lookup ip
  last : ∀ ip mac, arpCacheLookup arp ip = some mac → h.lookup ip = some mac

/-- The next addition of a new address to a full cache takes the place of the address whose last addition is oldest, and of
no other. -/
def EvictsOldest (arp : Arp) (h : List (UInt32 × Mac)) : Prop :=
  ∀ ip mac, arpCacheLookup arp ip = none → (∀ i, (arp.cache i).valid = true) →
    ∃ old, arpCacheLookup arp old ≠ none ∧
      (∀ other, arpCacheLookup arp other ≠ none → other ≠ old → age h other < age h old) ∧
      ∀ ip', arpCacheLookup (arpCacheAdd arp ip mac) ip' =
        if ip' = ip then some mac else if ip' = old then none else arpCacheLookup arp ip'

/-- The next addition of an address that is cached, or of any address while there is room, takes the place of no other. -/
def EvictsNothing (arp : Arp) : Prop :=
  ∀ ip mac, (arpCacheLookup arp ip ≠ none ∨ ∃ i, (arp.cache i).valid = false) →
    ∀ ip', arpCacheLookup (arpCacheAdd arp ip mac) ip' = if ip' = ip then some mac else arpCacheLookup arp ip'

/-! ## Searching -/

section Search

variable {cache : Fin 32 → ArpCacheEntry} {i : Fin 32} {ip : UInt32}

theorem arpFind_some (h : arpFind cache ip = some i) : (cache i).valid = true ∧ (cache i).ip = ip := by
  have hfound := List.find?_some h
  rw [Bool.and_eq_true, beq_iff_eq] at hfound
  exact hfound

theorem arpFind_none (h : arpFind cache ip = none) (hi : (cache i).valid = true) : (cache i).ip ≠ ip := by
  intro hip
  have hnot := List.find?_eq_none.mp h i (List.mem_finRange i)
  simp [hi, hip] at hnot

/-- A free entry is taken. -/
theorem arpCacheSlot_free {is : List (Fin 32)} {oldest : UInt32} {idx : Option (Fin 32)}
    (h : ∃ i ∈ is, (cache i).valid = false) : ∃ i, arpCacheSlot cache is oldest idx = some i ∧ (cache i).valid = false := by
  induction is generalizing oldest idx with
  | nil =>
    obtain ⟨i, hi, -⟩ := h
    cases hi
  | cons j is ih =>
    rw [arpCacheSlot]
    cases hj : (cache j).valid with
    | false => exact ⟨j, by simp, hj⟩
    | true =>
      have hrest : ∃ i ∈ is, (cache i).valid = false := by
        obtain ⟨i, hi, hfree⟩ := h
        rcases List.mem_cons.mp hi with rfl | hi
        · rw [hj] at hfree
          cases hfree
        · exact ⟨i, hi, hfree⟩
      rw [if_neg (by simp)]
      split
      · exact ih hrest
      · exact ih hrest

/-- Entries that are not older than what was found leave it. -/
theorem arpCacheSlot_keep {is : List (Fin 32)} {oldest : UInt32} {idx : Option (Fin 32)}
    (hvalid : ∀ i ∈ is, (cache i).valid = true) (h : ∀ i ∈ is, ¬ (cache i).timestamp < oldest) :
    arpCacheSlot cache is oldest idx = idx := by
  induction is with
  | nil => rfl
  | cons j is ih =>
    rw [arpCacheSlot, if_neg (by simp [hvalid j List.mem_cons_self]), if_neg (h j List.mem_cons_self)]
    exact ih (fun i hi => hvalid i (List.mem_cons_of_mem _ hi)) fun i hi => h i (List.mem_cons_of_mem _ hi)

/-- Among used entries, the one with the smallest timestamp is taken. -/
theorem arpCacheSlot_oldest {is : List (Fin 32)} {oldest : UInt32} {idx : Option (Fin 32)} {old : Fin 32}
    (hvalid : ∀ i ∈ is, (cache i).valid = true) (hold : old ∈ is) (hlt : (cache old).timestamp < oldest)
    (hmin : ∀ i ∈ is, i ≠ old → (cache old).timestamp < (cache i).timestamp) :
    arpCacheSlot cache is oldest idx = some old := by
  induction is generalizing oldest idx with
  | nil => cases hold
  | cons j is ih =>
    have hrest : ∀ i ∈ is, (cache i).valid = true := fun i hi => hvalid i (List.mem_cons_of_mem _ hi)
    rw [arpCacheSlot, if_neg (by simp [hvalid j List.mem_cons_self])]
    by_cases hj : j = old
    · subst hj
      rw [if_pos hlt]
      apply arpCacheSlot_keep hrest
      intro i hi
      by_cases hij : i = j
      · subst hij
        exact UInt32.lt_irrefl _
      · exact UInt32.lt_asymm (hmin i (List.mem_cons_of_mem _ hi) hij)
    · have hmem : old ∈ is := (List.mem_cons.mp hold).resolve_left (Ne.symm hj)
      have hmin' := fun i hi => hmin i (List.mem_cons_of_mem _ hi)
      split
      · exact ih hrest hmem (hmin j List.mem_cons_self hj) hmin'
      · exact ih hrest hmem hlt hmin'

end Search

/-! ## The order of the entries -/

/-- What the map holds of entry `i`. -/
def arpEntry (arp : Arp) (i : Fin 32) : UInt32 × Mac := ((arp.cache i).ip, (arp.cache i).mac)

/-- The used entries, newest first, are the map `l`; `n` additions were made since boot. -/
structure Holds (arp : Arp) (slots : List (Fin 32)) (l : List (UInt32 × Mac)) (n : Nat) : Prop where
  valid : ∀ i, (arp.cache i).valid = true ↔ i ∈ slots
  entries : l = slots.map (arpEntry arp)
  keys : (l.map Prod.fst).Nodup
  order : slots.Pairwise fun i j => (arp.cache j).timestamp < (arp.cache i).timestamp
  fresh : ∀ i ∈ slots, (arp.cache i).timestamp.toNat < n
  time : arp.time.toNat = n

section Order

variable {arp : Arp} {slots : List (Fin 32)} {l : List (UInt32 × Mac)} {n : Nat} {idx i j : Fin 32} {ip : UInt32} {mac : Mac}

theorem Holds.mem (h : Holds arp slots l n) (hi : (arp.cache i).valid = true) : arpEntry arp i ∈ l := by
  rw [h.entries]
  exact List.mem_map_of_mem ((h.valid i).mp hi)

theorem Holds.nodup (h : Holds arp slots l n) : slots.Nodup := by
  have hkeys := h.keys
  rw [h.entries] at hkeys
  exact (List.Nodup.of_map _ hkeys).of_map _

theorem Holds.length (h : Holds arp slots l n) : l.length = slots.length := by rw [h.entries, List.length_map]

theorem Holds.distinct (h : Holds arp slots l n) (hi : i ∈ slots) (hj : j ∈ slots)
    (heq : (arp.cache i).ip = (arp.cache j).ip) : i = j := by
  have hkeys := h.keys
  rw [h.entries, List.map_map] at hkeys
  exact List.inj_on_of_nodup_map hkeys hi hj heq

/-- **Lookup.** -/
theorem Holds.lookup (h : Holds arp slots l n) (ip : UInt32) : arpCacheLookup arp ip = l.lookup ip := by
  unfold arpCacheLookup
  cases hfind : arpFind arp.cache ip with
  | some i =>
    obtain ⟨hvalid, rfl⟩ := arpFind_some hfind
    exact (lookup_eq_some_of_mem h.keys (h.mem hvalid)).symm
  | none =>
    symm
    apply lookup_eq_none_of_notMem
    intro hmem
    rw [h.entries, List.map_map] at hmem
    obtain ⟨i, hi, heq⟩ := List.mem_map.mp hmem
    exact arpFind_none hfind ((h.valid i).mpr hi) heq

/-- The address is entered at `idx`. -/
def arpPut (arp : Arp) (idx : Fin 32) (ip : UInt32) (mac : Mac) : Arp :=
  ⟨Function.update arp.cache idx ⟨ip, mac, arp.time, true⟩, arp.time + 1⟩

theorem arpPut_self : (arpPut arp idx ip mac).cache idx = ⟨ip, mac, arp.time, true⟩ := Function.update_self _ _ _

theorem arpPut_of_ne (h : i ≠ idx) : (arpPut arp idx ip mac).cache i = arp.cache i := Function.update_of_ne h _ _

theorem arpCacheAdd_found (h : arpFind arp.cache ip = some i) : arpCacheAdd arp ip mac = arpPut arp i ip mac := by
  unfold arpFind at h
  rw [arpCacheAdd, h]
  rfl

theorem arpCacheAdd_new (h : arpFind arp.cache ip = none)
    (hi : arpCacheSlot arp.cache (List.finRange 32) 0xFFFFFFFF none = some i) :
    arpCacheAdd arp ip mac = arpPut arp i ip mac := by
  unfold arpFind at h
  rw [arpCacheAdd, h]
  dsimp only
  rw [hi]
  rfl

theorem length_le_of_nodup (h : slots.Nodup) : slots.length ≤ 32 := by
  have hcard := h.length_le_card
  rwa [Fintype.card_fin] at hcard

/-- The address is entered at `idx`, where no other entry has it. -/
theorem Holds.put (h : Holds arp slots l n) (hn : n + 1 < 2 ^ 32)
    (hother : ∀ i ∈ slots, i ≠ idx → (arp.cache i).ip ≠ ip) :
    Holds (arpPut arp idx ip mac) (idx :: slots.filter (· ≠ idx))
      ((ip, mac) :: (slots.filter (· ≠ idx)).map (arpEntry arp)) (n + 1) := by
  have hold : ∀ i ∈ slots.filter (· ≠ idx), i ∈ slots ∧ i ≠ idx := by
    intro i hi
    simpa using List.mem_filter.mp hi
  have hentry : ∀ i ∈ slots.filter (· ≠ idx), (arpPut arp idx ip mac).cache i = arp.cache i :=
    fun i hi => arpPut_of_ne (hold i hi).2
  refine ⟨?_, ?_, ?_, ?_, ?_, ?_⟩
  · intro i
    by_cases hi : i = idx
    · simp [hi, arpPut_self]
    · rw [arpPut_of_ne hi, h.valid, List.mem_cons, List.mem_filter]
      simp [hi]
  · rw [List.map_cons]
    congr 1
    · simp [arpEntry, arpPut_self]
    · apply List.map_congr_left
      intro i hi
      simp only [arpEntry, hentry i hi]
  · rw [List.map_cons, List.nodup_cons]
    constructor
    · intro hmem
      rw [List.map_map] at hmem
      obtain ⟨i, hi, heq⟩ := List.mem_map.mp hmem
      exact hother i (hold i hi).1 (hold i hi).2 heq
    · have hkeys := h.keys
      rw [h.entries] at hkeys
      exact hkeys.sublist ((List.filter_sublist.map _).map _)
  · refine List.pairwise_cons.mpr ⟨?_, ?_⟩
    · intro i hi
      have hfresh := h.fresh i (hold i hi).1
      rw [hentry i hi, arpPut_self, UInt32.lt_iff_toNat_lt, h.time]
      exact hfresh
    · apply List.Pairwise.imp_of_mem _ (h.order.sublist List.filter_sublist)
      intro i j hi hj hij
      rwa [hentry i hi, hentry j hj]
  · intro i hi
    rcases List.mem_cons.mp hi with rfl | hi
    · rw [arpPut_self, h.time]
      omega
    · have hfresh := h.fresh i (hold i hi).1
      rw [hentry i hi]
      omega
  · show (arp.time + 1).toNat = n + 1
    rw [UInt32.toNat_add, h.time]
    exact Nat.mod_eq_of_lt hn

/-- All entries are in use. -/
theorem Holds.full (h : Holds arp slots l n) (hfull : ∀ i, (arp.cache i).valid = true) : slots.length = 32 := by
  have hle : (List.finRange 32).length ≤ slots.length :=
    (List.nodup_finRange 32).length_le_of_subset fun i _ => (h.valid i).mp (hfull i)
  have hroom := length_le_of_nodup h.nodup
  rw [List.length_finRange] at hle
  omega

/-- An entry is free. -/
theorem Holds.free (h : Holds arp slots l n) (hfree : (arp.cache i).valid = false) : i ∉ slots ∧ slots.length < 32 := by
  have hnot : i ∉ slots := by
    intro hi
    rw [(h.valid i).mpr hi] at hfree
    cases hfree
  exact ⟨hnot, length_le_of_nodup (List.nodup_cons.mpr ⟨hnot, h.nodup⟩)⟩

/-- The address has an entry, which is updated. -/
theorem Holds.add_cached (h : Holds arp slots l n) (hn : n + 1 < 2 ^ 32) (hfind : arpFind arp.cache ip = some i) :
    ∃ slots', Holds (arpCacheAdd arp ip mac) slots' (touch 32 ip mac l) (n + 1) := by
  have hroom := length_le_of_nodup h.nodup
  obtain ⟨hvalid, hip⟩ := arpFind_some hfind
  have hi := (h.valid i).mp hvalid
  have hother : ∀ j ∈ slots, j ≠ i → (arp.cache j).ip ≠ ip := by
    intro j hj hne heq
    exact hne (h.distinct hj hi (heq.trans hip.symm))
  have hl : l.filter (fun e => e.1 ≠ ip) = (slots.filter (· ≠ i)).map (arpEntry arp) := by
    rw [h.entries, List.filter_map]
    congr 1
    apply List.filter_congr
    intro j hj
    by_cases hji : j = i
    · simp [hji, arpEntry, hip]
    · simp [hji, arpEntry, hother j hj hji]
  have hlen : (slots.filter (· ≠ i)).length < slots.length :=
    List.length_filter_lt_length_iff_exists.mpr ⟨i, hi, by simp⟩
  refine ⟨i :: slots.filter (· ≠ i), ?_⟩
  rw [arpCacheAdd_found hfind, touch, hl, List.take_of_length_le (by simp only [List.length_cons, List.length_map]; omega)]
  exact h.put hn hother

/-- No entry is for the address, and none of the map. -/
theorem Holds.uncached (h : Holds arp slots l n) (hfind : arpFind arp.cache ip = none) :
    (∀ j ∈ slots, (arp.cache j).ip ≠ ip) ∧ l.filter (fun e => e.1 ≠ ip) = l := by
  have hother : ∀ j ∈ slots, (arp.cache j).ip ≠ ip := fun j hj => arpFind_none hfind ((h.valid j).mpr hj)
  refine ⟨hother, ?_⟩
  rw [List.filter_eq_self, h.entries]
  intro e he
  obtain ⟨j, hj, rfl⟩ := List.mem_map.mp he
  exact decide_eq_true (hother j hj)

/-- The oldest entry is taken, which is the last of the map. -/
theorem Holds.add_full (h : Holds arp slots l n) (hn : n + 1 < 2 ^ 32) (hfind : arpFind arp.cache ip = none)
    (hfull : ∀ i, (arp.cache i).valid = true) : ∃ slots', Holds (arpCacheAdd arp ip mac) slots' (touch 32 ip mac l) (n + 1) := by
  obtain ⟨hother, hl⟩ := h.uncached hfind
  have hall := h.full hfull
  obtain ⟨newer, old, hslots⟩ : ∃ newer old, slots = newer ++ [old] := by
    rcases List.eq_nil_or_concat slots with hnil | ⟨newer, old, hcat⟩
    · rw [hnil] at hall
      cases hall
    · exact ⟨newer, old, by rw [hcat, List.concat_eq_append]⟩
  have hnodup := h.nodup
  have horder := h.order
  rw [hslots] at hnodup horder hall
  have hnew : ∀ j ∈ newer, j ≠ old := by
    rintro j hj rfl
    exact (List.nodup_append.mp hnodup).2.2 j hj j (by simp) rfl
  have hidx : arpCacheSlot arp.cache (List.finRange 32) 0xFFFFFFFF none = some old := by
    apply arpCacheSlot_oldest (fun i _ => hfull i) (List.mem_finRange old)
    · have hfresh := h.fresh old (by simp [hslots])
      have hmax : (0xFFFFFFFF : UInt32).toNat = 2 ^ 32 - 1 := rfl
      rw [UInt32.lt_iff_toNat_lt]
      omega
    · intro j _ hj
      have hmem : j ∈ newer := by
        have hin := (h.valid j).mp (hfull j)
        rw [hslots] at hin
        simpa [hj] using hin
      exact (List.pairwise_append.mp horder).2.2 j hmem old (by simp)
  have hkept : slots.filter (· ≠ old) = newer := by
    rw [hslots, List.filter_append]
    simpa using hnew
  have hl' : l = newer.map (arpEntry arp) ++ [arpEntry arp old] := by
    rw [h.entries, hslots, List.map_append]
    rfl
  have htouch : touch 32 ip mac l = (ip, mac) :: (slots.filter (· ≠ old)).map (arpEntry arp) := by
    rw [List.length_append, List.length_singleton] at hall
    rw [touch, hl, hl', hkept, ← List.cons_append, List.take_left' (by rw [List.length_cons, List.length_map, hall])]
  refine ⟨old :: slots.filter (· ≠ old), ?_⟩
  rw [arpCacheAdd_new hfind hidx, htouch]
  exact h.put hn fun j hj _ => hother j hj

/-- The first free entry is taken. -/
theorem Holds.add_free (h : Holds arp slots l n) (hn : n + 1 < 2 ^ 32) (hfind : arpFind arp.cache ip = none)
    (hfree : ∃ i, (arp.cache i).valid = false) :
    ∃ slots', Holds (arpCacheAdd arp ip mac) slots' (touch 32 ip mac l) (n + 1) := by
  obtain ⟨hother, hl⟩ := h.uncached hfind
  obtain ⟨f, hf⟩ := hfree
  obtain ⟨i, hi, hfree⟩ : ∃ i, arpCacheSlot arp.cache (List.finRange 32) 0xFFFFFFFF none = some i ∧
      (arp.cache i).valid = false := arpCacheSlot_free ⟨f, List.mem_finRange f, hf⟩
  obtain ⟨hnot, hlen⟩ := h.free hfree
  have hkept : slots.filter (· ≠ i) = slots := by
    rw [List.filter_eq_self]
    intro j hj
    rw [decide_eq_true_eq]
    rintro rfl
    exact hnot hj
  have htouch : touch 32 ip mac l = (ip, mac) :: (slots.filter (· ≠ i)).map (arpEntry arp) := by
    rw [touch, hl, hkept, ← h.entries, List.take_of_length_le]
    rw [List.length_cons, h.length]
    exact hlen
  refine ⟨i :: slots.filter (· ≠ i), ?_⟩
  rw [arpCacheAdd_new hfind hi, htouch]
  exact h.put hn fun j hj _ => hother j hj

/-- **One addition** is an entry into the map. -/
theorem Holds.add (h : Holds arp slots l n) (hn : n + 1 < 2 ^ 32) (ip : UInt32) (mac : Mac) :
    ∃ slots', Holds (arpCacheAdd arp ip mac) slots' (touch 32 ip mac l) (n + 1) := by
  cases hfind : arpFind arp.cache ip with
  | some i => exact h.add_cached hn hfind
  | none =>
    by_cases hfull : ∀ i, (arp.cache i).valid = true
    · exact h.add_full hn hfind hfull
    · obtain ⟨f, hf⟩ := not_forall.mp hfull
      exact h.add_free hn hfind ⟨f, by simpa using hf⟩

theorem Holds.ok {h : List (UInt32 × Mac)} (hold : Holds arp slots (recent 32 h) n) : CacheOk arp h := by
  refine ⟨?_, hold.lookup, ?_⟩
  · intro i j hi hj heq
    exact hold.distinct ((hold.valid i).mp hi) ((hold.valid j).mp hj) heq
  · intro ip mac hip
    rw [hold.lookup] at hip
    exact lookup_recent (mem_of_lookup hip)

/-- Where there is room for an address, no other is lost. -/
theorem Holds.evictsNothing (h : Holds arp slots l n) (hn : n + 1 < 2 ^ 32) : EvictsNothing arp := by
  intro ip mac hroom ip'
  obtain ⟨slots', hadd⟩ := h.add hn ip mac
  have hfit : (l.filter fun e => e.1 ≠ ip).length < 32 := by
    rcases hroom with hcached | ⟨i, hfree⟩
    · -- the old entry of the address is one of at most 32
      rw [h.lookup] at hcached
      obtain ⟨v, hv⟩ := Option.ne_none_iff_exists'.mp hcached
      have hlt : (l.filter fun e => e.1 ≠ ip).length < l.length :=
        List.length_filter_lt_length_iff_exists.mpr ⟨(ip, v), mem_of_lookup hv, by simp⟩
      rw [h.length] at hlt
      exact lt_of_lt_of_le hlt (length_le_of_nodup h.nodup)
    · have hfilter := List.length_filter_le (fun e : UInt32 × Mac => e.1 ≠ ip) l
      rw [h.length] at hfilter
      exact lt_of_le_of_lt hfilter (h.free hfree).2
  rw [hadd.lookup, lookup_touch hfit, h.lookup]

/-- **The victim** of an addition to a full cache. -/
theorem Holds.evictsOldest {h : List (UInt32 × Mac)} (hold : Holds arp slots (recent 32 h) n) (hn : n + 1 < 2 ^ 32) :
    EvictsOldest arp h := by
  intro ip mac hnew hfull
  obtain ⟨slots', hadd⟩ := hold.add hn ip mac
  have hlen : (recent 32 h).length = 32 := by rw [hold.length, hold.full hfull]
  obtain ⟨newer, ⟨old, w⟩, hcat⟩ : ∃ newer e, recent 32 h = newer ++ [e] := by
    rcases List.eq_nil_or_concat (recent 32 h) with hnil | ⟨newer, e, hcat⟩
    · rw [hnil] at hlen
      cases hlen
    · exact ⟨newer, e, by rw [hcat, List.concat_eq_append]⟩
  have hkeys := hold.keys
  have hage : (recent 32 h).Pairwise fun a b => age h a.1 < age h b.1 := pairwise_age_recent h
  have hfind := hold.lookup
  have hfind' := hadd.lookup
  have hipkeys : ip ∉ (recent 32 h).map Prod.fst := by
    intro hmem
    obtain ⟨⟨k, v⟩, he, rfl⟩ := List.mem_map.mp hmem
    rw [hfind, lookup_eq_some_of_mem hkeys he] at hnew
    cases hnew
  rw [hcat] at hkeys hage hfind hfind' hipkeys hlen
  refine ⟨old, ?_, ?_, ?_⟩
  · rw [hfind, lookup_eq_some_of_mem hkeys (show (old, w) ∈ newer ++ [(old, w)] by simp)]
    simp
  · intro other hother hne
    rw [hfind] at hother
    obtain ⟨v, hv⟩ := Option.ne_none_iff_exists'.mp hother
    have hmem : (other, v) ∈ newer := by
      have hin := mem_of_lookup hv
      simpa [hne] using hin
    exact (List.pairwise_append.mp hage).2.2 (other, v) hmem (old, w) (by simp)
  · intro ip'
    rw [hfind', lookup_touch_full hipkeys hkeys hlen, hfind]

end Order

/-! ## Every run -/

theorem holds_boot : Holds arpBoot [] (recent 32 []) 0 := by
  refine ⟨?_, rfl, List.nodup_nil, List.Pairwise.nil, ?_, rfl⟩
  · simp [arpBoot]
  · simp

/-- **Every step**: `arp_init` clears the map and leaves the clock. -/
theorem exists_holds_run (ops : List ArpOp) (hops : arpAdds ops < 2 ^ 32) :
    ∃ slots, Holds (arpRun ops) slots (recent 32 (arpHistory ops)) (arpAdds ops) := by
  induction ops using List.reverseRecOn with
  | nil => exact ⟨[], holds_boot⟩
  | append_singleton ops op ih =>
    have hrun : arpRun (ops ++ [op]) = arpOp (arpRun ops) op := by simp [arpRun]
    cases op with
    | init =>
      have hadds : arpAdds (ops ++ [.init]) = arpAdds ops := by simp [arpAdds]
      have hhistory : arpHistory (ops ++ [.init]) = [] := by simp [arpHistory]
      rw [hadds] at hops
      obtain ⟨slots, h⟩ := ih hops
      rw [hrun, hhistory, hadds]
      refine ⟨[], ?_, rfl, List.nodup_nil, List.Pairwise.nil, ?_, h.time⟩
      · simp [arpOp, arpInit]
      · simp
    | add ip mac =>
      have hadds : arpAdds (ops ++ [.add ip mac]) = arpAdds ops + 1 := by simp [arpAdds]
      have hhistory : arpHistory (ops ++ [.add ip mac]) = (ip, mac) :: arpHistory ops := by simp [arpHistory]
      rw [hadds] at hops
      obtain ⟨slots, h⟩ := ih (by omega)
      rw [hrun, hhistory, hadds]
      exact h.add hops ip mac

/-- **The ARP cache** forgets the address whose last addition is oldest, and only where there is no room: after any sequence
of calls since boot with fewer than 2^32 additions, and at the next addition if that is one of them. -/
theorem arpCache_run {ops : List ArpOp} (hops : arpAdds ops < 2 ^ 32) : CacheOk (arpRun ops) (arpHistory ops) ∧
    (arpAdds ops + 1 < 2 ^ 32 → EvictsNothing (arpRun ops) ∧ EvictsOldest (arpRun ops) (arpHistory ops)) := by
  obtain ⟨slots, h⟩ := exists_holds_run ops hops
  exact ⟨h.ok, fun hn => ⟨h.evictsNothing hn, h.evictsOldest hn⟩⟩

def noMac : Mac := Vector.replicate 6 0

/-- The hosts 1 to 33, one more than the cache holds. -/
def manyHosts : List ArpOp := .init :: (List.range 33).map fun k => .add (UInt32.ofNat (k + 1)) noMac

theorem arpCache_run_manyHosts : arpCacheLookup (arpRun manyHosts) 1 = none ∧
    CacheOk (arpRun manyHosts) (arpHistory manyHosts) ∧ EvictsNothing (arpRun manyHosts) ∧
    EvictsOldest (arpRun manyHosts) (arpHistory manyHosts) := by
  obtain ⟨hok, hnext⟩ := arpCache_run (show arpAdds manyHosts < 2 ^ 32 by decide)
  exact ⟨by decide +kernel, hok, hnext (by decide)⟩

/-! ## A clock that wraps -/

/-- One host, heard of `k + 1` times. -/
theorem arpRun_replicate (k : Nat) : arpRun (List.replicate (k + 1) (.add 0 noMac)) =
    ⟨Function.update arpBoot.cache 0 ⟨0, noMac, UInt32.ofNat k, true⟩, UInt32.ofNat (k + 1)⟩ := by
  induction k with
  | zero =>
    have hnew : arpFind arpBoot.cache 0 = none := by decide
    have hslot : arpCacheSlot arpBoot.cache (List.finRange 32) 0xFFFFFFFF none = some 0 := by decide
    exact arpCacheAdd_new hnew hslot
  | succ k ih =>
    have hrun : arpRun (List.replicate (k + 1 + 1) (.add 0 noMac)) =
        arpCacheAdd (arpRun (List.replicate (k + 1) (.add 0 noMac))) 0 noMac := by
      rw [List.replicate_succ', arpRun, List.foldl_append]
      rfl
    have hfound : arpFind (Function.update arpBoot.cache 0 ⟨0, noMac, UInt32.ofNat k, true⟩) 0 = some 0 := rfl
    rw [hrun, ih, arpCacheAdd_found hfound, arpPut]
    simp [UInt32.ofNat_add]

/-- The cache after 2^32 - 1 additions and `arp_init`. -/
def lateStart : Arp :=
  arpInit ⟨Function.update arpBoot.cache 0 ⟨0, noMac, 0xFFFFFFFE, true⟩, 0xFFFFFFFF⟩

/-- The hosts 1 to 33. -/
def lateHosts : List (UInt32 × Mac) := (List.range 33).map fun k => (UInt32.ofNat (k + 1), noMac)

/-- The first host after this `arp_init` gets the last timestamp before the clock wraps, and is kept instead of the
second. -/
theorem lateHosts_kept : ¬ ∀ (before : List ArpOp) (adds : List (UInt32 × Mac)), adds.length < 2 ^ 32 →
    CacheOk (arpRun (before ++ .init :: adds.map fun a => .add a.1 a.2)) adds.reverse := by
  intro h
  have hok := h (List.replicate (4294967294 + 1) (.add 0 noMac)) lateHosts (by decide)
  have hstart : arpInit (arpRun (List.replicate (4294967294 + 1) (.add 0 noMac))) = lateStart := by
    rw [arpRun_replicate]
    rfl
  have hrun : ∀ before ops, arpRun (before ++ .init :: ops) = ops.foldl arpOp (arpInit (arpRun before)) := by
    intro before ops
    rw [arpRun, List.foldl_append, List.foldl_cons]
    rfl
  have hlookup := hok.lookup 1
  rw [hrun, hstart] at hlookup
  have hkept : (arpCacheLookup ((lateHosts.map fun a => ArpOp.add a.1 a.2).foldl arpOp lateStart) 1).isSome = true := by
    decide +kernel
  rw [hlookup] at hkept
  exact absurd hkept (by decide)

end AmqOs.Network
