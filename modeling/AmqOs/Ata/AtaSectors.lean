import AmqOs.Ata.AtaTransfer

/-!
# Transfers of several sectors

What `ata_read_sectors` and `ata_write_sectors` do with a drive that may be busy for any time and may give up at any
sector.

- `ataReadSectors_transfer`: a read copies sectors of the addressed range, which wraps at 28 bits, up to the first one
  that the drive does not send in time; it returns 0 exactly when there is none.
- `ataWriteSectors_transfer`: the same for a write. One failure escapes the driver: a drive that gives up after it has
  taken the last sector is ready again, and the driver returns 0.
-/

set_option autoImplicit false

namespace AmqOs.Ata

open AmqOs.Lib
open AmqOs.Vfs (Sector lbaOf)
open Drive

/-! ## The task file -/

theorem lbaOf_lt (lba : UInt32) : lbaOf lba < 2 ^ 28 := Nat.mod_lt _ (by norm_num)

theorem nextLba_lt (lba : Nat) : nextLba lba < 2 ^ 28 := Nat.mod_lt _ (by norm_num)

theorem toNat_deviceOf (lba : UInt32) : (deviceOf lba).toNat % 16 = lba.toNat / 2 ^ 24 % 16 := by
  have hmask (x : Nat) : x &&& 15 = x % 16 := Nat.and_two_pow_sub_one_eq_mod x 4
  have hor (x : Nat) : (224 ||| x) % 16 = x % 16 := by
    rw [show (16 : Nat) = 2 ^ 4 from rfl, Nat.or_mod_two_pow]
    simp
  simp only [deviceOf, UInt8.toNat_or, UInt32.toNat_toUInt8, UInt32.toNat_and, UInt32.toNat_shiftRight]
  rw [show ((0xE0 : UInt8)).toNat = 224 from rfl, hor, show ((0x0F : UInt32)).toNat = 15 from rfl, hmask]
  simp [Nat.shiftRight_eq_div_pow]

/-- The drive with a transfer in its task file. -/
def addressed (lba : UInt32) (sectorCount : UInt8) (d : Drive) : Drive :=
  { d with
    device := deviceOf lba
    secCount := sectorCount
    lbaLo := lba.toUInt8
    lbaMid := (lba >>> 8).toUInt8
    lbaHi := (lba >>> 16).toUInt8 }

section Issue

variable {d : Drive} {lba : UInt32} {sectorCount : UInt8}

theorem address_addressed : (addressed lba sectorCount d).address = lbaOf lba := by
  have h := lba.toNat_lt
  have h8 : UInt32.toNat 8 % 32 = 8 := rfl
  have h16 : UInt32.toNat 16 % 32 = 16 := rfl
  simp only [Drive.address, addressed, toNat_deviceOf, UInt32.toNat_toUInt8, UInt32.toNat_shiftRight, lbaOf,
    Nat.shiftRight_eq_div_pow, h8, h16]
  omega

theorem count_addressed (h : sectorCount ≠ 0) : (addressed lba sectorCount d).count = sectorCount.toNat := by
  simp [Drive.count, addressed, h]

theorem issue_eq (c : UInt8) (h : d.busy = 0) :
    issue Drive.bus lba sectorCount c (Drive.bus.outb ataPrimaryDrive (deviceOf lba) d) =
      (addressed lba sectorCount d).command c := by
  simp [issue, Drive.bus, Drive.outb, addressed, h, ataPrimaryDrive, ataPrimaryCommand, ataPrimaryControl,
    ataPrimarySecCount, ataPrimaryLbaLo, ataPrimaryLbaMid, ataPrimaryLbaHi]

end Issue

/-! ## Reading -/

/-- Consecutive sectors as bytes. -/
def rangeBytes (sectors : Nat → Sector) (lba : Nat) : Nat → UInt8 :=
  fun x => byteOf (sectors ((lba + x / 512) % 2 ^ 28)) (x % 512)

/-- Of `n` sectors from `lba` on, `k` have arrived at `a`. -/
structure Sent (d : Drive) (m : Mem) (a lba n k : Nat) (out : Int × Mem × Drive) : Prop where
  le : k ≤ n
  result : out.1 = if k = n then 0 else -1
  memory : out.2.1 = m.store a (512 * k) (rangeBytes d.sectors lba)
  sectors : out.2.2.sectors = d.sectors
  later : Later d out.2.2
  all_iff : k = n ↔ ∀ j < n, (d.responses j).Timely
  ready : k = n → out.2.2.busy = 0

/-- The sector in front of the others. -/
theorem store_sector_range {sectors : Nat → Sector} {lba : Nat} (hl : lba < 2 ^ 28) (m : Mem) (a k : Nat) :
    (m.storeVec a (sectors lba)).store (a + 512) (512 * k) (rangeBytes sectors (nextLba lba)) =
      m.store a (512 * (k + 1)) (rangeBytes sectors lba) := by
  show (m.store a 512 (byteOf (sectors lba))).store (a + 512) (512 * k) _ = _
  rw [Mem.store_add, show 512 + 512 * k = 512 * (k + 1) by ring]
  refine Mem.store_congr fun x _ => ?_
  unfold rangeBytes nextLba
  split
  · rw [show (lba + x / 512) % 2 ^ 28 = lba by omega, show x % 512 = x by omega]
  · rw [show ((lba + 1) % 2 ^ 28 + (x - 512) / 512) % 2 ^ 28 = (lba + x / 512) % 2 ^ 28 by omega,
      show (x - 512) % 512 = x % 512 by omega]

/-- What the driver does with a drive that has been asked for data. -/
theorem readSectorsLoop_succ (n a : Nat) (m : Mem) (d : Drive) (stage : Stage) (ho : stage.offers = true) :
    readSectorsLoop Drive.bus (n + 1) a (m, d.respond stage) =
      if (d.responses 0).delay < ataTimeout ∧ (d.responses 0).fails = false then
        readSectorsLoop Drive.bus n (a + 512) (readWords Drive.bus a (m, (d.respond stage).settled))
      else (-1, m, if (d.responses 0).delay < ataTimeout then (d.respond stage).settled
        else (d.respond stage).waited ataTimeout) := by
  rw [readSectorsLoop, ataWaitDrq_eq]
  by_cases hd : (d.respond stage).busy < ataTimeout
  · cases hf : (d.responses 0).fails with
    | true =>
      have hs : (d.respond stage).stage.offers = false := by simp [Drive.respond, hf, Stage.offers]
      simp [hd, hs, show (d.responses 0).delay < ataTimeout from hd]
    | false =>
      have hs : (d.respond stage).stage.offers = true := by simpa [Drive.respond, hf] using ho
      have he : (ataStatusRdy ||| ataStatusDrq) &&& ataStatusErr = 0 := by decide
      simp [hd, hs, inb_offers hs, he, show (d.responses 0).delay < ataTimeout from hd]
  · simp [hd, show ¬ (d.responses 0).delay < ataTimeout from hd]

theorem Sent.none {d : Drive} {m : Mem} {a lba n : Nat} {d' : Drive} (h : ¬ (d.responses 0).Timely)
    (hs : d'.sectors = d.sectors) (hl : Later d d') : Sent d m a lba (n + 1) 0 (-1, m, d') where
  le := by omega
  result := by simp
  memory := by simp
  sectors := hs
  later := hl
  all_iff := ⟨fun h0 => by omega, fun hall => absurd (hall 0 (by omega)) h⟩
  ready := fun h0 => by omega

/-- **The loop of a read**, from the answer to the command on. -/
theorem readSectorsLoop_sent (n : Nat) : ∀ (d : Drive) {lba : Nat} (_ : lba < 2 ^ 28) (m : Mem) (a : Nat),
    ∃ k, Sent d m a lba (n + 1) k (readSectorsLoop Drive.bus (n + 1) a
      (m, d.respond (.sending (wordsOf (d.sectors lba)) lba n))) := by
  induction n with
  | zero =>
    intro d lba hl m a
    rw [readSectorsLoop_succ 0 a m d _ rfl]
    have hl' := Later.respond d (.sending (wordsOf (d.sectors lba)) lba 0)
    split
    · rename_i ht
      have hs : (d.respond (.sending (wordsOf (d.sectors lba)) lba 0)).settled.stage =
          .sending (wordsOf (d.sectors lba)) lba 0 := by simp [Drive.respond, ht.2]
      rw [readWords_sending rfl hs, readSectorsLoop]
      have hrange := @store_sector_range d.sectors lba hl m a 0
      rw [Nat.mul_zero, Mem.store_zero] at hrange
      exact ⟨1, le_refl _, rfl, hrange, rfl, ⟨hl'.responses, hl'.commits⟩,
        ⟨fun _ j hj => by rw [show j = 0 by omega]; exact ht, fun _ => rfl⟩, fun _ => rfl⟩
    · rename_i ht
      split
      · exact ⟨0, Sent.none ht rfl ⟨hl'.responses, hl'.commits⟩⟩
      · exact ⟨0, Sent.none ht (waited_sectors _ _) (hl'.trans (Later.waited _ _))⟩
  | succ n ih =>
    intro d lba hl m a
    rw [readSectorsLoop_succ (n + 1) a m d _ rfl]
    have hl' := Later.respond d (.sending (wordsOf (d.sectors lba)) lba (n + 1))
    split
    · rename_i ht
      have hs : (d.respond (.sending (wordsOf (d.sectors lba)) lba (n + 1))).settled.stage =
          .sending (wordsOf (d.sectors lba)) lba (n + 1) := by simp [Drive.respond, ht.2]
      rw [readWords_sending rfl hs]
      -- the drive fetches the next sector
      obtain ⟨k, hk⟩ := ih (d.respond (.sending (wordsOf (d.sectors lba)) lba (n + 1))).settled
        (nextLba_lt lba) (m.storeVec a (d.sectors lba)) (a + 512)
      refine ⟨k + 1, by have := hk.le; omega, ?_, ?_, hk.sectors, ?_, ?_, fun he => hk.ready (by omega)⟩
      · exact hk.result.trans (by simp)
      · exact hk.memory.trans (store_sector_range hl m a k)
      · have hset : Later d (d.respond (.sending (wordsOf (d.sectors lba)) lba (n + 1))).settled :=
          ⟨hl'.responses, hl'.commits⟩
        exact hset.trans hk.later
      · rw [Nat.add_right_cancel_iff, hk.all_iff]
        constructor
        · intro hall j hj
          cases j with
          | zero => exact ht
          | succ j => exact hall j (by omega)
        · exact fun hall j hj => hall (j + 1) (by omega)
    · rename_i ht
      split
      · exact ⟨0, Sent.none ht rfl ⟨hl'.responses, hl'.commits⟩⟩
      · exact ⟨0, Sent.none ht (waited_sectors _ _) (hl'.trans (Later.waited _ _))⟩

/-- A range of sectors that is `k` long or shorter has arrived, and what that says of the drive's answers. -/
structure ReadEffect (d : Drive) (m : Mem) (lba : UInt32) (count buffer k : Nat) (r : Int) (m' : Mem) (d' : Drive) :
    Prop where
  le : k ≤ count
  result : r = if k = count then 0 else -1
  memory : m' = m.store buffer (512 * k) (rangeBytes d.sectors (lbaOf lba))
  sectors : d'.sectors = d.sectors
  all_iff : k = count ↔ d.busy < ataTimeout ∧ ∀ j < count, (d.responses j).Timely
  later : Later d d'
  ready : k = count → d'.busy = 0

theorem toNat_pos {sectorCount : UInt8} (hc : sectorCount ≠ 0) : 0 < sectorCount.toNat := by
  rcases Nat.eq_zero_or_pos sectorCount.toNat with h0 | h0
  · exact absurd (UInt8.toNat_inj.mp (h0.trans rfl)) hc
  · exact h0

/-- **Reading**, for a buffer that is there and a positive count. -/
theorem ataReadSectors_transfer (d : Drive) (m : Mem) (lba : UInt32) {sectorCount : UInt8} {buffer : Nat}
    (hb : buffer ≠ 0) (hc : sectorCount ≠ 0) :
    ∃ k r m' d', ataReadSectors Drive.bus m lba sectorCount buffer d = (r, m', d') ∧
      ReadEffect d m lba sectorCount.toNat buffer k r m' d' := by
  have hpos := toNat_pos hc
  unfold ataReadSectors
  rw [if_neg (by simp [hb, hc]), ataWaitReady_eq]
  by_cases hd : d.busy < ataTimeout
  · obtain ⟨n, hn⟩ := Nat.exists_eq_add_of_le' hpos
    obtain ⟨k, hk⟩ := readSectorsLoop_sent n (addressed lba sectorCount d.settled) (lbaOf_lt lba) m buffer
    have hcmd : (addressed lba sectorCount d.settled).command ataCmdReadSectors =
        (addressed lba sectorCount d.settled).respond (.sending (wordsOf (d.sectors (lbaOf lba))) (lbaOf lba) n) := by
      simp only [Drive.command, address_addressed, count_addressed hc, hn]
      rfl
    have hl : Later d (addressed lba sectorCount d.settled) := Later.of_eq rfl rfl
    simp only [hd, if_true, ne_eq, not_true_eq_false, if_false]
    rw [issue_eq _ rfl, hcmd, hn]
    refine ⟨k, _, _, _, rfl, hk.le, hk.result, hk.memory, hk.sectors, ?_, hl.trans hk.later, hk.ready⟩
    exact hk.all_iff.trans ⟨fun h => ⟨hd, h⟩, fun h => h.2⟩
  · simp only [hd, if_false, ne_eq]
    exact ⟨0, -1, m, _, rfl, by omega, by simp [hpos.ne], by simp, waited_sectors _ _,
      ⟨fun h => absurd h hpos.ne, fun h => absurd h.1 hd⟩, Later.waited _ _, fun h => absurd h hpos.ne⟩

/-! ## Writing -/

/-- The first `k` sectors at `a` stored from `lba` on. -/
def putSectors (m : Mem) : Nat → Nat → Nat → (Nat → Sector) → Nat → Sector
  | 0, _, _, sectors => sectors
  | k + 1, a, lba, sectors =>
    putSectors m k (a + 512) (nextLba lba) (Function.update sectors lba (m.loadVec a 512))

theorem putSectors_other {m : Mem} {k a lba l : Nat} {sectors : Nat → Sector} (hl : lba < 2 ^ 28)
    (h : ∀ i < k, l ≠ (lba + i) % 2 ^ 28) : putSectors m k a lba sectors l = sectors l := by
  induction k generalizing a lba sectors with
  | zero => rfl
  | succ k ih =>
    rw [putSectors, ih (nextLba_lt lba), Function.update_of_ne]
    · have h0 := h 0 (by omega)
      omega
    · intro i hi
      have hi' := h (i + 1) (by omega)
      unfold nextLba
      omega

theorem putSectors_at {m : Mem} {k a lba i : Nat} {sectors : Nat → Sector} (hl : lba < 2 ^ 28) (hk : k ≤ 255)
    (hi : i < k) : putSectors m k a lba sectors ((lba + i) % 2 ^ 28) = m.loadVec (a + 512 * i) 512 := by
  induction k generalizing a lba sectors i with
  | zero => omega
  | succ k ih =>
    rw [putSectors]
    cases i with
    | zero =>
      rw [putSectors_other (nextLba_lt lba) fun j hj => by unfold nextLba; omega,
        show (lba + 0) % 2 ^ 28 = lba by omega, Function.update_self]
      rfl
    | succ i =>
      have hstep := @ih (a + 512) (nextLba lba) i (Function.update sectors lba (m.loadVec a 512)) (nextLba_lt lba)
        (by omega) (by omega)
      rw [show (lba + (i + 1)) % 2 ^ 28 = (nextLba lba + i) % 2 ^ 28 by unfold nextLba; omega, hstep]
      congr 1
      omega

/-- Of `n` sectors at `a`, the drive has taken `k` and kept the first `p`: a drive that has failed a sector takes no
other. The drive was to answer `r` before the first one. -/
structure Taken (r : Response) (d : Drive) (m : Mem) (a lba n k p : Nat) (out : Int × Drive) : Prop where
  le : k ≤ n
  result : out.1 = if k = n then 0 else -1
  sectors : out.2.sectors = putSectors m p a lba d.sectors
  kept : p = k ∧ (∀ j < k, (d.commits j).fails = false) ∨ p + 1 = k ∧ (d.commits p).fails = true
  responses : out.2.responses = d.responses
  commits : ∀ j, out.2.commits j = d.commits (j + k)
  all_iff : k = n ↔ r.Timely ∧ ∀ j, j + 1 < n → (d.commits j).Timely
  none : ¬ r.Timely → k = 0
  ready : k = n → out.2.busy = (d.commits (n - 1)).delay

/-- What the driver does with a drive that has been given a command to take data. -/
theorem writeSectorsLoop_succ (m : Mem) (n a : Nat) {d : Drive} {r : Response} {lba : Nat} (hb : d.busy = r.delay)
    (hs : d.stage = if r.fails then .idle true else .taking [] lba n) :
    writeSectorsLoop Drive.bus m (n + 1) a d =
      if r.delay < ataTimeout ∧ r.fails = false then
        writeSectorsLoop Drive.bus m n (a + 512) (d.settled.commit ((List.range 256).map (memWord m a)) lba n)
      else (-1, if r.delay < ataTimeout then d.settled else d.waited ataTimeout) := by
  rw [writeSectorsLoop, ataWaitDrq_eq, hb]
  by_cases hd : r.delay < ataTimeout
  · cases hf : r.fails with
    | true =>
      have ho : d.stage.offers = false := by simp [hs, hf, Stage.offers]
      simp [hd, ho]
    | false =>
      have hst : d.stage = .taking [] lba n := by simp [hs, hf]
      have ho : d.stage.offers = true := by simp [hst, Stage.offers]
      have he : (ataStatusRdy ||| ataStatusDrq) &&& ataStatusErr = 0 := by decide
      simp [hd, ho, inb_offers ho, he, writeWords_taking (d := d.settled) rfl hst]
  · simp [hd]

theorem Taken.nothing {r : Response} {d : Drive} {m : Mem} {a lba n : Nat} {d' : Drive} (h : ¬ r.Timely)
    (hs : d'.sectors = d.sectors) (hr : d'.responses = d.responses) (hc : d'.commits = d.commits) :
    Taken r d m a lba (n + 1) 0 0 (-1, d') where
  le := by omega
  result := by simp
  sectors := hs
  kept := .inl ⟨rfl, fun j hj => by omega⟩
  responses := hr
  commits := fun j => by rw [hc]; rfl
  all_iff := ⟨fun h0 => by omega, fun hall => absurd hall.1 h⟩
  none := fun _ => rfl
  ready := fun h0 => by omega

section Commit

variable {d : Drive} (m : Mem) (a lba left : Nat)

/-- The drive once it has taken the 256 words at `a`. -/
def committed (d : Drive) : Drive := d.settled.commit ((List.range 256).map (memWord m a)) lba left

theorem committed_sectors : (committed m a lba left d).sectors =
    if (d.commits 0).fails then d.sectors else Function.update d.sectors lba (m.loadVec a 512) := by
  simp only [committed, Drive.commit, sectorOf_memWords]
  rfl

theorem committed_stage : (committed m a lba (left + 1) d).stage =
    if (d.commits 0).fails then .idle true else .taking [] (nextLba lba) left := rfl

end Commit

/-- The last sector. -/
theorem Taken.last {r : Response} {d : Drive} {m : Mem} {a lba : Nat} (ht : r.Timely) :
    Taken r d m a lba 1 1 (if (d.commits 0).fails then 0 else 1) (0, committed m a lba 0 d) where
  le := le_refl _
  result := rfl
  sectors := by
    show (committed m a lba 0 d).sectors = _
    rw [committed_sectors]
    split <;> rfl
  kept := by
    cases hf : (d.commits 0).fails with
    | true => exact .inr ⟨rfl, hf⟩
    | false => exact .inl ⟨rfl, fun j hj => by rw [show j = 0 by omega]; exact hf⟩
  responses := rfl
  commits := fun _ => rfl
  all_iff := ⟨fun _ => ⟨ht, fun j hj => by omega⟩, fun _ => rfl⟩
  none := fun h => absurd ht h
  ready := fun _ => rfl

/-- A sector in front of the others. -/
theorem Taken.cons {r : Response} {d : Drive} {m : Mem} {a lba n k p : Nat} {out : Int × Drive} (ht : r.Timely)
    (h : Taken (d.commits 0) (committed m a lba (n + 1) d) m (a + 512) (nextLba lba) (n + 1) k p out) :
    Taken r d m a lba (n + 2) (k + 1) (if (d.commits 0).fails then 0 else p + 1) out where
  le := by
    have := h.le
    omega
  result := h.result.trans (by simp)
  sectors := by
    rw [h.sectors, committed_sectors]
    split
    · rename_i hf
      have hk := h.none fun ht' => by simp [Response.Timely, hf] at ht'
      have hp : p = 0 := by rcases h.kept with hp | hp <;> omega
      rw [hp]
      rfl
    · rfl
  kept := by
    cases hf : (d.commits 0).fails with
    | true =>
      have hk := h.none fun ht' => by simp [Response.Timely, hf] at ht'
      exact .inr ⟨by rw [hk]; rfl, hf⟩
    | false =>
      rcases h.kept with ⟨hp, hall⟩ | ⟨hp, hlast⟩
      · refine .inl ⟨by rw [hp]; rfl, fun j hj => ?_⟩
        cases j with
        | zero => exact hf
        | succ j => exact hall j (by omega)
      · exact .inr ⟨by rw [← hp]; rfl, hlast⟩
  responses := h.responses
  commits := fun j => h.commits j
  all_iff := by
    rw [show k + 1 = n + 2 ↔ k = n + 1 by omega, h.all_iff]
    constructor
    · rintro ⟨h0, hall⟩
      refine ⟨ht, fun j hj => ?_⟩
      cases j with
      | zero => exact h0
      | succ j => exact hall j (by omega)
    · exact fun hall => ⟨hall.2 0 (by omega), fun j hj => hall.2 (j + 1) (by omega)⟩
  none := fun h' => absurd ht h'
  ready := fun he => h.ready (by omega)

/-- **The loop of a write**, from the command on. -/
theorem writeSectorsLoop_taken (m : Mem) (n : Nat) : ∀ {d : Drive} {r : Response} {lba : Nat} (a : Nat)
    (_ : d.busy = r.delay) (_ : d.stage = if r.fails then .idle true else .taking [] lba n),
    ∃ k p, Taken r d m a lba (n + 1) k p (writeSectorsLoop Drive.bus m (n + 1) a d) := by
  induction n with
  | zero =>
    intro d r lba a hb hs
    rw [writeSectorsLoop_succ m 0 a hb hs]
    split
    · rename_i ht
      exact ⟨1, _, Taken.last ht⟩
    · rename_i ht
      refine ⟨0, 0, ?_⟩
      split
      · exact Taken.nothing ht rfl rfl rfl
      · exact Taken.nothing ht (waited_sectors _ _) (waited_responses _ _) (waited_commits _ _)
  | succ n ih =>
    intro d r lba a hb hs
    rw [writeSectorsLoop_succ m (n + 1) a hb hs]
    split
    · rename_i ht
      obtain ⟨k, p, h⟩ := ih (d := committed m a lba (n + 1) d) (r := d.commits 0) (a + 512) rfl
        (committed_stage m a lba n)
      exact ⟨k + 1, _, h.cons ht⟩
    · rename_i ht
      refine ⟨0, 0, ?_⟩
      split
      · exact Taken.nothing ht rfl rfl rfl
      · exact Taken.nothing ht (waited_sectors _ _) (waited_responses _ _) (waited_commits _ _)

/-- How long the drive is busy when the driver waits for the flush: a drive still busy with the last sector misses
the command. -/
def flushDelay (d : Drive) (count : Nat) : Nat :=
  if (d.commits (count - 1)).delay = 0 then (d.responses 1).delay else (d.commits (count - 1)).delay

/-- What a write leaves when the drive has taken sectors and kept the first `p`. -/
structure WriteEffect (d : Drive) (m : Mem) (lba : UInt32) (count buffer p : Nat) (r : Int) (d' : Drive) : Prop where
  le : p ≤ count
  stored : ∀ i < p, d'.sectors ((lbaOf lba + i) % 2 ^ 28) = m.loadVec (buffer + 512 * i) 512
  others : ∀ l, (∀ i < p, l ≠ (lbaOf lba + i) % 2 ^ 28) → d'.sectors l = d.sectors l
  result : r = 0 ∨ r = -1
  zero_iff : r = 0 ↔ d.busy < ataTimeout ∧ (d.responses 0).Timely ∧
    (∀ j, j + 1 < count → (d.commits j).Timely) ∧ flushDelay d count < ataTimeout
  kept : r = 0 → (p = count ↔ (d.commits (count - 1)).fails = false)
  later : Later d d'
  ready : r = 0 → d'.busy = 0

theorem WriteEffect.failed {d : Drive} {m : Mem} {lba : UInt32} {count buffer p : Nat} {d' : Drive} (hle : p ≤ count)
    (hst : ∀ i < p, d'.sectors ((lbaOf lba + i) % 2 ^ 28) = m.loadVec (buffer + 512 * i) 512)
    (hother : ∀ l, (∀ i < p, l ≠ (lbaOf lba + i) % 2 ^ 28) → d'.sectors l = d.sectors l)
    (hno : ¬ (d.busy < ataTimeout ∧ (d.responses 0).Timely ∧ (∀ j, j + 1 < count → (d.commits j).Timely) ∧
      flushDelay d count < ataTimeout)) (hl : Later d d') : WriteEffect d m lba count buffer p (-1) d' where
  le := hle
  stored := hst
  others := hother
  result := .inr rfl
  zero_iff := ⟨fun h => absurd h (by decide), fun h => absurd h hno⟩
  kept := fun h => absurd h (by decide)
  later := hl
  ready := fun h => absurd h (by decide)

/-- The drive has been told to flush. -/
structure Flushing (d : Drive) (count : Nat) (d' d'' : Drive) : Prop where
  busy : d''.busy = flushDelay d count
  sectors : d''.sectors = d'.sectors
  later : Later d' d''

theorem flushing_command {d d' : Drive} {count : Nat} (hb : d'.busy = (d.commits (count - 1)).delay)
    (hr : d'.responses 0 = d.responses 1) :
    Flushing d count d' (Drive.bus.outb ataPrimaryCommand ataCmdFlushCache d') := by
  show Flushing d count d' (d'.command ataCmdFlushCache)
  unfold Drive.command
  by_cases h0 : d'.busy = 0
  · rw [if_neg (by simp [h0]), if_neg (by decide), if_neg (by decide), if_neg (by decide), if_pos rfl]
    exact ⟨by rw [flushDelay, if_pos (hb.symm.trans h0), ← hr]; rfl, rfl, Later.respond _ _⟩
  · rw [if_pos h0]
    exact ⟨by rw [flushDelay, if_neg (hb ▸ h0), hb], rfl, Later.of_eq rfl rfl⟩

theorem outb_drive_settled (v : UInt8) (d : Drive) :
    (Drive.bus.outb ataPrimaryDrive v d.settled).settled = Drive.bus.outb ataPrimaryDrive v d.settled := rfl

/-- **Writing**, for a buffer that is there and a positive count. -/
theorem ataWriteSectors_transfer (d : Drive) (m : Mem) (lba : UInt32) {sectorCount : UInt8} {buffer : Nat}
    (hb : buffer ≠ 0) (hc : sectorCount ≠ 0) :
    ∃ p r d', ataWriteSectors Drive.bus m lba sectorCount buffer d = (r, d') ∧
      WriteEffect d m lba sectorCount.toNat buffer p r d' := by
  have hpos := toNat_pos hc
  have hlt := sectorCount.toNat_lt
  have hl := lbaOf_lt lba
  unfold ataWriteSectors
  rw [if_neg (by simp [hb, hc]), ataWaitReady_eq]
  by_cases hd : d.busy < ataTimeout
  · obtain ⟨n, hn⟩ := Nat.exists_eq_add_of_le' hpos
    have hcmd : (addressed lba sectorCount d.settled).command ataCmdWriteSectors =
        (addressed lba sectorCount d.settled).respond (.taking [] (lbaOf lba) n) := by
      simp only [Drive.command, address_addressed, count_addressed hc, hn]
      rfl
    have hready : ataWaitReady Drive.bus (Drive.bus.outb ataPrimaryDrive (deviceOf lba) d.settled) =
        (0, Drive.bus.outb ataPrimaryDrive (deviceOf lba) d.settled) := by
      have hlt0 : (Drive.bus.outb ataPrimaryDrive (deviceOf lba) d.settled).busy < ataTimeout := ataTimeout_pos
      rw [ataWaitReady_eq, if_pos hlt0, outb_drive_settled]
    obtain ⟨k, p, h⟩ := @writeSectorsLoop_taken m n
      ((addressed lba sectorCount d.settled).respond (.taking [] (lbaOf lba) n)) (d.responses 0) (lbaOf lba) buffer rfl rfl
    generalize hout : writeSectorsLoop Drive.bus m (n + 1) buffer
      ((addressed lba sectorCount d.settled).respond (.taking [] (lbaOf lba) n)) = out at h
    obtain ⟨r, d'⟩ := out
    have hresult : r = if k = n + 1 then 0 else -1 := h.result
    have hle := h.le
    have hp : p ≤ k := by rcases h.kept with hp | hp <;> omega
    have hlater : Later d d' := ⟨⟨1, fun j => by rw [h.responses]; rfl⟩, ⟨k, fun j => by rw [h.commits]; rfl⟩⟩
    have hst : ∀ i < p, d'.sectors ((lbaOf lba + i) % 2 ^ 28) = m.loadVec (buffer + 512 * i) 512 := fun i hi => by
      rw [h.sectors, putSectors_at hl (by omega) hi]
    have hother : ∀ l, (∀ i < p, l ≠ (lbaOf lba + i) % 2 ^ 28) → d'.sectors l = d.sectors l := fun l hl' => by
      rw [h.sectors, putSectors_other hl hl']
      rfl
    have hall : k = n + 1 ↔ (d.responses 0).Timely ∧ ∀ j, j + 1 < n + 1 → (d.commits j).Timely := h.all_iff
    simp only [hd, if_true, ne_eq, not_true_eq_false, if_false, hready]
    rw [issue_eq _ rfl, hcmd, hn, hout]
    by_cases hk : k = n + 1
    · -- all sectors were taken; what is left is the flush
      rw [if_pos hk] at hresult
      have hf := @flushing_command d d' (n + 1) (h.ready hk) (by rw [h.responses]; rfl)
      have hkept : p = n + 1 ↔ (d.commits n).fails = false := by
        rcases h.kept with ⟨hp, hnone⟩ | ⟨hp, hlast⟩
        · exact ⟨fun _ => hnone n (by omega), fun _ => by omega⟩
        · rw [show p = n by omega] at hlast
          have hlast' : (d.commits n).fails = true := hlast
          rw [hlast']
          exact ⟨fun _ => by omega, fun h' => by cases h'⟩
      subst hresult
      simp only [not_true_eq_false, if_false]
      generalize Drive.bus.outb ataPrimaryCommand ataCmdFlushCache d' = d'' at hf ⊢
      rw [← hf.sectors] at hst hother
      simp only [ataWaitReady_eq, hf.busy]
      by_cases hfd : flushDelay d (n + 1) < ataTimeout
      · simp only [hfd, if_true, not_true_eq_false, if_false]
        have hlate : Later d d''.settled := ⟨(hlater.trans hf.later).responses, (hlater.trans hf.later).commits⟩
        exact ⟨p, 0, d''.settled, rfl, by omega, hst, hother, .inl rfl,
          ⟨fun _ => ⟨hd, (hall.mp hk).1, (hall.mp hk).2, hfd⟩, fun _ => rfl⟩, fun _ => hkept, hlate, fun _ => rfl⟩
      · simp only [hfd, if_false, neg_eq_zero, one_ne_zero, not_false_eq_true, if_true]
        exact ⟨p, -1, _, rfl, WriteEffect.failed (by omega) (fun i hi => by rw [waited_sectors, hst i hi])
          (fun l hl' => by rw [waited_sectors, hother l hl']) (fun h' => hfd h'.2.2.2)
          (hlater.trans (hf.later.trans (Later.waited _ _)))⟩
    · rw [if_neg hk] at hresult
      subst hresult
      exact ⟨p, -1, d', rfl, WriteEffect.failed (by omega) hst hother (fun h' => hk (hall.mpr ⟨h'.2.1, h'.2.2.1⟩)) hlater⟩
  · simp only [hd, if_false, ne_eq, neg_eq_zero, one_ne_zero, not_false_eq_true, if_true]
    exact ⟨0, -1, _, rfl, WriteEffect.failed (by omega) (fun i hi => by omega) (fun l _ => by rw [waited_sectors])
      (fun h' => hd h'.1) (Later.waited _ _)⟩

end AmqOs.Ata
