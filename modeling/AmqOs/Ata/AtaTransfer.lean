import AmqOs.Ata.AtaPorts

/-!
# Waiting for a drive, and one sector

- `ataWaitReady_eq`, `ataWaitDrq_eq`: the two waits of the driver. The first does not see an error, the second does.
- `readWords_sending`, `writeWords_taking`: a sector passes through the data register.
-/

set_option autoImplicit false

namespace AmqOs.Ata

open AmqOs.Lib
open AmqOs.Vfs (Sector)

/-- The drive sends or takes data. -/
def Stage.offers : Stage → Bool
  | .idle _ => false
  | .sending .. | .taking .. => true

theorem Stage.status_ready (st : Stage) : st.status &&& ataStatusBsy = 0 ∧ st.status &&& ataStatusRdy ≠ 0 := by
  rcases st with error | _ | _
  · cases error <;> decide
  · simp only [Stage.status]
    decide
  · simp only [Stage.status]
    decide

theorem Stage.status_offers {st : Stage} (h : st.offers = true) : st.status = ataStatusRdy ||| ataStatusDrq := by
  cases st with
  | idle error => cases h
  | sending words lba left => rfl
  | taking words lba left => rfl

namespace Drive

/-- The drive once it is no longer busy. -/
def settled (d : Drive) : Drive := { d with busy := 0 }

/-- The drive after `n` readings of its status. -/
def waited (n : Nat) (d : Drive) : Drive := { d with busy := d.busy - n }

@[simp] theorem settled_busy (d : Drive) : d.settled.busy = 0 := rfl
@[simp] theorem settled_stage (d : Drive) : d.settled.stage = d.stage := rfl
@[simp] theorem settled_sectors (d : Drive) : d.settled.sectors = d.sectors := rfl
@[simp] theorem settled_responses (d : Drive) : d.settled.responses = d.responses := rfl
@[simp] theorem settled_commits (d : Drive) : d.settled.commits = d.commits := rfl
theorem waited_busy (n : Nat) (d : Drive) : (d.waited n).busy = d.busy - n := rfl
theorem waited_sectors (n : Nat) (d : Drive) : (d.waited n).sectors = d.sectors := rfl
theorem waited_responses (n : Nat) (d : Drive) : (d.waited n).responses = d.responses := rfl
theorem waited_commits (n : Nat) (d : Drive) : (d.waited n).commits = d.commits := rfl

theorem settled_of_busy {d : Drive} (h : d.busy = 0) : d.settled = d := by
  unfold settled
  rw [← h]

theorem waited_of_le {d : Drive} {n : Nat} (h : d.busy ≤ n) : d.waited n = d.settled := by
  unfold waited settled
  rw [Nat.sub_eq_zero_of_le h]

theorem afterReads_status (k : Nat) (d : Drive) :
    afterReads bus ataPrimaryStatus k d = d.waited k := by
  induction k with
  | zero => rfl
  | succ k ih =>
    rw [afterReads_succ, ih]
    rfl

theorem inb_status (d : Drive) : (bus.inb ataPrimaryStatus d).1 = d.status := by
  simp [bus, inb]

theorem status_settled (d : Drive) : d.settled.status = d.stage.status := rfl

theorem status_busy {d : Drive} (h : d.busy ≠ 0) : d.status = ataStatusBsy := by
  simp [status, h]

variable {α : Type} {f : UInt8 → Option α} {giveUp a : α} {d : Drive}

theorem undecided (hf : f ataStatusBsy = none) {j : Nat} (hj : j < d.busy) :
    f (bus.inb ataPrimaryStatus (afterReads bus ataPrimaryStatus j d)).1 = none := by
  rw [afterReads_status, inb_status, status_busy (by rw [waited_busy]; omega)]
  exact hf

/-- A wait for a drive that does not outlast it. -/
theorem poll_settled (hf : f ataStatusBsy = none) (ha : f d.settled.status = some a) (h : d.busy < ataTimeout) :
    poll bus ataPrimaryStatus f giveUp ataTimeout d = (a, d.settled) := by
  have hk : f (bus.inb ataPrimaryStatus (afterReads bus ataPrimaryStatus d.busy d)).1 = some a := by
    rw [afterReads_status, inb_status, waited_of_le (le_refl _)]
    exact ha
  rw [poll_decides (fun j hj => undecided hf hj) h hk, afterReads_status, waited_of_le (by omega)]

/-- A wait for a drive that outlasts it. -/
theorem poll_outlasted (hf : f ataStatusBsy = none) (h : ataTimeout ≤ d.busy) :
    poll bus ataPrimaryStatus f giveUp ataTimeout d = (giveUp, d.waited ataTimeout) := by
  rw [poll_givesUp fun j hj => undecided hf (by omega), afterReads_status]

end Drive

open Drive

/-! ## Waiting -/

/-- **Waiting until the drive is ready.** An error does not end this wait. -/
theorem ataWaitReady_eq (d : Drive) :
    ataWaitReady Drive.bus d = if d.busy < ataTimeout then (0, d.settled) else (-1, d.waited ataTimeout) := by
  unfold ataWaitReady
  split
  · rename_i h
    refine poll_settled (by decide) ?_ h
    rw [status_settled, if_pos d.stage.status_ready]
  · rename_i h
    exact poll_outlasted (by decide) (by omega)

theorem ataWaitData_settled (d : Drive) :
    ataWaitData Drive.bus d.settled = (if d.stage.offers then 0 else -1, d.settled) := by
  have hst : d.settled.settled.status = d.stage.status := rfl
  have hlt : d.settled.busy < ataTimeout := ataTimeout_pos
  unfold ataWaitData
  cases ho : d.stage.offers with
  | true =>
    rw [Stage.status_offers ho] at hst
    exact poll_settled (by decide) (by rw [hst]; decide) hlt
  | false =>
    cases hs : d.stage with
    | sending words lba left => rw [hs] at ho; cases ho
    | taking words lba left => rw [hs] at ho; cases ho
    | idle error =>
      rw [hs] at hst
      cases error with
      | true => exact poll_settled (by decide) (by rw [hst]; decide) hlt
      | false =>
        -- neither DRQ nor ERR ever shows
        have he (j : Nat) : afterReads Drive.bus ataPrimaryStatus j d.settled = d.settled := by
          rw [afterReads_status, waited_of_le (Nat.zero_le j)]
          rfl
        rw [poll_givesUp fun j _ => ?_, he]
        · rfl
        · rw [he, inb_status, ← settled_of_busy (settled_busy d), hst]
          decide

/-- **Waiting for data.** -/
theorem ataWaitDrq_eq (d : Drive) :
    ataWaitDrq Drive.bus d =
      if d.busy < ataTimeout then (if d.stage.offers then 0 else -1, d.settled) else (-1, d.waited ataTimeout) := by
  unfold ataWaitDrq
  by_cases h : d.busy < ataTimeout
  · rw [poll_settled (a := true) (by decide) ?_ h, if_pos h]
    · exact ataWaitData_settled d
    · rw [status_settled, if_pos d.stage.status_ready.1]
  · rw [poll_outlasted (by decide) (by omega), if_neg h]
    rfl

/-- A drive that offers data shows no error. -/
theorem inb_offers {d : Drive} (h : d.stage.offers = true) :
    Drive.bus.inb ataPrimaryStatus d.settled = (ataStatusRdy ||| ataStatusDrq, d.settled) := by
  show (d.settled.status, d.settled.waited 1) = _
  rw [status_settled, Stage.status_offers h, waited_of_le (Nat.zero_le 1)]
  rfl

/-! ## The answers that are still to come -/

/-- The answers of `d'` are answers of `d`, less some that are past. -/
structure Later (d d' : Drive) : Prop where
  responses : ∃ p, ∀ n, d'.responses n = d.responses (n + p)
  commits : ∃ q, ∀ n, d'.commits n = d.commits (n + q)

theorem Later.of_eq {d d' : Drive} (h1 : d'.responses = d.responses) (h2 : d'.commits = d.commits) : Later d d' :=
  ⟨⟨0, fun n => by rw [h1]; rfl⟩, ⟨0, fun n => by rw [h2]; rfl⟩⟩

theorem Later.waited (n : Nat) (d : Drive) : Later d (d.waited n) := Later.of_eq rfl rfl

theorem Later.trans {d d' d'' : Drive} (h : Later d d') (h' : Later d' d'') : Later d d'' := by
  obtain ⟨⟨p, hp⟩, ⟨q, hq⟩⟩ := h
  obtain ⟨⟨p', hp'⟩, ⟨q', hq'⟩⟩ := h'
  exact ⟨⟨p' + p, fun n => by rw [hp', hp, Nat.add_assoc]⟩, ⟨q' + q, fun n => by rw [hq', hq, Nat.add_assoc]⟩⟩

theorem Later.respond (d : Drive) (stage : Stage) : Later d (d.respond stage) :=
  ⟨⟨1, fun _ => rfl⟩, ⟨0, fun _ => rfl⟩⟩

theorem Later.commit (d : Drive) (words : List UInt16) (lba left : Nat) : Later d (d.commit words lba left) :=
  ⟨⟨0, fun _ => rfl⟩, ⟨1, fun _ => rfl⟩⟩

/-- An answer within the driver's patience that is no refusal. -/
def Response.Timely (r : Response) : Prop := r.delay < ataTimeout ∧ r.fails = false

/-! ## One sector through the data register -/

/-- The bytes of a sector. -/
def byteOf (s : Sector) : Nat → UInt8 := fun x => s[x]?.getD 0

theorem toNat_wordAt (s : Sector) (j : Nat) : (wordAt s j).toNat = Mem.loadLE (byteOf s) (2 * j) 2 :=
  UInt16.toNat_ofNat_of_lt' Mem.loadLE_lt

theorem drop_wordsOf (s : Sector) {j : Nat} (h : j < 256) :
    (wordsOf s).drop j = wordAt s j :: (wordsOf s).drop (j + 1) := by
  rw [List.drop_eq_getElem_cons (by simpa [wordsOf] using h)]
  simp [wordsOf]

theorem drop_wordsOf_ne_nil (s : Sector) {j : Nat} : (wordsOf s).drop j ≠ [] ↔ j < 256 := by
  rw [ne_eq, List.drop_eq_nil_iff]
  simp [wordsOf]

/-- Two bytes more of a sector. -/
theorem store_word (m : Mem) (a : Nat) (s : Sector) (j : Nat) :
    (m.store a (2 * j) (byteOf s)).storeLE (a + 2 * j) 2 (wordAt s j).toNat = m.store a (2 * (j + 1)) (byteOf s) := by
  rw [toNat_wordAt, Mem.storeLE_loadLE, Mem.store_add, Nat.mul_add]
  refine Mem.store_congr fun x _ => ?_
  split
  · rfl
  · congr 1
    omega

/-- What a drive does when the last word of a sector has been read. -/
def Drive.afterSector (d : Drive) (lba left : Nat) : Drive :=
  if left = 0 then { d with stage := .idle false }
  else d.respond (.sending (wordsOf (d.sectors (nextLba lba))) (nextLba lba) (left - 1))

section Words

variable {d : Drive} {s : Sector} {w : UInt16} {words : List UInt16} {lba left : Nat}

/-- The drive in another stage. -/
def turned (d : Drive) (stage : Stage) : Drive := { d with stage }

theorem turned_of_stage {stage : Stage} (h : d.stage = stage) : turned d stage = d := by
  unfold turned
  rw [← h]

theorem inw_sending (hb : d.busy = 0) (hne : words ≠ []) :
    Drive.bus.inw ataPrimaryData (turned d (.sending (w :: words) lba left)) =
      (w, turned d (.sending words lba left)) := by
  simp [Drive.bus, Drive.inw, turned, hb, hne]

theorem inw_last (hb : d.busy = 0) :
    Drive.bus.inw ataPrimaryData (turned d (.sending [w] lba left)) = (w, d.afterSector lba left) := by
  by_cases h : left = 0 <;> simp [Drive.bus, Drive.inw, Drive.afterSector, Drive.respond, turned, hb, h]

theorem outw_taking (hb : d.busy = 0) (hlen : words.length + 1 ≠ 256) :
    Drive.bus.outw ataPrimaryData w (turned d (.taking words lba left)) =
      turned d (.taking (words ++ [w]) lba left) := by
  simp only [Drive.bus, Drive.outw, turned, hb, and_self, if_true, if_neg hlen]

theorem outw_last (hb : d.busy = 0) (hlen : words.length + 1 = 256) :
    Drive.bus.outw ataPrimaryData w (turned d (.taking words lba left)) = d.commit (words ++ [w]) lba left := by
  simp only [Drive.bus, Drive.outw, turned, hb, and_self, if_true, if_pos hlen]
  rfl

/-- One word of `readWords`. -/
def readWord (a j : Nat) (x : Mem × Drive) : Mem × Drive :=
  (x.1.storeLE (a + 2 * j) 2 (Drive.bus.inw ataPrimaryData x.2).1.toNat, (Drive.bus.inw ataPrimaryData x.2).2)

/-- **Reading a sector.** -/
theorem readWords_sending (hb : d.busy = 0) (hs : d.stage = .sending (wordsOf s) lba left) (m : Mem) (a : Nat) :
    readWords Drive.bus a (m, d) = (m.storeVec a s, d.afterSector lba left) := by
  -- all but the last word
  have hinit : ∀ j ≤ 255, forUpTo (readWord a) j (m, d) =
      (m.store a (2 * j) (byteOf s), turned d (.sending ((wordsOf s).drop j) lba left)) := by
    intro j hj
    induction j with
    | zero =>
      rw [forUpTo, List.drop_zero, turned_of_stage hs, Nat.mul_zero, Mem.store_zero]
    | succ j ih =>
      have hne := (drop_wordsOf_ne_nil s (j := j + 1)).mpr (by omega)
      rw [forUpTo, ih (by omega), drop_wordsOf s (by omega)]
      simp only [readWord]
      rw [inw_sending hb hne, store_word]
  have hnil : (wordsOf s).drop 256 = [] := by
    by_contra hne
    exact absurd ((drop_wordsOf_ne_nil s).mp hne) (by omega)
  have hloop : readWords Drive.bus a (m, d) = forUpTo (readWord a) (255 + 1) (m, d) := rfl
  rw [hloop, forUpTo, hinit 255 (le_refl _), drop_wordsOf s (by omega), hnil]
  simp only [readWord]
  rw [inw_last hb, store_word]
  rfl

/-- The word that a write passes. -/
def memWord (m : Mem) (a j : Nat) : UInt16 := UInt16.ofNat (m.loadLE (a + 2 * j) 2)

theorem sectorOf_memWords (m : Mem) (a : Nat) : sectorOf ((List.range 256).map (memWord m a)) = m.loadVec a 512 := by
  ext x hx
  have hlt : x / 2 < 256 := by omega
  have hw : ((List.range 256).map (memWord m a)).getD (x / 2) 0 = memWord m a (x / 2) := by
    simp [List.getD, hlt]
  have ht : (memWord m a (x / 2)).toNat = m.loadLE (a + 2 * (x / 2)) 2 := UInt16.toNat_ofNat_of_lt' Mem.loadLE_lt
  simp only [sectorOf, Mem.loadVec, Vector.getElem_ofFn, hw, ht]
  rw [Mem.byte_loadLE (Nat.mod_lt _ (by omega)), show a + 2 * (x / 2) + x % 2 = a + x by omega]

/-- **Writing a sector.** -/
theorem writeWords_taking (hb : d.busy = 0) (hs : d.stage = .taking [] lba left) (m : Mem) (a : Nat) :
    writeWords Drive.bus m a d = d.commit ((List.range 256).map (memWord m a)) lba left := by
  have hinit : ∀ j ≤ 255, forUpTo (fun j s => Drive.bus.outw ataPrimaryData (memWord m a j) s) j d =
      turned d (.taking ((List.range j).map (memWord m a)) lba left) := by
    intro j hj
    induction j with
    | zero =>
      exact (turned_of_stage hs).symm
    | succ j ih =>
      rw [forUpTo, ih (by omega), outw_taking hb (by simp; omega), List.range_succ, List.map_append]
      rfl
  have hloop : writeWords Drive.bus m a d =
      forUpTo (fun j s => Drive.bus.outw ataPrimaryData (memWord m a j) s) (255 + 1) d := rfl
  rw [hloop, forUpTo, hinit 255 (le_refl _), outw_last hb (by simp),
    show List.range 256 = List.range 255 ++ [255] from List.range_succ, List.map_append]
  rfl

end Words

end AmqOs.Ata
