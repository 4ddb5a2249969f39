import AmqOs.Vfs.TinyfsChains

/-!
# The loops of `tinyfs_read` and `tinyfs_write`

`byteAt disk c p` is the byte at position `p` of the blocks `c`. On a reliable disk and a state with the invariant:

- the extension loop lengthens the chain until it reaches the block asked for, or until the disk is full
  (`extendLoop_spec`);
- the writing loop changes exactly the positions it writes (`writeLoop_spec`);
- the reading loop returns the bytes at the positions it covers (`readLoop_spec`).

`tinyfsWrite_spec` and `tinyfsRead_spec` put these together.
-/

set_option autoImplicit false

namespace AmqOs.Vfs

open AmqOs.Lib

/-- The byte at position `p` of a chain of blocks. -/
def byteAt (disk : Disk) (blocks : List Nat) (p : Nat) : UInt8 :=
  match blocks[p / 512]? with
  | some b => ofSector (disk.sectors b) (p % 512)
  | none => 0

theorem byteAt_eq {disk : Disk} {blocks : List Nat} {p b : Nat} (h : blocks[p / 512]? = some b) :
    byteAt disk blocks p = ofSector (disk.sectors b) (p % 512) := by
  simp [byteAt, h]

theorem byteAt_append {disk : Disk} {blocks new : List Nat} {p : Nat} (h : p < 512 * blocks.length) :
    byteAt disk (blocks ++ new) p = byteAt disk blocks p := by
  unfold byteAt
  rw [List.getElem?_append_left (by omega)]

/-- Only the sectors of the chain matter. -/
theorem byteAt_congr {disk disk' : Disk} {blocks : List Nat} {p : Nat}
    (h : ∀ b ∈ blocks, disk'.sectors b = disk.sectors b) : byteAt disk' blocks p = byteAt disk blocks p := by
  unfold byteAt
  cases hc : blocks[p / 512]? with
  | none => rfl
  | some b => simp only [h b (List.mem_of_getElem? hc)]

section Loops

variable {d : TinyfsData} {live : Fin 256 → Prop} {ch : Fin 256 → List Nat} {i : Fin 256}

/-! ## Extending -/

/-- **The extension loop**, from block `k` of the chain to block `k + n`. -/
theorem extendLoop_spec (h : Inv d live ch) (hi : live i) {cur : UInt32} {k : Nat}
    (hcur : (ch i)[k]? = some cur.toNat) (n : Nat) :
    ∃ new d', Grown d live ch i new d' ∧
      ((∃ cur', extendLoop n d cur = .ok (some cur', d') ∧ (ch i ++ new)[k + n]? = some cur'.toNat ∧
          new.length = k + n + 1 - (ch i).length) ∨
        (extendLoop n d cur = .ok (none, d') ∧ freeSet d'.fat = ∅ ∧ (ch i ++ new).length ≤ k + n)) := by
  have hk := (List.getElem?_eq_some_iff.mp hcur).1
  induction n generalizing d ch cur k with
  | zero => exact ⟨[], d, .refl h i, .inl ⟨cur, rfl, by simpa using hcur, by simp; omega⟩⟩
  | succ n ih =>
    rcases nextBlock_spec h hi hcur with ⟨nxt, hn, hnxt⟩ | ⟨hlast, b, d₁, hn, hg⟩ | ⟨hlast, hf, hn⟩
    · obtain ⟨new, d', hg, hres⟩ := ih h hnxt (List.getElem?_eq_some_iff.mp hnxt).1
      refine ⟨new, d', hg, ?_⟩
      rw [show k + (n + 1) = k + 1 + n by omega]
      simpa only [extendLoop, hn, ok_bind] using hres
    · have hcur₁ : (Function.update ch i (ch i ++ [b.toNat]) i)[k + 1]? = some b.toNat := by
        rw [Function.update_self, hlast]
        simp
      obtain ⟨new, d', hg', hres⟩ := ih hg.inv hcur₁ (List.getElem?_eq_some_iff.mp hcur₁).1
      refine ⟨[b.toNat] ++ new, d', hg.trans hg', ?_⟩
      rw [show k + (n + 1) = k + 1 + n by omega]
      simp only [Function.update_self, List.append_assoc, List.length_append, List.length_singleton] at hres ⊢
      simp only [extendLoop, hn, ok_bind]
      rcases hres with ⟨cur', h1, h2, h3⟩ | ⟨h1, h2, h3⟩
      · exact .inl ⟨cur', h1, h2, by omega⟩
      · exact .inr ⟨h1, h2, h3⟩
    · refine ⟨[], d, .refl h i, .inr ⟨by simp [extendLoop, hn], hf, ?_⟩⟩
      simp only [List.append_nil]
      omega

/-- The first block: it is there, it is allocated, or the disk is full. -/
theorem ensureFirstBlock_spec (h : Inv d live ch) (hi : live i) :
    (ensureFirstBlock d i = .ok none ∧ ch i = [] ∧ freeSet d.fat = ∅) ∨
      ∃ new d', ensureFirstBlock d i = .ok (some d') ∧ Grown d live ch i new d' ∧
        (ch i ++ new)[0]? = some (d'.dirents.get i).firstBlock.toNat ∧ new.length = 1 - (ch i).length := by
  by_cases h0 : (d.dirents.get i).firstBlock = 0
  · have hnil := (h.chains.entry i hi).empty h0
    rcases allocateBlock_spec h.layout with ⟨hf, ha⟩ | ⟨b, hb, ha⟩
    · exact .inl ⟨by simp [ensureFirstBlock, h0, ha], hnil, hf⟩
    · right
      obtain ⟨h1, h2, h3⟩ := mem_freeSet.mp hb
      have hbn : (UInt32.ofNat b).toNat = b := by rw [UInt32.toNat_ofNat']; omega
      have ht := h.take hb
      have hfree := takeBlock_free hb
      have hinv : Inv ((takeBlock d b).modifyDirent i fun e => { e with firstBlock := UInt32.ofNat b }) live
          (Function.update ch i (ch i ++ [b])) := by
        refine ⟨ht.layout, ht.chains.replace (fun _ _ hj => hj) (fun j hj => modifyDirent_of_ne _ _ hj)
          (fun _ _ _ _ _ => rfl) (fun _ => ?_) fun j hji hj c hc hcj => ?_⟩
        · refine ⟨fun e => ?_, fun _ => ?_, fun c hc => ?_, ?_⟩
          · rw [modifyDirent_self] at e
            simp only at e
            rw [e] at hbn
            simp at hbn
            omega
          · simp only [modifyDirent_self, modifyDirent_fat, hbn, hnil, List.nil_append, ne_eq, List.cons_ne_nil,
              not_false_eq_true, true_and]
            exact .cons (by rw [eof_toNat]; omega) (by simp [fatNext, takeBlock, fatPut_self h2]) .nil
          · simp only [hnil, List.nil_append, List.mem_singleton] at hc
            omega
          · have hs := (h.chains.entry i hi).size
            rw [hnil] at hs
            simp only [modifyDirent_self, List.length_append, List.length_singleton]
            exact le_trans (show _ ≤ 512 * 0 from hs) (by omega)
        · simp only [hnil, List.nil_append, List.mem_singleton] at hc
          exact h.not_free hj (hc ▸ hcj) hb
      refine ⟨[b], _, by simp [ensureFirstBlock, h0, ha], ⟨hinv, ⟨_, modifyDirent_self _ _ _⟩,
        fun j hj => modifyDirent_of_ne _ _ hj, by simpa using hb, ?_, rfl, fun e => absurd e (by simp)⟩, ?_, ?_⟩
      · simp only [modifyDirent_fat, hfree, List.toFinset_cons, List.toFinset_nil, insert_empty_eq,
          Finset.sdiff_singleton_eq_erase]
      · simp [hnil, hbn]
      · simp [hnil]
  · right
    have hc := (h.chains.entry i hi).chain h0
    have hpos : 0 < (ch i).length := List.length_pos_iff.mpr hc.1
    refine ⟨[], d, by simp [ensureFirstBlock, h0], .refl h i, ?_, by simp; omega⟩
    rw [List.append_nil, List.getElem?_eq_getElem hpos, hc.2.getElem_zero hpos]

/-! ## Writing -/

/-- A sector of the chain is replaced. -/
theorem byteAt_put {disk : Disk} {blocks : List Nat} (hnd : blocks.Nodup) {j b : Nat} (hj : blocks[j]? = some b)
    (m : Mem) (p : Nat) :
    byteAt (disk.put b (toSector m)) blocks p = if p / 512 = j then m (p % 512) else byteAt disk blocks p := by
  by_cases hp : p / 512 = j
  · subst hp
    rw [if_pos rfl, byteAt_eq hj, Disk.put_sectors_self, ofSector_toSector (Nat.mod_lt _ (by omega))]
  · rw [if_neg hp]
    unfold byteAt
    cases hc : blocks[p / 512]? with
    | none => rfl
    | some b' =>
      have hne : b' ≠ b := by
        rintro rfl
        obtain ⟨h1, e1⟩ := List.getElem?_eq_some_iff.mp hc
        obtain ⟨h2, e2⟩ := List.getElem?_eq_some_iff.mp hj
        exact hp (hnd.getElem_inj_iff.mp (e1.trans e2.symm))
      simp only [Disk.put_sectors_of_ne _ _ hne]

/-- One round of the writing loop: the block gets `toWrite` bytes of the buffer and keeps its others, whether it was
read first or is overwritten as a whole. -/
theorem writeLoop_round (d : TinyfsData) (buffer : List UInt8) {size bo w : Nat} (fuel : Nat) {disk : Disk}
    (cur : UInt32) (bb : Mem) (hr : disk.Reliable) (hw : w < size) (hbo : bo < 512) :
    ∃ m : Mem, (∀ q < 512, m q = if bo ≤ q ∧ q < bo + min (512 - bo) (size - w) then buffer.getD (w + (q - bo)) 0
        else ofSector (disk.sectors (lbaOf cur)) q) ∧
      writeLoop buffer size (fuel + 1) d disk cur bo w bb =
        if w + min (512 - bo) (size - w) < size then
          nextBlock d cur >>= fun r => match r with
            | (none, d) => .ok (some (w + min (512 - bo) (size - w)), d, disk.put (lbaOf cur) (toSector m))
            | (some nxt, d) => writeLoop buffer size fuel d (disk.put (lbaOf cur) (toSector m)) nxt 0
                (w + min (512 - bo) (size - w)) m
        else writeLoop buffer size fuel d (disk.put (lbaOf cur) (toSector m)) cur 0
          (w + min (512 - bo) (size - w)) m := by
  by_cases hc : bo > 0 ∨ size - w < 512
  · refine ⟨(ofSector (disk.sectors (lbaOf cur))).store bo (min (512 - bo) (size - w))
      fun i => buffer.getD (w + i) 0, fun q _ => rfl, ?_⟩
    have heq := Eq.refl (writeLoop buffer size (fuel + 1) d disk cur bo w bb)
    conv_rhs at heq => simp only [writeLoop, hw, if_true, hc, ataReadSectors_reliable hr, ataWriteSectors_reliable hr,
      ne_eq, not_true_eq_false, if_false]
    exact heq
  · refine ⟨bb.store bo (min (512 - bo) (size - w)) fun i => buffer.getD (w + i) 0, fun q hq => ?_, ?_⟩
    · have hin : bo ≤ q ∧ q < bo + min (512 - bo) (size - w) := by omega
      rw [if_pos hin, Mem.store_in hin.1 hin.2]
    · have heq := Eq.refl (writeLoop buffer size (fuel + 1) d disk cur bo w bb)
      conv_rhs at heq => simp only [writeLoop, hw, if_true, hc, if_false, ataWriteSectors_reliable hr, ne_eq,
        not_true_eq_false]
      exact heq

/-- What the writing loop has done when it has gone from `w` to `w'` bytes of a write at `off`. -/
structure Written (buffer : List UInt8) (off w w' : Nat) (disk : Disk) (blocks : List Nat) (disk' : Disk) : Prop where
  reliable : disk'.Reliable
  le : w ≤ w'
  fits : off + w' ≤ 512 * blocks.length
  outside : ∀ l, l ∉ blocks → disk'.sectors l = disk.sectors l
  bytes : ∀ p, byteAt disk' blocks p =
    if off + w ≤ p ∧ p < off + w' then buffer.getD (p - off) 0 else byteAt disk blocks p

theorem Written.refl {buffer : List UInt8} {off w : Nat} {disk : Disk} {blocks : List Nat} (hr : disk.Reliable)
    (hf : off + w ≤ 512 * blocks.length) : Written buffer off w w disk blocks disk :=
  ⟨hr, le_refl _, hf, fun _ _ => rfl, fun p => by rw [if_neg (by omega)]⟩

theorem Written.trans {buffer : List UInt8} {off w w₁ w₂ : Nat} {disk disk₁ disk₂ : Disk} {blocks : List Nat}
    (h₁ : Written buffer off w w₁ disk blocks disk₁) (h₂ : Written buffer off w₁ w₂ disk₁ blocks disk₂) :
    Written buffer off w w₂ disk blocks disk₂ := by
  have hle₁ := h₁.le
  have hle₂ := h₂.le
  refine ⟨h₂.reliable, by omega, h₂.fits, fun l hl => by rw [h₂.outside l hl, h₁.outside l hl], fun p => ?_⟩
  rw [h₂.bytes p, h₁.bytes p]
  by_cases hp₂ : off + w₁ ≤ p ∧ p < off + w₂
  · rw [if_pos hp₂, if_pos (by omega)]
  · by_cases hp₁ : off + w ≤ p ∧ p < off + w₁
    · rw [if_neg hp₂, if_pos hp₁, if_pos (by omega)]
    · rw [if_neg hp₂, if_neg hp₁, if_neg (by omega)]

/-- The disk after one round. -/
theorem Written.round {buffer : List UInt8} {size off w bo j b : Nat} {disk : Disk} {blocks : List Nat} {m : Mem}
    (hr : disk.Reliable) (hnd : blocks.Nodup) (hj : blocks[j]? = some b) (hbo : bo < 512)
    (hoff : off + w = 512 * j + bo) (hm : ∀ q < 512, m q = if bo ≤ q ∧ q < bo + min (512 - bo) (size - w) then buffer.getD (w + (q - bo)) 0
      else ofSector (disk.sectors b) q) :
    Written buffer off w (w + min (512 - bo) (size - w)) disk blocks (disk.put b (toSector m)) := by
  have hjlen := (List.getElem?_eq_some_iff.mp hj).1
  refine ⟨hr, by omega, by omega, fun l hl => ?_, fun p => ?_⟩
  · exact Disk.put_sectors_of_ne _ _ fun e => hl (e ▸ List.mem_of_getElem? hj)
  · rw [byteAt_put hnd hj]
    by_cases hp : p / 512 = j
    · rw [if_pos hp, hm _ (Nat.mod_lt _ (by omega))]
      by_cases hin : bo ≤ p % 512 ∧ p % 512 < bo + min (512 - bo) (size - w)
      · rw [if_pos hin, if_pos (by omega)]
        congr 1
        omega
      · rw [if_neg hin, if_neg (by omega), byteAt_eq (by rw [hp]; exact hj)]
    · rw [if_neg hp, if_neg (by omega)]

/-- **The writing loop.** It writes everything, or stops where the disk is full. -/
theorem writeLoop_spec (buffer : List UInt8) {size : Nat} (off : Nat) (hi : live i) {fuel : Nat} {disk : Disk}
    {cur : UInt32} {j bo w : Nat} (bb : Mem) (h : Inv d live ch) (hr : disk.Reliable)
    (hcur : (ch i)[j]? = some cur.toNat) (hbo : bo < 512) (hoff : w < size → off + w = 512 * j + bo) (hws : w ≤ size)
    (hfit : off + w ≤ 512 * (ch i).length) (hfuel : size - w ≤ fuel) :
    ∃ new d' disk' w', writeLoop buffer size fuel d disk cur bo w bb = .ok (some w', d', disk') ∧
      Grown d live ch i new d' ∧ Written buffer off w w' disk (ch i ++ new) disk' ∧
      (w' = size ∨ w' < size ∧ freeSet d'.fat = ∅ ∧ off + w' = 512 * (ch i ++ new).length) := by
  induction fuel generalizing d ch disk cur j bo w bb with
  | zero =>
    have hwe : w = size := by omega
    exact ⟨[], d, disk, w, rfl, .refl h i, by rw [List.append_nil]; exact .refl hr hfit, .inl hwe⟩
  | succ fuel ih =>
    by_cases hw : w < size
    · have hmem : cur.toNat ∈ ch i := List.mem_of_getElem? hcur
      have hlba : lbaOf cur = cur.toNat := lbaOf_of_lt (h.range hi hmem).2
      have hjlen := (List.getElem?_eq_some_iff.mp hcur).1
      have hoff' := hoff hw
      obtain ⟨m, hm, hstep⟩ := writeLoop_round d buffer fuel cur bb hr hw hbo
      rw [hlba] at hm hstep
      -- the round, seen from any lengthening of the chain
      have hround : ∀ new, (ch i ++ new).Nodup → Written buffer off w (w + min (512 - bo) (size - w)) disk
          (ch i ++ new) (disk.put cur.toNat (toSector m)) := fun new hnd =>
        .round hr hnd (by rw [List.getElem?_append_left hjlen]; exact hcur) hbo hoff' hm
      have hnd : ∀ {new d'}, Grown d live ch i new d' → (ch i ++ new).Nodup := fun hg => by
        simpa using hg.inv.nodup hi
      by_cases hmore : w + min (512 - bo) (size - w) < size
      · rw [if_pos hmore] at hstep
        have htw : w + min (512 - bo) (size - w) = w + (512 - bo) := by omega
        rcases nextBlock_spec h hi hcur with ⟨nxt, hn, hnxt⟩ | ⟨hlast, b, d₁, hn, hg⟩ | ⟨hlast, hf, hn⟩
        · have hnlen := (List.getElem?_eq_some_iff.mp hnxt).1
          obtain ⟨new, d', disk', w', h1, h2, h3, h4⟩ := ih (w := w + min (512 - bo) (size - w)) m
            h (hr.put _ (toSector m)) hnxt (show 0 < 512 by omega)
            (fun _ => by omega) (by omega) (by omega) (by omega)
          exact ⟨new, d', disk', w', by rw [hstep, hn]; exact h1, h2, (hround new (hnd h2)).trans h3, h4⟩
        · have hcur₁ : (Function.update ch i (ch i ++ [b.toNat]) i)[j + 1]? = some b.toNat := by
            rw [Function.update_self, hlast]
            simp
          obtain ⟨new, d', disk', w', h1, h2, h3, h4⟩ := ih (w := w + min (512 - bo) (size - w)) m
            hg.inv (hr.put _ (toSector m)) hcur₁ (show 0 < 512 by omega)
            (fun _ => by omega) (by omega)
            (by simp only [Function.update_self, List.length_append, List.length_singleton]; omega) (by omega)
          have hg' := hg.trans h2
          simp only [Function.update_self, List.append_assoc] at h3 h4
          exact ⟨[b.toNat] ++ new, d', disk', w', by rw [hstep, hn]; exact h1, hg', (hround _ (hnd hg')).trans h3, h4⟩
        · refine ⟨[], d, _, _, by rw [hstep, hn]; rfl, .refl h i, hround [] (hnd (.refl h i)), .inr ⟨hmore, hf, ?_⟩⟩
          rw [List.append_nil]
          omega
      · rw [if_neg hmore] at hstep
        have hwe : w + min (512 - bo) (size - w) = size := by omega
        obtain ⟨new, d', disk', w', h1, h2, h3, h4⟩ := ih (w := w + min (512 - bo) (size - w)) m
          h (hr.put _ (toSector m)) hcur (show 0 < 512 by omega)
          (fun hlt => absurd hlt (by omega)) (by omega) (by omega) (by omega)
        exact ⟨new, d', disk', w', by rw [hstep]; exact h1, h2, (hround new (hnd h2)).trans h3, h4⟩
    · have hwe : w = size := by omega
      refine ⟨[], d, disk, w, by simp [writeLoop, hw], .refl h i, ?_, .inl hwe⟩
      rw [List.append_nil]
      exact .refl hr hfit

/-! ## Reading -/

theorem readWalk_spec (h : Inv d live ch) (hi : live i) {cur : UInt32} {k : Nat}
    (hcur : (ch i)[k]? = some cur.toNat) (n : Nat) (hn : k + n < (ch i).length) :
    ∃ cur', readWalk d n cur = .ok cur' ∧ (ch i)[k + n]? = some cur'.toNat := by
  induction n generalizing cur k with
  | zero => exact ⟨cur, rfl, hcur⟩
  | succ n ih =>
    have hmem : cur.toNat ∈ ch i := List.mem_of_getElem? hcur
    obtain ⟨v, hv, hnext⟩ := fatGet_chain h hi hcur
    have hne : cur ≠ eof := h.ne_eof hi hmem
    rcases hnext with ⟨_, hlast⟩ | hnext
    · omega
    · obtain ⟨cur', h1, h2⟩ := ih hnext (by omega)
      refine ⟨cur', by simpa [readWalk, hne, hv] using h1, ?_⟩
      rw [show k + (n + 1) = k + 1 + n by omega]
      exact h2

/-- **The reading loop** stops at the size asked for or at the end of the chain. -/
theorem readLoop_spec (h : Inv d live ch) (hi : live i) {disk : Disk} (hr : disk.Reliable) {size off total : Nat}
    (ht : total = min size (512 * (ch i).length - off)) {fuel : Nat} {cur : UInt32} {j bo r : Nat} (hrt : r ≤ total)
    (hfuel : size - r ≤ fuel) (hpos : r < size → (cur = eof ∧ r = total) ∨
      ((ch i)[j]? = some cur.toNat ∧ off + r = 512 * j + bo ∧ bo < 512)) :
    readLoop d size fuel cur bo ((List.range r).map fun q => byteAt disk (ch i) (off + q)) disk =
      .ok (some total, (List.range total).map fun q => byteAt disk (ch i) (off + q), disk) := by
  induction fuel generalizing cur j bo r with
  | zero =>
    have hre : r = total := by omega
    simp [readLoop, hre]
  | succ fuel ih =>
    by_cases hlt : r < size
    · rcases hpos hlt with ⟨he, hre⟩ | ⟨hcur, hoff, hbo⟩
      · simp [readLoop, he, hre]
      · have hmem : cur.toNat ∈ ch i := List.mem_of_getElem? hcur
        have hjlen := (List.getElem?_eq_some_iff.mp hcur).1
        have hlba : lbaOf cur = cur.toNat := lbaOf_of_lt (h.range hi hmem).2
        obtain ⟨v, hv, hnext⟩ := fatGet_chain h hi hcur
        -- the bytes copied in this round are those of the file
        have hcopy : (List.range r).map (fun q => byteAt disk (ch i) (off + q)) ++
            (List.range (min (512 - bo) (size - r))).map (fun q => ofSector (disk.sectors cur.toNat) (bo + q)) =
            (List.range (r + min (512 - bo) (size - r))).map fun q => byteAt disk (ch i) (off + q) := by
          rw [List.range_add, List.map_append, List.map_map]
          congr 1
          refine List.map_congr_left fun q hq => ?_
          have hq' := List.mem_range.mp hq
          have hdiv : (off + (r + q)) / 512 = j := by omega
          have hmod : (off + (r + q)) % 512 = bo + q := by omega
          rw [Function.comp_apply, byteAt_eq (by rw [hdiv]; exact hcur), hmod]
        have hstep : readLoop d size (fuel + 1) cur bo
            ((List.range r).map fun q => byteAt disk (ch i) (off + q)) disk =
            readLoop d size fuel v 0
              ((List.range (r + min (512 - bo) (size - r))).map fun q => byteAt disk (ch i) (off + q)) disk := by
          simp only [readLoop, List.length_map, List.length_range, hlt, ne_eq, h.ne_eof hi hmem, not_false_eq_true,
            and_self, if_true, ataReadSectors_reliable hr, hlba, hcopy, hv, ok_bind]
        rw [hstep]
        refine ih (j := j + 1) (by omega) (by omega) fun hlt' => ?_
        rcases hnext with ⟨he, hlast⟩ | hnext
        · exact .inl ⟨he, by omega⟩
        · exact .inr ⟨hnext, by omega, by omega⟩
    · have hre : r = total := by omega
      subst hre
      simp [readLoop, hlt]

end Loops

end AmqOs.Vfs
