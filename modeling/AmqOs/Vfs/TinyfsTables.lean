import AmqOs.Vfs.TinyfsFrame
import AmqOs.Vfs.TinyfsFiles

/-!
# The tables after a write

Both loops of `tinyfs_write` go on to the next block in the same way, so the tables after a write that stores all its
bytes are those after one walk to the block of its last byte, and the new size (`Lengthened`, `tinyfsWrite_tables`).
A walk can be cut at any block (`extendLoop_add`, `extendLoop_again`), and therefore so can a write
(`Lengthened.trans`); `Stored.trans` is the same for its bytes.
-/

set_option autoImplicit false

namespace AmqOs.Vfs

open AmqOs.Lib

/-! ## Walks -/

section Walks

variable {d d' : TinyfsData} {i : Fin 256}

theorem modifyDirent_modifyDirent (d : TinyfsData) (i : Fin 256) (f g : Dirent → Dirent) :
    (d.modifyDirent i f).modifyDirent i g = d.modifyDirent i fun e => g (f e) := by
  simp only [TinyfsData.modifyDirent, get_setAt_self, setAt_setAt]

theorem modifyDirent_id (d : TinyfsData) {i : Fin 256} {f : Dirent → Dirent}
    (hf : f (d.dirents.get i) = d.dirents.get i) : d.modifyDirent i f = d := by
  simp only [TinyfsData.modifyDirent, hf, setAt_get_self]

/-- A walk in two parts. -/
theorem extendLoop_add (m n : Nat) (d : TinyfsData) (cur : UInt32) :
    extendLoop (m + n) d cur = extendLoop m d cur >>= fun r => match r with
      | (none, d) => .ok (none, d)
      | (some cur, d) => extendLoop n d cur := by
  induction m generalizing d cur with
  | zero => rw [Nat.zero_add]; rfl
  | succ m ih =>
    rw [Nat.succ_add, extendLoop, extendLoop]
    cases nextBlock d cur with
    | error f => rfl
    | ok r =>
      obtain ⟨b, d₁⟩ := r
      cases b with
      | none => rfl
      | some b => exact ih d₁ b

theorem fatGet_modifyDirent (d : TinyfsData) (i : Fin 256) (f : Dirent → Dirent) (b : UInt32) :
    (d.modifyDirent i f).fatGet b = d.fatGet b := rfl

theorem fatSet_modifyDirent (d : TinyfsData) (i : Fin 256) (f : Dirent → Dirent) (b v : UInt32) :
    (d.modifyDirent i f).fatSet b v = (d.fatSet b v).map (·.modifyDirent i f) := by
  unfold TinyfsData.fatSet
  split <;> rfl

theorem allocateBlock_modifyDirent (d : TinyfsData) (i : Fin 256) (f : Dirent → Dirent) :
    allocateBlock (d.modifyDirent i f) = (allocateBlock d).map fun r => (r.1, r.2.modifyDirent i f) := by
  simp only [allocateBlock, modifyDirent_sb, modifyDirent_fat, fatSet_modifyDirent]
  split
  · rfl
  · rename_i b _
    cases d.fatSet (UInt32.ofNat b) eof <;> rfl

theorem nextBlock_modifyDirent (d : TinyfsData) (i : Fin 256) (f : Dirent → Dirent) (cur : UInt32) :
    nextBlock (d.modifyDirent i f) cur = (nextBlock d cur).map fun r => (r.1, r.2.modifyDirent i f) := by
  simp only [nextBlock, fatGet_modifyDirent, allocateBlock_modifyDirent]
  cases d.fatGet cur with
  | error e => rfl
  | ok v =>
    simp only [ok_bind]
    split
    · cases allocateBlock d with
      | error e => rfl
      | ok r =>
        obtain ⟨b, d₁⟩ := r
        cases b with
        | none => rfl
        | some b =>
          simp only [Except.map, ok_bind, fatSet_modifyDirent]
          cases d₁.fatSet cur b with
          | error e => rfl
          | ok d₂ =>
            simp only [ok_bind, fatGet_modifyDirent]
            cases d₂.fatGet cur <;> rfl
    · rfl

/-- The walk does not look at the directory. -/
theorem extendLoop_modifyDirent (n : Nat) (d : TinyfsData) (i : Fin 256) (f : Dirent → Dirent) (cur : UInt32) :
    extendLoop n (d.modifyDirent i f) cur = (extendLoop n d cur).map fun r => (r.1, r.2.modifyDirent i f) := by
  induction n generalizing d cur with
  | zero => rfl
  | succ n ih =>
    simp only [extendLoop, nextBlock_modifyDirent]
    cases nextBlock d cur with
    | error e => rfl
    | ok r =>
      obtain ⟨b, d₁⟩ := r
      cases b with
      | none => rfl
      | some b => exact ih d₁ b

/-- A walk that got to its end can be made again and then changes nothing. -/
theorem extendLoop_again {live : Fin 256 → Prop} {ch : Fin 256 → List Nat} (h : Inv d live ch) (hi : live i)
    {cur last : UInt32} (hcur : (ch i)[0]? = some cur.toNat) {n : Nat}
    (hx : extendLoop n d cur = .ok (some last, d')) :
    (∃ new, Grown d live ch i new d') ∧ extendLoop n d' cur = .ok (some last, d') := by
  obtain ⟨new, d₁, hg, ⟨last', hx', hlast, -⟩ | ⟨hx', -, -⟩⟩ := extendLoop_spec h hi hcur n
  · obtain ⟨hl, rfl⟩ : some last' = some last ∧ d₁ = d' := Prod.mk.inj (Except.ok.inj (hx'.symm.trans hx))
    obtain rfl := Option.some.inj hl
    have hlen := (List.getElem?_eq_some_iff.mp hlast).1
    have hcur₁ : (Function.update ch i (ch i ++ new) i)[0]? = some cur.toNat := by
      rw [Function.update_self, List.getElem?_append_left (List.getElem?_eq_some_iff.mp hcur).1, hcur]
    obtain ⟨new₂, d₂, hg₂, ⟨last₂, hx₂, hlast₂, hnew₂⟩ | ⟨-, -, hlen₂⟩⟩ := extendLoop_spec hg.inv hi hcur₁ n
    · rw [Function.update_self] at hlast₂ hnew₂
      obtain rfl : new₂ = [] := List.length_eq_zero_iff.mp (by omega)
      rw [List.append_nil, hlast] at hlast₂
      obtain rfl := UInt32.toNat_inj.mp (Option.some.inj hlast₂)
      rw [hg₂.same rfl] at hx₂
      exact ⟨⟨new, hg⟩, hx₂⟩
    · rw [Function.update_self, List.length_append] at hlen₂
      omega
  · cases hx'.symm.trans hx

/-- The writing loop walks to the block of the last byte. -/
theorem writeLoop_extend {buffer : List UInt8} {size fuel : Nat} {disk disk' : Disk} {cur : UInt32} {bo w : Nat}
    {bb : Mem} (hw : w ≤ size) (hbo : bo < 512) (hfuel : size - w ≤ fuel)
    (h : writeLoop buffer size fuel d disk cur bo w bb = .ok (some size, d', disk')) :
    ∃ last, extendLoop ((bo + (size - w) - 1) / 512) d cur = .ok (some last, d') := by
  induction fuel generalizing d disk cur bo w bb with
  | zero =>
    obtain ⟨-, rfl, -⟩ : w = size ∧ d = d' ∧ disk = disk' := by simpa [writeLoop] using h
    rw [show (bo + (size - w) - 1) / 512 = 0 by omega]
    exact ⟨cur, rfl⟩
  | succ fuel ih =>
    by_cases hlt : w < size
    · simp only [writeLoop_succ d buffer fuel disk cur bb hlt] at h
      generalize writeRound buffer size bo w disk cur bb = round at h
      split at h
      · cases h
      · split at h
        · rename_i hmore
          obtain ⟨⟨b, d₁⟩, hn, h⟩ := bind_eq_ok.mp h
          cases b with
          | none =>
            obtain ⟨hall, -, -⟩ : w + min (512 - bo) (size - w) = size ∧ d₁ = d' ∧ round.2.2 = disk' := by simpa using h
            omega
          | some b =>
            obtain ⟨last, hx⟩ := ih (by omega) (show 0 < 512 by omega) (by omega) h
            rw [show (bo + (size - w) - 1) / 512 =
              (0 + (size - (w + min (512 - bo) (size - w))) - 1) / 512 + 1 by omega, extendLoop, hn, ok_bind]
            exact ⟨last, hx⟩
        · obtain ⟨last, hx⟩ := ih (by omega) (show 0 < 512 by omega) (by omega) h
          rw [show (0 + (size - (w + min (512 - bo) (size - w))) - 1) / 512 = 0 by omega] at hx
          rw [show (bo + (size - w) - 1) / 512 = 0 by omega]
          exact ⟨last, hx⟩
    · rw [writeLoop, if_neg hlt] at h
      obtain ⟨-, rfl, -⟩ : w = size ∧ d = d' ∧ disk = disk' := by simpa using h
      rw [show (bo + (size - w) - 1) / 512 = 0 by omega]
      exact ⟨cur, rfl⟩

end Walks

/-! ## Writes -/

/-- The block of the last byte of a write of `n` bytes at `p`, counted in the file; without a byte, that of `p`. -/
def lastBlock (p n : Nat) : Nat := p / 512 + (p % 512 + n - 1) / 512

/-- The size of an entry after a write that ends at `n`. -/
def raiseSize (n : UInt32) (e : Dirent) : Dirent := if e.size < n then { e with size := n } else e

/-- The tables after `n` bytes have been written at `p` of entry `i`. -/
def Lengthened (d : TinyfsData) (i : Fin 256) (p n : Nat) (d' : TinyfsData) : Prop :=
  ∃ d₁ last d₂, ensureFirstBlock d i = .ok (some d₁) ∧
    extendLoop (lastBlock p n) d₁ (d₁.dirents.get i).firstBlock = .ok (some last, d₂) ∧
    d' = d₂.modifyDirent i (raiseSize (UInt32.ofNat (p + n)))

section Writes

variable {d d₁ d₂ : TinyfsData} {live : Fin 256 → Prop} {ch : Fin 256 → List Nat} {i : Fin 256} {p n m : Nat}

theorem raiseSize_firstBlock (n : UInt32) (e : Dirent) : (raiseSize n e).firstBlock = e.firstBlock := by
  unfold raiseSize
  split <;> rfl

theorem raiseSize_raiseSize {a b : UInt32} (h : a ≤ b) (e : Dirent) : raiseSize b (raiseSize a e) = raiseSize b e := by
  have hab := UInt32.le_iff_toNat_le.mp h
  unfold raiseSize
  by_cases ha : e.size < a
  · have ha' := UInt32.lt_iff_toNat_lt.mp ha
    have hb : e.size < b := UInt32.lt_iff_toNat_lt.mpr (by omega)
    rw [if_pos ha, if_pos hb]
    split
    · rfl
    · rename_i hnot
      obtain rfl : a = b := UInt32.toNat_inj.mp (by
        have hle := mt UInt32.lt_iff_toNat_lt.mpr hnot
        simp only at hle
        omega)
      rfl
  · rw [if_neg ha]

/-- The tables are determined. -/
theorem Lengthened.unique (h₁ : Lengthened d i p n d₁) (h₂ : Lengthened d i p n d₂) : d₁ = d₂ := by
  obtain ⟨e, l, x, he, hx, rfl⟩ := h₁
  obtain ⟨e', l', x', he', hx', rfl⟩ := h₂
  obtain rfl := Option.some.inj (Except.ok.inj (he.symm.trans he'))
  rw [(Prod.mk.inj (Except.ok.inj (hx.symm.trans hx'))).2]

/-- **Two writes** one after the other leave the tables of one. -/
theorem Lengthened.trans (h : Inv d live ch) (hi : live i) (h₁ : Lengthened d i p n d₁)
    (h₂ : Lengthened d₁ i (p + n) m d₂) (hm : 0 < m) (hfit : p + n + m < 2 ^ 32) :
    Lengthened d i p (n + m) d₂ := by
  obtain ⟨e, last₁, x₁, he, hx₁, rfl⟩ := h₁
  obtain ⟨e', last₂, x₂, he', hx₂, rfl⟩ := h₂
  obtain ⟨new, e₁, hens, hg, hfirst, -⟩ := (ensureFirstBlock_spec h hi).resolve_left fun hno => by
    cases hno.1.symm.trans he
  obtain rfl : e₁ = e := Option.some.inj (Except.ok.inj (hens.symm.trans he))
  have hfb : (e₁.dirents.get i).firstBlock ≠ 0 := by
    intro h0
    have hmem : (e₁.dirents.get i).firstBlock.toNat ∈ ch i ++ new := List.mem_of_getElem? hfirst
    have hr := hg.inv.range hi (by rwa [Function.update_self])
    rw [h0] at hr
    exact absurd hr.1 (by decide)
  -- the second write starts from the same first block
  have hdir : ((x₁.modifyDirent i (raiseSize (UInt32.ofNat (p + n)))).dirents.get i).firstBlock =
      (e₁.dirents.get i).firstBlock := by
    rw [modifyDirent_self, raiseSize_firstBlock, (extendLoop_frame hx₁).dirents]
  have he₂ : e' = x₁.modifyDirent i (raiseSize (UInt32.ofNat (p + n))) := by
    rw [ensureFirstBlock, hdir, if_neg hfb] at he'
    exact (Option.some.inj (Except.ok.inj he')).symm
  subst he₂
  rw [hdir, extendLoop_modifyDirent] at hx₂
  -- and walks on from where the first one stopped
  have hfirst' : (Function.update ch i (ch i ++ new) i)[0]? = some (e₁.dirents.get i).firstBlock.toNat := by
    rw [Function.update_self, hfirst]
  obtain ⟨-, hagain⟩ := extendLoop_again hg.inv hi hfirst' hx₁
  obtain ⟨k, hk⟩ : ∃ k, lastBlock (p + n) m = lastBlock p n + k := ⟨lastBlock (p + n) m - lastBlock p n, by
    unfold lastBlock
    omega⟩
  have hlast : lastBlock p (n + m) = lastBlock p n + k := by
    rw [← hk]
    unfold lastBlock
    omega
  rw [hk, extendLoop_add, hagain, ok_bind] at hx₂
  simp only at hx₂
  cases hw : extendLoop k x₁ last₁ with
  | error f => simp [hw, Except.map] at hx₂
  | ok r =>
    rw [hw] at hx₂
    obtain ⟨hr, rfl⟩ := Prod.mk.inj (Except.ok.inj hx₂)
    refine ⟨e₁, last₂, r.2, hens, ?_, ?_⟩
    · rw [hlast, extendLoop_add, hx₁, ok_bind]
      exact hw.trans (by rw [← hr])
    · have hle : UInt32.ofNat (p + n) ≤ UInt32.ofNat (p + n + m) := by
        rw [UInt32.le_iff_toNat_le, UInt32.toNat_ofNat', UInt32.toNat_ofNat']
        omega
      rw [modifyDirent_modifyDirent, Nat.add_assoc]
      congr 1
      funext e
      rw [← Nat.add_assoc, raiseSize_raiseSize hle]

/-- The chain when the disk has become full. -/
theorem Grown.length_full {new : List Nat} (hg : Grown d live ch i new d₁) (hi : live i) (hf : freeSet d₁.fat = ∅) :
    (ch i ++ new).length = (ch i).length + (freeSet d.fat).card := by
  have hcard := hg.card hi
  rw [hf, Finset.card_empty] at hcard
  rw [List.length_append]
  omega

/-- The end of a write, with the new size. -/
theorem finishWrite_tables (d : TinyfsData) (disk : Disk) (node : Node) (i : Fin 256) (offset k : UInt32) :
    (finishWrite d disk node i offset k).2.data = d.modifyDirent i (raiseSize (offset + k)) := by
  have hd : (if (d.dirents.get i).size < offset + k then
      d.modifyDirent i fun e => { e with size := offset + k } else d) = d.modifyDirent i (raiseSize (offset + k)) := by
    split
    · rename_i hlt
      simp only [TinyfsData.modifyDirent, raiseSize, if_pos hlt]
    · rename_i hlt
      rw [modifyDirent_id]
      exact if_neg hlt
  exact hd

/-- **Writing with enough room**: everything is stored, and the tables are those of one walk. -/
theorem tinyfsWrite_room {s : Tinyfs} (h : Inv s.data live ch) (hi : live i) (hr : s.disk.Reliable) {node : Node}
    (hn : node.dirent = some i) (buffer : List UInt8) (offset : UInt32)
    (hreach : offset.toNat / 512 < (ch i).length + (freeSet s.data.fat).card)
    (hroom : offset.toNat + buffer.length ≤ 512 * ((ch i).length + (freeSet s.data.fat).card)) :
    ∃ new s', tinyfsWrite s node buffer offset =
        .ok (cInt (UInt32.ofNat buffer.length), nodeAfter s i node offset buffer.length, s') ∧
      Stored s live ch i buffer offset new buffer.length s' ∧
      Lengthened s.data i offset.toNat buffer.length s'.data := by
  have hcl := h.length_le hi
  have hfl := @card_freeSet_le s.data.fat
  have hsize : (UInt32.ofNat buffer.length).toNat = buffer.length := by rw [UInt32.toNat_ofNat']; omega
  rcases tinyfsWrite_spec h hi hr hn buffer offset with ⟨hnil, hf, -⟩ | ⟨new, d', hg, hf, -, hlen, -⟩ |
    ⟨new, w, s', he, hst⟩
  · rw [hnil, hf] at hreach
    exact absurd hreach (by simp)
  · rw [hg.length_full hi hf] at hlen
    omega
  · obtain rfl : w = buffer.length := by
      rcases hst.count with hw | ⟨hw, hf, hend⟩
      · rw [hw, hsize]
      · have hcard := hst.card hi
        rw [hf, Finset.card_empty] at hcard
        rw [List.length_append] at hend
        omega
    refine ⟨new, s', he, hst, ?_⟩
    obtain ⟨new₁, d₁, hens, hg₁, hfirst, -⟩ := (ensureFirstBlock_spec h hi).resolve_left fun ⟨hno, hnil, hf⟩ => by
      rw [hnil, hf] at hreach
      exact absurd hreach (by simp)
    have hfirst' : (Function.update ch i (ch i ++ new₁) i)[0]? = some (d₁.dirents.get i).firstBlock.toNat := by
      rw [Function.update_self, hfirst]
    obtain ⟨new₂, d₂, hg₂, ⟨cur, hx, -, -⟩ | ⟨hx, hf, hlen⟩⟩ :=
      extendLoop_spec hg₁.inv hi hfirst' (offset.toNat / 512)
    · simp only [tinyfsWrite, hn, hens, hx, ok_bind, hsize] at he
      obtain ⟨⟨k, d₃, disk⟩, hl, he⟩ := bind_eq_ok.mp he
      have hk := (writeLoop_frame (Nat.zero_le _) hl).2
      cases k with
      | none =>
        obtain ⟨hneg, -⟩ := Prod.mk.inj (Except.ok.inj he)
        rw [cInt_ofNat (by omega)] at hneg
        omega
      | some k =>
        have hkle := hk k rfl
        obtain ⟨hcount, hfin⟩ := Prod.mk.inj (Except.ok.inj he)
        obtain rfl : k = buffer.length := by
          rw [cInt_ofNat (by omega), cInt_ofNat (by omega)] at hcount
          omega
        obtain ⟨last, hx₂⟩ := writeLoop_extend (Nat.zero_le _) (Nat.mod_lt _ (by omega)) (by omega) hl
        refine ⟨d₁, last, d₃, hens, ?_, ?_⟩
        · rw [lastBlock, extendLoop_add, hx, ok_bind]
          exact hx₂
        · rw [← (Prod.mk.inj hfin).2, finishWrite_tables, UInt32.ofNat_add, UInt32.ofNat_toNat]
    · have hfull := (hg₁.trans hg₂).length_full hi hf
      rw [Function.update_self, List.append_assoc] at hlen
      omega

/-! ## Bytes -/

/-- The bytes after a write, seen from a longer chain. -/
theorem Stored.bytes_append {s s' : Tinyfs} {buffer : List UInt8} {offset : UInt32} {new more : List Nat} {w : Nat}
    (hst : Stored s live ch i buffer offset new w s') (hnd : (ch i ++ new ++ more).Nodup) (hmore : ∀ b ∈ more, 101 ≤ b)
    (p : Nat) : byteAt s'.disk (ch i ++ new ++ more) p =
      if offset.toNat ≤ p ∧ p < offset.toNat + w then buffer.getD (p - offset.toNat) 0
      else byteAt s.disk (ch i ++ new ++ more) p := by
  by_cases hp : p < 512 * (ch i ++ new).length
  · rw [byteAt_append hp, byteAt_append hp, hst.bytes p]
  · have hfits := hst.fits
    rw [if_neg (by omega)]
    unfold byteAt
    rw [List.getElem?_append_right (by omega)]
    cases hb : more[p / 512 - (ch i ++ new).length]? with
    | none => rfl
    | some b =>
      have hmem := List.mem_of_getElem? hb
      have hout : b ∉ ch i ++ new := fun hb' => (List.nodup_append.mp hnd).2.2 b hb' b hmem rfl
      simp only [hst.outside b (hmore b hmem) hout]

/-- **Two writes** one after the other store the bytes of one. -/
theorem Stored.trans {s s₁ s₂ : Tinyfs} {B₁ B₂ : List UInt8} {offset offset₂ : UInt32} {new₁ new₂ : List Nat}
    (h₁ : Stored s live ch i B₁ offset new₁ B₁.length s₁)
    (h₂ : Stored s₁ live (Function.update ch i (ch i ++ new₁)) i B₂ offset₂ new₂ B₂.length s₂) (hi : live i)
    (hoff : offset₂.toNat = offset.toNat + B₁.length) :
    Stored s live ch i (B₁ ++ B₂) offset (new₁ ++ new₂) (B₁ ++ B₂).length s₂ := by
  obtain ⟨fb₁, n₁, hself₁, hn₁⟩ := h₁.self
  obtain ⟨fb₂, n₂, hself₂, hn₂⟩ := h₂.self
  have hinv := h₂.inv
  have hfits := h₂.fits
  have hlen := hinv.length_le hi
  simp only [Function.update_self, Function.update_idem] at hinv hfits hlen
  have hnd := hinv.nodup hi
  have hrange : ∀ b ∈ ch i ++ new₁ ++ new₂, 101 ≤ b := fun b hb =>
    (hinv.range hi (by rwa [Function.update_self])).1
  rw [Function.update_self] at hnd
  simp only [List.length_append] at hfits hlen
  refine ⟨by rwa [← List.append_assoc], fun b hb => ?_, ?_, fun hc => h₂.counted (h₁.counted hc), ⟨fb₂, n₂, ?_, ?_⟩,
    fun j hj => (h₂.other j hj).trans (h₁.other j hj), ?_, ?_, .inl ?_, h₂.reliable, h₂.onDisk, fun l hl hlc => ?_,
    fun p => ?_⟩
  · rcases List.mem_append.mp hb with hb | hb
    · exact h₁.fresh b hb
    · exact (Finset.mem_sdiff.mp (h₁.free ▸ h₂.fresh b hb)).1
  · rw [h₂.free, h₁.free, List.toFinset_append, sdiff_sdiff_left, Finset.sup_eq_union]
  · rw [hself₂, hself₁]
  · rw [hn₂, hself₁, List.length_append]
    simp only
    omega
  · have hreach := h₁.reach
    simp only [List.length_append] at hreach ⊢
    omega
  · simp only [List.length_append]
    omega
  · rw [UInt32.toNat_ofNat', List.length_append]
    omega
  · rw [← List.append_assoc] at hlc
    have hsec := h₂.outside l hl (by rwa [Function.update_self])
    exact hsec.trans (h₁.outside l hl fun hm => hlc (List.mem_append_left _ hm))
  · have hbytes := h₂.bytes p
    rw [Function.update_self] at hbytes
    rw [← List.append_assoc, hbytes,
      h₁.bytes_append hnd (fun b hb => hrange b (List.mem_append_right _ hb)) p, List.length_append]
    -- the second buffer comes after the first
    by_cases h2 : offset₂.toNat ≤ p ∧ p < offset₂.toNat + B₂.length
    · rw [if_pos h2, if_pos (by omega), List.getD_append_right _ _ _ _ (by omega)]
      congr 1
      omega
    · rw [if_neg h2]
      by_cases h1 : offset.toNat ≤ p ∧ p < offset.toNat + B₁.length
      · rw [if_pos h1, if_pos (by omega), List.getD_append _ _ _ _ (by omega)]
      · rw [if_neg h1, if_neg (by omega)]

end Writes

end AmqOs.Vfs
