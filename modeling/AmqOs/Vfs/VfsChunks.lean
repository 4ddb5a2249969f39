import AmqOs.Vfs.TinyfsTables
import AmqOs.Vfs.TinyfsExact
import AmqOs.Vfs.VfsRun

/-!
# Transfers in pieces

Writing a string piece by piece through a descriptor, or reading a length piece by piece, against doing it at once.

- `Appended` says what has been done when all of a string is stored; two such steps make one (`Appended.trans`), and
  the result is determined up to what `SameFile` compares (`Appended.same`).
- `reads_run` gives what successive reads return.
- `chunks_iff` says exactly when pieces make no difference.
-/

set_option autoImplicit false

namespace AmqOs.Vfs

open AmqOs.Lib

/-- Two states that agree on what can be read of entry `i`, its size, the allocation table and the position of
descriptor `j`. -/
structure SameFile (v w : VfsState) (j i : Fin 256) : Prop where
  contents : contents w.fs i = contents v.fs i
  size : (w.fs.data.dirents.get i).size = (v.fs.data.dirents.get i).size
  fat : w.fs.data.fat = v.fs.data.fat
  position : (w.fdTable.get j).position = (v.fdTable.get j).position

/-- Descriptor `fd` is open on the used entry `i` of a well-formed filesystem, at a position inside the file. -/
structure OpenFile (v : VfsState) (fd : Int) (j i : Fin 256) : Prop where
  wellFormed : WellFormed v.fs.data
  reliable : v.fs.disk.Reliable
  used : v.usedFd fd = some j
  opened : OpenOn v j i
  entry : usedEntry v.fs.data i
  inside : (v.fdTable.get j).position ≤ (v.fs.data.dirents.get i).size

/-- One write for each piece leaves what a single write of all of them leaves. -/
def WritesAgree (v : VfsState) (fd : Int) (j i : Fin 256) (pieces : List (List UInt8)) : Prop :=
  ∃ rs v₁ r v₂, runFrom (fun v piece => vfsWrite v fd piece) v pieces = .ok (rs, v₁) ∧
    vfsWrite v fd pieces.flatten = .ok (r, v₂) ∧ SameFile v₁ v₂ j i

/-- The bytes of entry `i` from `p` on, at most `n`, up to the end of the file. -/
def fileRange (s : Tinyfs) (i : Fin 256) (p n : Nat) : List UInt8 :=
  (List.range (min n ((s.data.dirents.get i).size.toNat - p))).map fun q => byteAt s.disk (entryChain s.data i) (p + q)

/-- The results of successive reads make up the range of the file. -/
def ReadsAgree (v : VfsState) (fd : Int) (j i : Fin 256) (sizes : List UInt32) : Prop :=
  ∃ rs v', runFrom (fun v size => vfsRead v fd size) v sizes = .ok (rs, v') ∧
    (rs.map Prod.snd).flatten = fileRange v.fs i (v.fdTable.get j).position.toNat (sizes.map UInt32.toNat).sum

/-- While the position is inside the file, the end of the next read does not wrap. -/
def ReadsFit (fsize : Nat) : Nat → List UInt32 → Prop
  | _, [] => True
  | p, size :: sizes => (p < fsize → p + size.toNat < 2 ^ 32) ∧ ReadsFit fsize (p + size.toNat) sizes

section Writes

variable {v v₁ v₂ : VfsState} {live : Fin 256 → Prop} {ch : Fin 256 → List Nat} {j i : Fin 256}

theorem advance_position (f : FileDescriptor) {k : Nat} (hk : f.position.toNat + k < 2 ^ 31) :
    (f.advance k).position.toNat = f.position.toNat + k := by
  unfold FileDescriptor.advance
  split
  · have hcast := toNat_ofInt k
    simp only [UInt32.toNat_add]
    omega
  · omega

theorem advance_used (f : FileDescriptor) (n : Int) : (f.advance n).used = f.used := by
  unfold FileDescriptor.advance
  split <;> rfl

/-- What has been done when all the bytes of `buffer` are written through descriptor `j`. -/
structure Appended (v : VfsState) (live : Fin 256 → Prop) (ch : Fin 256 → List Nat) (j i : Fin 256)
    (buffer : List UInt8) (new : List Nat) (v' : VfsState) : Prop where
  stored : Stored v.fs live ch i buffer (v.fdTable.get j).position new buffer.length v'.fs
  tables : Lengthened v.fs.data i (v.fdTable.get j).position.toNat buffer.length v'.fs.data
  opened : OpenOn v' j i
  position : (v'.fdTable.get j).position.toNat = (v.fdTable.get j).position.toNat + buffer.length

/-- **A write** with enough room. -/
theorem vfsWrite_appended (h : Inv v.fs.data live ch) (hi : live i) (hr : v.fs.disk.Reliable) (ho : OpenOn v j i)
    (buffer : List UInt8)
    (hreach : (v.fdTable.get j).position.toNat / 512 < (ch i).length + (freeSet v.fs.data.fat).card)
    (hroom : (v.fdTable.get j).position.toNat + buffer.length ≤
      512 * ((ch i).length + (freeSet v.fs.data.fat).card)) :
    ∃ r new v', vfsWrite v j.val buffer = .ok (r, v') ∧ Appended v live ch j i buffer new v' := by
  obtain ⟨hused, node, hnode, hd⟩ := ho
  have hcl := h.length_le hi
  have hfl := @card_freeSet_le v.fs.data.fat
  obtain ⟨new, fs, he, hst, ht⟩ := tinyfsWrite_room h hi hr hd buffer (v.fdTable.get j).position hreach hroom
  have hlen : cInt (UInt32.ofNat buffer.length) = buffer.length := cInt_ofNat (by omega)
  refine ⟨_, new, _, by simp only [vfsWrite, usedFd_of_used hused, hnode, he, ok_bind]; rfl, hst, ht, ⟨?_, ?_⟩, ?_⟩
  · simp only [setFd_get, if_true, advance_used, hused]
  · refine ⟨nodeAfter v.fs i node (v.fdTable.get j).position buffer.length, ?_, ?_⟩
    · simp only [setFd_get, if_true, advance_node]
    · unfold nodeAfter
      split <;> exact hd
  · simp only [setFd_get, if_true, hlen]
    exact advance_position _ (by show (v.fdTable.get j).position.toNat + _ < _; omega)

theorem Appended.trans (h : Inv v.fs.data live ch) (hi : live i) {B₁ B₂ : List UInt8} {new₁ new₂ : List Nat}
    (h₁ : Appended v live ch j i B₁ new₁ v₁)
    (h₂ : Appended v₁ live (Function.update ch i (ch i ++ new₁)) j i B₂ new₂ v₂) (hne : B₂ ≠ []) :
    Appended v live ch j i (B₁ ++ B₂) (new₁ ++ new₂) v₂ := by
  have hpos := List.length_pos_iff.mpr hne
  have hp₁ := h₁.position
  have hp₂ := h₂.position
  have hlt := (v₂.fdTable.get j).position.toNat_lt
  have ht₂ := h₂.tables
  rw [hp₁] at ht₂
  refine ⟨h₁.stored.trans h₂.stored hi hp₁, ?_, h₂.opened, ?_⟩
  · rw [List.length_append]
    exact h₁.tables.trans h hi ht₂ hpos (by omega)
  · rw [List.length_append]
    omega

/-- **The result is determined.** -/
theorem Appended.same (hi : live i) {buffer : List UInt8} {new₁ new₂ : List Nat}
    (h₁ : Appended v live ch j i buffer new₁ v₁) (h₂ : Appended v live ch j i buffer new₂ v₂) : SameFile v₁ v₂ j i := by
  have hdata : v₁.fs.data = v₂.fs.data := h₁.tables.unique h₂.tables
  have hchain : ch i ++ new₁ = ch i ++ new₂ := by
    have hc₁ := h₁.stored.inv.entryChain_eq hi
    have hc₂ := h₂.stored.inv.entryChain_eq hi
    rw [Function.update_self] at hc₁ hc₂
    rw [← hc₁, ← hc₂, hdata]
  refine ⟨contents_of_bytes h₁.stored.inv hi h₁.stored.reliable h₂.stored.inv hi h₂.stored.reliable (by rw [hdata]) ?_
    fun p => ?_, by rw [hdata], by rw [hdata], UInt32.toNat_inj.mp (by rw [h₁.position, h₂.position])⟩
  · rw [Function.update_self, Function.update_self, hchain]
  · rw [Function.update_self, Function.update_self, h₂.stored.bytes p, ← hchain, h₁.stored.bytes p]

theorem flatten_ne_nil {pieces : List (List UInt8)} (hsome : pieces ≠ []) (hne : ∀ piece ∈ pieces, piece ≠ []) :
    pieces.flatten ≠ [] := by
  obtain ⟨p, hp⟩ := List.exists_mem_of_ne_nil _ hsome
  exact fun e => hne p hp (List.flatten_eq_nil_iff.mp e p hp)

/-- **Writing pieces**, at least one. -/
theorem writes_run (h : Inv v.fs.data live ch) (hi : live i) (hr : v.fs.disk.Reliable) (ho : OpenOn v j i)
    {pieces : List (List UInt8)} (hsome : pieces ≠ []) (hne : ∀ piece ∈ pieces, piece ≠ [])
    (hroom : (v.fdTable.get j).position.toNat + pieces.flatten.length ≤
      512 * ((ch i).length + (freeSet v.fs.data.fat).card)) :
    ∃ rs new v', runFrom (fun v piece => vfsWrite v j.val piece) v pieces = .ok (rs, v') ∧
      Appended v live ch j i pieces.flatten new v' := by
  induction pieces generalizing v ch with
  | nil => exact absurd rfl hsome
  | cons piece pieces ih =>
    have hpos := List.length_pos_iff.mpr (hne piece List.mem_cons_self)
    simp only [List.flatten_cons, List.length_append] at hroom
    obtain ⟨r, new, v₁, he, h₁⟩ := vfsWrite_appended h hi hr ho piece (by omega) (by omega)
    by_cases hlast : pieces = []
    · subst hlast
      exact ⟨[r], new, v₁, runFrom_cons he runFrom_nil, by simpa using h₁⟩
    · have hcard := h₁.stored.card hi
      have hp₁ := h₁.position
      obtain ⟨rs, new', v₂, hrun, h₂⟩ := ih h₁.stored.inv h₁.stored.reliable h₁.opened hlast
        (fun p hp => hne p (List.mem_cons_of_mem _ hp))
        (by rw [Function.update_self, List.length_append]; omega)
      have hrest := flatten_ne_nil hlast fun p hp => hne p (List.mem_cons_of_mem _ hp)
      exact ⟨r :: rs, new ++ new', v₂, runFrom_cons he hrun, by simpa using h₁.trans h hi h₂ hrest⟩

/-- A write of nothing in a block that is there. -/
theorem Lengthened.same {d d' : TinyfsData} {p : Nat} (h : Inv d live ch) (hi : live i)
    (hreach : p / 512 < (ch i).length) (hp : p ≤ (d.dirents.get i).size.toNat) (ht : Lengthened d i p 0 d') :
    d' = d := by
  obtain ⟨d₁, last, d₂, hens, hx, rfl⟩ := ht
  have hlen : 0 < (ch i).length := by omega
  obtain ⟨hfb, hchain⟩ := h.fatChain hi (List.length_pos_iff.mp hlen)
  obtain rfl : d = d₁ := by
    rw [ensureFirstBlock, if_neg hfb] at hens
    exact Option.some.inj (Except.ok.inj hens)
  have hfirst : (ch i)[0]? = some (d.dirents.get i).firstBlock.toNat := by
    rw [List.getElem?_eq_getElem hlen, hchain.getElem_zero hlen]
  have hlast : lastBlock p 0 = p / 512 := by
    unfold lastBlock
    omega
  obtain ⟨new, d₃, hg, ⟨last', hx', -, hnew⟩ | ⟨hx', -, -⟩⟩ := extendLoop_spec h hi hfirst (lastBlock p 0)
  · obtain ⟨-, rfl⟩ := Prod.mk.inj (Except.ok.inj (hx'.symm.trans hx))
    rw [hg.same (List.length_eq_zero_iff.mp (by omega))]
    refine modifyDirent_id d (if_neg fun hlt => ?_)
    rw [UInt32.lt_iff_toNat_lt, UInt32.toNat_ofNat'] at hlt
    omega
  · cases hx'.symm.trans hx

/-- A write of nothing with a full disk. -/
theorem tinyfsWrite_full {s : Tinyfs} (h : Inv s.data live ch) (hi : live i) (hr : s.disk.Reliable) {node : Node}
    (hn : node.dirent = some i) (hf : freeSet s.data.fat = ∅) (buffer : List UInt8) {offset : UInt32}
    (hreach : (ch i).length ≤ offset.toNat / 512) :
    ∃ r ≤ 0, tinyfsWrite s node buffer offset = .ok (r, node, s) := by
  have hnil : ∀ new : List Nat, (∀ b ∈ new, b ∈ freeSet s.data.fat) → new = [] := fun new hnew =>
    List.eq_nil_iff_forall_not_mem.mpr fun b hb => by
      have hb' := hnew b hb
      rw [hf] at hb'
      cases hb'
  rcases tinyfsWrite_spec h hi hr hn buffer offset with ⟨-, -, he⟩ | ⟨new, d', hg, -, -, -, he⟩ | ⟨new, w, s', -, hst⟩
  · exact ⟨-1, by decide, he⟩
  · rw [hg.same (hnil new hg.fresh)] at he
    exact ⟨0, le_refl _, he⟩
  · have hlt := hst.reach
    rw [hnil new hst.fresh, List.append_nil] at hlt
    omega

theorem SameFile.refl (v : VfsState) (j i : Fin 256) : SameFile v v j i := ⟨rfl, rfl, rfl, rfl⟩

/-- The empty string at a position whose block is there. -/
theorem emptyWrite_same (h : Inv v.fs.data live ch) (hi : live i) (hr : v.fs.disk.Reliable) (ho : OpenOn v j i)
    (hin : (v.fdTable.get j).position ≤ (v.fs.data.dirents.get i).size)
    (hreach : (v.fdTable.get j).position.toNat / 512 < (ch i).length) :
    ∃ r v', vfsWrite v j.val [] = .ok (r, v') ∧ SameFile v v' j i := by
  have hsize := (h.chains.entry i hi).size
  have hin' := UInt32.le_iff_toNat_le.mp hin
  obtain ⟨r, new, v', he, happ⟩ := vfsWrite_appended h hi hr ho [] (by omega)
    (by rw [List.length_nil]; omega)
  have hdata := happ.tables.same h hi hreach hin'
  have hchain : ch i ++ new = ch i := by
    have hc := happ.stored.inv.entryChain_eq hi
    rwa [Function.update_self, hdata, h.entryChain_eq hi, eq_comm] at hc
  refine ⟨r, v', he, ?_, by rw [hdata], by rw [hdata], UInt32.toNat_inj.mp happ.position⟩
  refine contents_of_bytes h hi hr happ.stored.inv hi happ.stored.reliable (by rw [hdata]) ?_ fun p => ?_
  · rw [Function.update_self, hchain]
  · rw [Function.update_self, happ.stored.bytes p, hchain]
    simp only [List.length_nil]
    rw [if_neg (by omega)]

/-- The empty string when nothing can be taken. -/
theorem emptyWrite_full (h : Inv v.fs.data live ch) (hi : live i) (hr : v.fs.disk.Reliable) (ho : OpenOn v j i)
    (hf : freeSet v.fs.data.fat = ∅) (hreach : (ch i).length ≤ (v.fdTable.get j).position.toNat / 512) :
    ∃ r, vfsWrite v j.val [] = .ok (r, v) := by
  obtain ⟨hused, node, hnode, hd⟩ := ho
  obtain ⟨r, hr, he⟩ := tinyfsWrite_full h hi hr hd hf [] hreach
  have hsame : v.setFd j ({ v.fdTable.get j with node := some node }.advance r) = v := by
    rw [FileDescriptor.advance, if_neg (by omega), ← hnode]
    exact setFd_self v j
  refine ⟨r, ?_⟩
  simp only [vfsWrite, usedFd_of_used hused, hnode, he, ok_bind]
  exact congrArg (fun v => Except.ok (r, v)) hsame

/-- The empty string otherwise: the write takes a block. -/
theorem emptyWrite_takes (h : Inv v.fs.data live ch) (hi : live i) (hr : v.fs.disk.Reliable) (ho : OpenOn v j i)
    (hin : (v.fdTable.get j).position ≤ (v.fs.data.dirents.get i).size)
    (hreach : (ch i).length ≤ (v.fdTable.get j).position.toNat / 512) (hf : freeSet v.fs.data.fat ≠ ∅) {r : Int}
    {v' : VfsState} (he : vfsWrite v j.val [] = .ok (r, v')) : v'.fs.data.fat ≠ v.fs.data.fat := by
  have hsize := (h.chains.entry i hi).size
  have hin' := UInt32.le_iff_toNat_le.mp hin
  have hpos := Finset.card_pos.mpr (Finset.nonempty_iff_ne_empty.mpr hf)
  obtain ⟨r', new, v'', he', happ⟩ := vfsWrite_appended h hi hr ho [] (by omega) (by rw [List.length_nil]; omega)
  obtain ⟨-, rfl⟩ := Prod.mk.inj (Except.ok.inj (he'.symm.trans he))
  have hlt := happ.stored.reach
  rw [List.length_append] at hlt
  obtain ⟨b, hb⟩ := List.exists_mem_of_length_pos (show 0 < new.length by omega)
  intro hsame
  have hfree := happ.stored.free
  rw [hsame] at hfree
  have hmem := happ.stored.fresh b hb
  rw [hfree, Finset.mem_sdiff, List.mem_toFinset] at hmem
  exact hmem.2 hb

/-- **Pieces of a string**: a single write of the empty string can take a block, and no write takes none. -/
theorem writesAgree_iff {fd : Int} (hv : OpenFile v fd j i) {pieces : List (List UInt8)}
    (hne : ∀ piece ∈ pieces, piece ≠ [])
    (hroom : (v.fdTable.get j).position.toNat + pieces.flatten.length ≤
      512 * ((entryChain v.fs.data i).length + (freeSet v.fs.data.fat).card)) :
    WritesAgree v fd j i pieces ↔ pieces ≠ [] ∨
      (v.fdTable.get j).position.toNat / 512 < (entryChain v.fs.data i).length ∨ freeSet v.fs.data.fat = ∅ := by
  obtain ⟨ch, h⟩ := hv.wellFormed
  have hi := hv.entry
  have hsize := (h.chains.entry i hi).size
  have hin := UInt32.le_iff_toNat_le.mp hv.inside
  obtain rfl := usedFd_eq hv.used
  rw [h.entryChain_eq hi] at hroom ⊢
  by_cases hsome : pieces = []
  · subst hsome
    simp only [ne_eq, not_true_eq_false, false_or]
    by_cases hreach : (v.fdTable.get j).position.toNat / 512 < (ch i).length
    · obtain ⟨r, v', he, hsame⟩ := emptyWrite_same h hi hv.reliable hv.opened hv.inside hreach
      exact iff_of_true ⟨[], v, r, v', rfl, he, hsame⟩ (.inl hreach)
    · by_cases hf : freeSet v.fs.data.fat = ∅
      · obtain ⟨r, he⟩ := emptyWrite_full h hi hv.reliable hv.opened hf (Nat.le_of_not_lt hreach)
        exact iff_of_true ⟨[], v, r, v, rfl, he, .refl v j i⟩ (.inr hf)
      · refine iff_of_false ?_ (by simp [hreach, hf])
        rintro ⟨rs, v₁, r, v₂, hrun, he, hsame⟩
        obtain ⟨-, rfl⟩ := Prod.mk.inj (Except.ok.inj hrun)
        exact emptyWrite_takes h hi hv.reliable hv.opened hv.inside (Nat.le_of_not_lt hreach) hf he hsame.fat
  · refine iff_of_true ?_ (.inl hsome)
    obtain ⟨rs, new, v₁, hrun, h₁⟩ := writes_run h hi hv.reliable hv.opened hsome hne hroom
    have hpos := List.length_pos_iff.mpr (flatten_ne_nil hsome hne)
    obtain ⟨r, new', v₂, he, h₂⟩ := vfsWrite_appended h hi hv.reliable hv.opened pieces.flatten (by omega) hroom
    exact ⟨rs, v₁, r, v₂, hrun, he, h₁.same hi h₂⟩

end Writes

section Reads

variable {v : VfsState} {live : Fin 256 → Prop} {ch : Fin 256 → List Nat} {j i : Fin 256}

/-- What a read at `pos` returns for a file of `fsize` bytes in `blocks` blocks. -/
def readLength (fsize : UInt32) (blocks : Nat) (pos size : UInt32) : Nat :=
  if pos < fsize then readCount fsize size pos blocks else 0

/-- What successive reads from `pos` on return together. -/
def readTotal (fsize : UInt32) (blocks : Nat) : UInt32 → List UInt32 → Nat
  | _, [] => 0
  | pos, size :: sizes =>
    readLength fsize blocks pos size +
      readTotal fsize blocks (pos + UInt32.ofNat (readLength fsize blocks pos size)) sizes

theorem readLength_le {fsize pos size : UInt32} {blocks : Nat} (hf : fsize.toNat ≤ 512 * blocks) :
    pos.toNat + readLength fsize blocks pos size ≤ max pos.toNat (512 * blocks) := by
  unfold readLength
  split
  · rename_i hlt
    have hlt' := UInt32.lt_iff_toNat_lt.mp hlt
    unfold readCount
    omega
  · omega

/-- **One read.** -/
theorem vfsRead_ok (h : Inv v.fs.data live ch) (hi : live i) (hr : v.fs.disk.Reliable) (ho : OpenOn v j i)
    (size : UInt32) :
    let k := readLength (v.fs.data.dirents.get i).size (ch i).length (v.fdTable.get j).position size
    vfsRead v j.val size = .ok (((k : Int), (List.range k).map fun q =>
      byteAt v.fs.disk (ch i) ((v.fdTable.get j).position.toNat + q)), v.setFd j ((v.fdTable.get j).advance k)) := by
  intro k
  obtain ⟨hused, node, hnode, hd⟩ := ho
  have hsize := (h.chains.entry i hi).size
  have hlen := h.length_le hi
  -- the answer of the filesystem
  have hread : tinyfsRead v.fs node size (v.fdTable.get j).position = .ok (((k : Int), (List.range k).map fun q =>
      byteAt v.fs.disk (ch i) ((v.fdTable.get j).position.toNat + q)), v.fs) := by
    by_cases hoff : (v.fdTable.get j).position < (v.fs.data.dirents.get i).size
    · have hk : k = readCount (v.fs.data.dirents.get i).size size (v.fdTable.get j).position (ch i).length :=
        if_pos hoff
      have hle : k ≤ 512 * (ch i).length := by
        rw [hk, readCount]
        omega
      rw [tinyfsRead_spec h hi hr hd size _ hoff, ← hk, cInt_ofNat (by omega)]
    · have hk : k = 0 := if_neg hoff
      rw [hk]
      refine tinyfsRead_past hd size ?_
      rw [UInt32.lt_iff_toNat_lt] at hoff
      rw [UInt32.le_iff_toNat_le]
      omega
  simp only [vfsRead, usedFd_of_used hused, hnode, hread, ok_bind]

/-- After a read the descriptor is open on the same file, further on. -/
theorem vfsRead_eq (h : Inv v.fs.data live ch) (hi : live i) (hr : v.fs.disk.Reliable) (ho : OpenOn v j i)
    (size : UInt32) :
    let k := readLength (v.fs.data.dirents.get i).size (ch i).length (v.fdTable.get j).position size
    ∃ v', vfsRead v j.val size = .ok (((k : Int), (List.range k).map fun q =>
        byteAt v.fs.disk (ch i) ((v.fdTable.get j).position.toNat + q)), v') ∧
      v'.fs = v.fs ∧ OpenOn v' j i ∧ (v'.fdTable.get j).position = (v.fdTable.get j).position + UInt32.ofNat k := by
  intro k
  obtain ⟨hused, node, hnode, hd⟩ := ho
  have hpos : ((v.fdTable.get j).advance k).position = (v.fdTable.get j).position + UInt32.ofNat k := by
    unfold FileDescriptor.advance
    split
    · have hcast : UInt32.ofInt k = UInt32.ofNat k := UInt32.toNat_inj.mp (by
        have hval := toNat_ofInt k
        rw [UInt32.toNat_ofNat']
        omega)
      rw [← hcast]
    · rw [show k = 0 by omega]
      exact (UInt32.add_zero _).symm
  refine ⟨v.setFd j ((v.fdTable.get j).advance k), vfsRead_ok h hi hr ⟨hused, node, hnode, hd⟩ size, rfl,
    ⟨?_, node, ?_, hd⟩, ?_⟩
  · rw [setFd_get, if_pos rfl, advance_used, hused]
  · rw [setFd_get, if_pos rfl, advance_node, hnode]
  · rw [setFd_get, if_pos rfl, hpos]

/-- **Successive reads** return the bytes from the position on. -/
theorem reads_run (h : Inv v.fs.data live ch) (hi : live i) (hr : v.fs.disk.Reliable) (ho : OpenOn v j i)
    (sizes : List UInt32) : ∃ rs v', runFrom (fun v size => vfsRead v j.val size) v sizes = .ok (rs, v') ∧
      (rs.map Prod.snd).flatten =
        (List.range (readTotal (v.fs.data.dirents.get i).size (ch i).length (v.fdTable.get j).position sizes)).map
          fun q => byteAt v.fs.disk (ch i) ((v.fdTable.get j).position.toNat + q) := by
  induction sizes generalizing v with
  | nil => exact ⟨[], v, rfl, rfl⟩
  | cons size sizes ih =>
    obtain ⟨v₁, he, hfs, ho₁, hpos⟩ := vfsRead_eq h hi hr ho size
    have hmore := @readLength_le _ (v.fdTable.get j).position size _ (h.chains.entry i hi).size
    have hlen := h.length_le hi
    have hlt := (v.fdTable.get j).position.toNat_lt
    simp only [readTotal]
    generalize readLength (v.fs.data.dirents.get i).size (ch i).length (v.fdTable.get j).position size = k
      at he hpos hmore ⊢
    obtain ⟨rs, v₂, hrun, hbytes⟩ := ih (v := v₁) (by rw [hfs]; exact h) (by rw [hfs]; exact hr) ho₁
    refine ⟨_, v₂, runFrom_cons he hrun, ?_⟩
    rw [hfs, hpos] at hbytes
    rw [List.map_cons, List.flatten_cons, hbytes, List.range_add, List.map_append, List.map_map]
    refine congrArg _ (List.map_congr_left fun q _ => ?_)
    have hsum : ((v.fdTable.get j).position + UInt32.ofNat k).toNat = (v.fdTable.get j).position.toNat + k := by
      rw [UInt32.toNat_add, UInt32.toNat_ofNat']
      omega
    rw [hsum, Nat.add_assoc]
    rfl

theorem readsFit_past {fsize p : Nat} (hp : fsize ≤ p) (sizes : List UInt32) : ReadsFit fsize p sizes := by
  induction sizes generalizing p with
  | nil => trivial
  | cons size sizes ih => exact ⟨fun hlt => absurd hlt (by omega), ih (by omega)⟩

theorem readTotal_past {fsize pos : UInt32} {blocks : Nat} (hp : fsize ≤ pos) (sizes : List UInt32) :
    readTotal fsize blocks pos sizes = 0 := by
  have hnot : ¬ pos < fsize := by
    rw [UInt32.lt_iff_toNat_lt]
    have := UInt32.le_iff_toNat_le.mp hp
    omega
  induction sizes with
  | nil => rfl
  | cons size sizes ih =>
    rw [readTotal, readLength, if_neg hnot, Nat.zero_add]
    exact (congrArg (fun p => readTotal fsize blocks p sizes) (UInt32.add_zero pos)).trans ih

/-- Successive reads end with the file, unless one of them wraps and the last block goes on. -/
theorem readTotal_eq_iff {fsize pos : UInt32} {blocks : Nat} (hf : fsize.toNat ≤ 512 * blocks) (hb : blocks ≤ 923)
    (hp : pos ≤ fsize) (sizes : List UInt32) :
    readTotal fsize blocks pos sizes = min (sizes.map UInt32.toNat).sum (fsize.toNat - pos.toNat) ↔
      ReadsFit fsize.toNat pos.toNat sizes ∨ fsize.toNat = 512 * blocks := by
  induction sizes generalizing pos with
  | nil => simp [readTotal, ReadsFit]
  | cons size sizes ih =>
    have hp' := UInt32.le_iff_toNat_le.mp hp
    rw [readTotal, ReadsFit, List.map_cons, List.sum_cons]
    by_cases hlt : pos < fsize
    · have hlt' := UInt32.lt_iff_toNat_lt.mp hlt
      have hone := @readCount_eq_iff fsize size pos blocks hlt hf hb
      have hge := le_readCount size hp hf
      rw [readLength, if_pos hlt]
      generalize readCount fsize size pos blocks = k at hone hge
      by_cases hexact : k = min size.toNat (fsize.toNat - pos.toNat)
      · have hsum : (pos + UInt32.ofNat k).toNat = pos.toNat + k := by
          rw [UInt32.toNat_add, UInt32.toNat_ofNat']
          omega
        have hrest := @ih (pos + UInt32.ofNat k) (by rw [UInt32.le_iff_toNat_le, hsum]; omega)
        rw [hsum] at hrest
        have hwrap := hone.mp hexact
        by_cases hall : size.toNat ≤ fsize.toNat - pos.toNat
        · -- the read is not cut
          obtain rfl : k = size.toNat := by omega
          generalize readTotal fsize blocks (pos + UInt32.ofNat size.toNat) sizes = t at hrest
          generalize (sizes.map UInt32.toNat).sum = n at hrest
          constructor
          · intro ht
            rcases hrest.mp (by omega) with hfit | hfull
            · exact .inl ⟨fun _ => by omega, hfit⟩
            · exact .inr hfull
          · intro hcond
            have ht := hrest.mpr (hcond.imp_left And.right)
            omega
        · -- the read ends with the file
          have hpast := @readTotal_past fsize (pos + UInt32.ofNat k) blocks
            (by rw [UInt32.le_iff_toNat_le, hsum]; omega) sizes
          rw [hpast]
          have hpast' := @readsFit_past fsize.toNat (pos.toNat + size.toNat) (by omega) sizes
          refine iff_of_true (by omega) ?_
          rcases hwrap with hfit | hfull
          · exact .inl ⟨fun _ => hfit, hpast'⟩
          · exact .inr hfull
      · have hwrap := mt hone.mpr hexact
        refine iff_of_false (by omega) ?_
        rintro (⟨hfit, -⟩ | hfull)
        · exact hwrap (.inl (hfit hlt'))
        · exact hwrap (.inr hfull)
    · have hnot := mt UInt32.lt_iff_toNat_lt.mpr hlt
      rw [readLength, if_neg hlt, Nat.zero_add, show pos + UInt32.ofNat 0 = pos from UInt32.add_zero pos,
        readTotal_past (by rw [UInt32.le_iff_toNat_le]; omega)]
      exact iff_of_true (by omega) (.inl ⟨fun h => absurd h hnot, readsFit_past (by omega) sizes⟩)

/-- **Pieces of a length**: the results make up the range of the file, unless the end of a read wraps. -/
theorem readsAgree_iff {fd : Int} (hv : OpenFile v fd j i) (sizes : List UInt32) :
    ReadsAgree v fd j i sizes ↔
      ReadsFit (v.fs.data.dirents.get i).size.toNat (v.fdTable.get j).position.toNat sizes ∨
        (v.fs.data.dirents.get i).size.toNat = 512 * (entryChain v.fs.data i).length := by
  obtain ⟨ch, h⟩ := hv.wellFormed
  have hi := hv.entry
  obtain rfl := usedFd_eq hv.used
  obtain ⟨rs, v', hrun, hbytes⟩ := reads_run h hi hv.reliable hv.opened sizes
  have hchain := h.entryChain_eq hi
  rw [hchain, ← readTotal_eq_iff (h.chains.entry i hi).size (h.length_le hi) hv.inside]
  constructor
  · rintro ⟨rs', v'', hrun', hrange⟩
    obtain ⟨rfl, -⟩ := Prod.mk.inj (Except.ok.inj (hrun.symm.trans hrun'))
    have hlen := congrArg List.length (hbytes.symm.trans hrange)
    simpa only [fileRange, List.length_map, List.length_range] using hlen
  · intro htotal
    refine ⟨rs, v', hrun, ?_⟩
    rw [hbytes, htotal, fileRange, hchain]

end Reads

/-- **Pieces make no difference** for an open file: a string that is written in pieces and fits the free blocks leaves
the same as in one write if and only if there is a piece, or the block of the position is there, or no block is free;
a length that is read in pieces gives the range of the file if and only if no read from inside the file has an end
beyond 2^32, or the file fills its last block. -/
theorem chunks_iff {v : VfsState} {fd : Int} {j i : Fin 256} (hv : OpenFile v fd j i) :
    (∀ pieces : List (List UInt8), (∀ piece ∈ pieces, piece ≠ []) →
      (v.fdTable.get j).position.toNat + pieces.flatten.length ≤
        512 * ((entryChain v.fs.data i).length + (freeSet v.fs.data.fat).card) →
      (WritesAgree v fd j i pieces ↔ pieces ≠ [] ∨
        (v.fdTable.get j).position.toNat / 512 < (entryChain v.fs.data i).length ∨ freeSet v.fs.data.fat = ∅)) ∧
    ∀ sizes : List UInt32, (∀ size ∈ sizes, 0 < size) →
      (ReadsAgree v fd j i sizes ↔
        ReadsFit (v.fs.data.dirents.get i).size.toNat (v.fdTable.get j).position.toNat sizes ∨
          (v.fs.data.dirents.get i).size.toNat = 512 * (entryChain v.fs.data i).length) :=
  ⟨fun _ hne hroom => writesAgree_iff hv hne hroom, fun sizes _ => readsAgree_iff hv sizes⟩

theorem openedAt_openFile {fs : Tinyfs} {i : Fin 256} {position : UInt32} (hs : WellFormed fs.data)
    (hr : fs.disk.Reliable) (hu : usedEntry fs.data i) (hp : position ≤ (fs.data.dirents.get i).size) :
    OpenFile (openedAt fs (nodeOf fs.data i) position) 3 3 i := by
  have hget := openedAt_get fs (nodeOf fs.data i) position
  exact ⟨hs, hr, openedAt_usedFd _ _ _, ⟨by rw [hget], _, by rw [hget], rfl⟩, hu, by rw [hget]; exact hp⟩

theorem oneFile_opened : OpenFile (openedAt oneFile (nodeOf oneFile.data 1) 0) 3 3 1 :=
  openedAt_openFile oneFile_wellFormed blankDisk_reliable oneFile_used (UInt32.le_iff_toNat_le.mpr (Nat.zero_le _))

theorem shortFile_size : (shortFile.data.dirents.get 1).size = 2 := by
  rw [shortFile_get]
  rfl

theorem shortFile_opened : OpenFile (openedAt shortFile (nodeOf shortFile.data 1) 1) 3 3 1 :=
  openedAt_openFile shortFile_wellFormed blankDisk_reliable shortFile_used (by rw [shortFile_size]; decide)

theorem shortFile_chain : entryChain shortFile.data 1 = [101] :=
  shortFile_inv.entryChain_eq (i := 1) trivial

/-- No write leaves the file without blocks, one write of nothing gives it one; and a read of `2^32 - 1` bytes from
position 1 of the file of two bytes gives more than its last byte. -/
theorem chunks_differ :
    (OpenFile (openedAt oneFile (nodeOf oneFile.data 1) 0) 3 3 1 ∧
      ¬ WritesAgree (openedAt oneFile (nodeOf oneFile.data 1) 0) 3 3 1 []) ∧
    OpenFile (openedAt shortFile (nodeOf shortFile.data 1) 1) 3 3 1 ∧
      ¬ ReadsAgree (openedAt shortFile (nodeOf shortFile.data 1) 1) 3 3 1 [0xFFFFFFFF] := by
  refine ⟨⟨oneFile_opened, ?_⟩, shortFile_opened, ?_⟩
  · have hpos : ((openedAt oneFile (nodeOf oneFile.data 1) 0).fdTable.get 3).position = 0 := by rw [openedAt_get]
    rw [writesAgree_iff oneFile_opened (by simp) (by rw [hpos]; exact Nat.zero_le _), openedAt_fs,
      (oneFile_inv fun _ => True).entryChain_eq (i := 1) trivial]
    have hfree : freeSet oneFile.data.fat ≠ ∅ := freeSet_fresh_ne
    simpa using hfree
  · have hpos : ((openedAt shortFile (nodeOf shortFile.data 1) 1).fdTable.get 3).position = 1 := by rw [openedAt_get]
    rw [readsAgree_iff shortFile_opened, hpos, openedAt_fs, shortFile_size, shortFile_chain]
    rintro (⟨hfit, -⟩ | hfull)
    · exact absurd (hfit (by decide)) (by decide)
    · exact absurd hfull (by decide)

theorem chunks_iff_files :
    WritesAgree (openedAt oneFile (nodeOf oneFile.data 1) 0) 3 3 1 [[1], [2, 3]] ∧
      ReadsAgree (openedAt shortFile (nodeOf shortFile.data 1) 1) 3 3 1 [1, 1] := by
  have hpos : ((openedAt oneFile (nodeOf oneFile.data 1) 0).fdTable.get 3).position = 0 := by rw [openedAt_get]
  have hpos' : ((openedAt shortFile (nodeOf shortFile.data 1) 1).fdTable.get 3).position = 1 := by rw [openedAt_get]
  have hfree : freeSet oneFile.data.fat = Finset.Ico 101 1024 := freeSet_fresh
  refine ⟨((chunks_iff oneFile_opened).1 [[1], [2, 3]] (by simp) ?_).mpr (.inl (by simp)),
    ((chunks_iff shortFile_opened).2 [1, 1] (by simp)).mpr (.inl ?_)⟩
  · rw [hpos, openedAt_fs, hfree, (oneFile_inv fun _ => True).entryChain_eq (i := 1) trivial, Nat.card_Ico]
    show 3 ≤ 512 * 923
    omega
  · rw [hpos', openedAt_fs, shortFile_size]
    exact ⟨fun _ => by decide, fun h => absurd h (by decide), trivial⟩

end AmqOs.Vfs
