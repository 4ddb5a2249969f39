import AmqOs.Vfs.TinyfsFrame
import AmqOs.Vfs.VfsBounds
import AmqOs.Vfs.VfsOverwrite

/-!
# Files that a call leaves alone

`Kept s s' j` says that entry `j`, its blocks and their sectors are as before. On any disk, also one whose transfers fail, the
calls keep every file of a well-formed filesystem that they are not about: an unlink the files it does not remove
(`vfsUnlink_kept`), a create all files (`vfsCreate_kept`), a write all but the one it writes (`vfsWrite_kept`).
-/

set_option autoImplicit false

namespace AmqOs.Vfs

open AmqOs.Lib

/-- The entry, its chain of blocks and their sectors are as before. -/
structure Kept (s s' : Tinyfs) (j : Fin 256) : Prop where
  entry : s'.data.dirents.get j = s.data.dirents.get j
  chain : entryChain s'.data j = entryChain s.data j
  sectors : ∀ b ∈ entryChain s.data j, s'.disk.sectors b = s.disk.sectors b

/-- The sectors of the data area outside of `c` are as before. -/
structure Spared (c : List Nat) (disk disk' : Disk) : Prop where
  sectors : ∀ l, 101 ≤ l → l ∉ c → disk'.sectors l = disk.sectors l
  reliable : disk.Reliable → disk'.Reliable

section Sectors

variable {c : List Nat} {disk disk₁ disk₂ : Disk} {lba : UInt32}

theorem Spared.refl (c : List Nat) (disk : Disk) : Spared c disk disk := ⟨fun _ _ _ => rfl, id⟩

theorem Spared.trans (h₁ : Spared c disk disk₁) (h₂ : Spared c disk₁ disk₂) : Spared c disk disk₂ :=
  ⟨fun l hl hc => (h₂.sectors l hl hc).trans (h₁.sectors l hl hc), fun hr => h₂.reliable (h₁.reliable hr)⟩

theorem ataReadSectors_spared (c : List Nat) (disk : Disk) (lba : UInt32) : Spared c disk (ataReadSectors disk lba).2 := by
  unfold ataReadSectors
  split <;> exact ⟨fun _ _ _ => rfl, fun hr n => hr (n + 1)⟩

theorem ataWriteSectors_spared (disk : Disk) (h : lbaOf lba < 101 ∨ lbaOf lba ∈ c) (buffer : Sector) :
    Spared c disk (ataWriteSectors disk lba buffer).2 := by
  have hput : Spared c disk (disk.next.put (lbaOf lba) buffer) := by
    refine ⟨fun l hl hc => Disk.put_sectors_of_ne _ _ ?_, fun hr n => hr (n + 1)⟩
    rintro rfl
    exact h.elim (fun h => absurd hl (by omega)) hc
  unfold ataWriteSectors
  split
  · exact hput
  · exact ⟨fun _ _ _ => rfl, fun hr n => hr (n + 1)⟩
  · exact hput

theorem writeSectors_spared (c : List Nat) {n : Nat} {lba : Nat → UInt32} (h : ∀ i < n, lbaOf (lba i) < 101)
    (buffer : Nat → Sector) (disk : Disk) : Spared c disk (writeSectors lba buffer n disk).2 := by
  unfold writeSectors
  refine forUpTo_inv (fun _ (s : Int × Disk) => Spared c disk s.2) (.refl c disk) fun k s hk hs => ?_
  by_cases h0 : s.1 ≠ 0
  · simpa only [if_pos h0] using hs
  · simp only [if_neg h0]
    split <;> exact hs.trans (ataWriteSectors_spared s.2 (.inl (h k hk)) (buffer k))

end Sectors

/-! ## The metadata -/

section Metadata

variable {d : TinyfsData}

theorem writeFat_spared (c : List Nat) (hp : Placed d.sb) (disk : Disk) : Spared c disk (writeFat d disk).2 :=
  writeSectors_spared c (fun i hi => by rw [lbaOf_add (s := 1) (by rw [hp.fatStart]; rfl) (by omega)]; omega) _ disk

theorem writeDirectory_spared (c : List Nat) (hp : Placed d.sb) (disk : Disk) :
    Spared c disk (writeDirectory d disk).2 :=
  writeSectors_spared c (fun i hi => by rw [lbaOf_add (s := 11) (by rw [hp.dirStart]; rfl) (by omega)]; omega) _ disk

theorem writeSuperblock_spared (c : List Nat) (d : TinyfsData) (disk : Disk) :
    Spared c disk (writeSuperblock d disk).2 := writeSectors_spared c (fun _ _ => by decide) _ disk

/-- The end of `tinyfs_write`. -/
theorem flush_write_spared (c : List Nat) (hp : Placed d.sb) (disk : Disk) :
    Spared c disk (writeSuperblock d (writeFat d (writeDirectory d disk).2).2).2 :=
  ((writeDirectory_spared c hp disk).trans (writeFat_spared c hp (writeDirectory d disk).2)).trans
    (writeSuperblock_spared c d (writeFat d (writeDirectory d disk).2).2)

/-- The end of `tinyfs_unlink`. -/
theorem flush_unlink_spared (c : List Nat) (hp : Placed d.sb) (disk : Disk) :
    Spared c disk (writeSuperblock d (writeDirectory d (writeFat d disk).2).2).2 :=
  ((writeFat_spared c hp disk).trans (writeDirectory_spared c hp (writeFat d disk).2)).trans
    (writeSuperblock_spared c d (writeDirectory d (writeFat d disk).2).2)

end Metadata

/-! ## The writing loop -/

section Write

variable {d : TinyfsData} {live : Fin 256 → Prop} {ch : Fin 256 → List Nat} {i : Fin 256}

theorem writeRound_spared {c : List Nat} {cur : UInt32} (h : lbaOf cur ∈ c) (buffer : List UInt8) (size bo w : Nat)
    (disk : Disk) (bb : Mem) : Spared c disk (writeRound buffer size bo w disk cur bb).2.2 := by
  refine Spared.trans ?_ (ataWriteSectors_spared _ (.inr h) _)
  split
  · have hr := ataReadSectors_spared c disk cur
    split <;> (rename_i he; rw [he] at hr; exact hr)
  · exact .refl c disk

/-- **The writing loop**, on any disk: it lengthens the chain, and writes in its blocks only. -/
theorem writeLoop_kept (buffer : List UInt8) (size off fuel : Nat) (hi : live i) (disk : Disk) {cur : UInt32}
    {j bo w : Nat} (bb : Mem) (h : Inv d live ch) (hcur : (ch i)[j]? = some cur.toNat) (hbo : bo < 512)
    (hoff : w < size → off + w = 512 * j + bo) (hfit : off + w ≤ 512 * (ch i).length) :
    ∃ o new d' disk', writeLoop buffer size fuel d disk cur bo w bb = .ok (o, d', disk') ∧ Grown d live ch i new d' ∧
      Spared (ch i ++ new) disk disk' ∧ ∀ w', o = some w' → off + w' ≤ 512 * (ch i ++ new).length := by
  have hstop : ∀ {d : TinyfsData} {ch : Fin 256 → List Nat} {w : Nat} (disk : Disk), Inv d live ch →
      off + w ≤ 512 * (ch i).length → ∃ o new d' disk',
        (Except.ok (some w, d, disk) : Except Fault _) = .ok (o, d', disk') ∧ Grown d live ch i new d' ∧
        Spared (ch i ++ new) disk disk' ∧ ∀ w', o = some w' → off + w' ≤ 512 * (ch i ++ new).length := by
    intro d ch w disk h hfit
    refine ⟨_, [], d, disk, rfl, .refl h i, .refl _ disk, fun w' hw' => ?_⟩
    obtain rfl := Option.some.inj hw'
    rwa [List.append_nil]
  induction fuel generalizing d ch disk cur j bo w bb with
  | zero => exact hstop disk h hfit
  | succ fuel ih =>
    by_cases hw : w < size
    · have hmem : cur.toNat ∈ ch i := List.mem_of_getElem? hcur
      have hlba : lbaOf cur = cur.toNat := lbaOf_of_lt (h.range hi hmem).2
      have hjlen := (List.getElem?_eq_some_iff.mp hcur).1
      have hoff' := hoff hw
      have hround : ∀ new, Spared (ch i ++ new) disk (writeRound buffer size bo w disk cur bb).2.2 := fun new =>
        writeRound_spared (by rw [hlba]; exact List.mem_append_left _ hmem) buffer size bo w disk bb
      rw [writeLoop_succ d buffer fuel disk cur bb hw]
      generalize writeRound buffer size bo w disk cur bb = round at hround ⊢
      simp only
      by_cases herr : round.2.1 ≠ 0
      · rw [if_pos herr]
        exact ⟨none, [], d, _, rfl, .refl h i, hround [], fun _ he => by cases he⟩
      rw [if_neg herr]
      by_cases hmore : w + min (512 - bo) (size - w) < size
      · rw [if_pos hmore]
        rcases nextBlock_spec h hi hcur with ⟨nxt, hn, hnxt⟩ | ⟨hlast, b, d₁, hn, hg⟩ | ⟨hlast, -, hn⟩
        · have hnlen := (List.getElem?_eq_some_iff.mp hnxt).1
          obtain ⟨o, new, d', disk', h1, h2, h3, h4⟩ := ih round.2.2 (w := w + min (512 - bo) (size - w)) round.1 h hnxt
            (show 0 < 512 by omega) (fun _ => by omega) (by omega)
          exact ⟨o, new, d', disk', by rw [hn]; exact h1, h2, (hround new).trans h3, h4⟩
        · have hcur₁ : (Function.update ch i (ch i ++ [b.toNat]) i)[j + 1]? = some b.toNat := by
            rw [Function.update_self, hlast]
            simp
          obtain ⟨o, new, d', disk', h1, h2, h3, h4⟩ := ih round.2.2 (w := w + min (512 - bo) (size - w)) round.1 hg.inv hcur₁
            (show 0 < 512 by omega) (fun _ => by omega)
            (by simp only [Function.update_self, List.length_append, List.length_singleton]; omega)
          simp only [Function.update_self, List.append_assoc] at h3 h4
          exact ⟨o, [b.toNat] ++ new, d', disk', by rw [hn]; exact h1, hg.trans h2, (hround _).trans h3, h4⟩
        · refine ⟨some (w + min (512 - bo) (size - w)), [], d, round.2.2, by rw [hn]; rfl, .refl h i, hround [],
            fun w' hw' => ?_⟩
          obtain rfl := Option.some.inj hw'
          rw [List.append_nil]
          omega
      · rw [if_neg hmore]
        obtain ⟨o, new, d', disk', h1, h2, h3, h4⟩ := ih round.2.2 (w := w + min (512 - bo) (size - w)) round.1 h hcur
          (show 0 < 512 by omega) (fun hlt => absurd hlt hmore) (by omega)
        exact ⟨o, new, d', disk', h1, h2, (hround new).trans h3, h4⟩
    · rw [writeLoop, if_neg hw]
      exact hstop disk h hfit

end Write

/-! ## The calls of TinyFS -/

section Calls

variable {s s' : Tinyfs} {live live' : Fin 256 → Prop} {ch ch' : Fin 256 → List Nat} {i j : Fin 256}

theorem Kept.refl (s : Tinyfs) (j : Fin 256) : Kept s s j := ⟨rfl, rfl, fun _ _ => rfl⟩

theorem Kept.trans {s₁ s₂ : Tinyfs} (h₁ : Kept s s₁ j) (h₂ : Kept s₁ s₂ j) : Kept s s₂ j :=
  ⟨h₂.entry.trans h₁.entry, h₂.chain.trans h₁.chain,
    fun b hb => (h₂.sectors b (h₁.chain ▸ hb)).trans (h₁.sectors b hb)⟩

theorem Kept.used (h : Kept s s' j) : usedEntry s'.data j ↔ usedEntry s.data j := by rw [usedEntry, h.entry, usedEntry]

/-- A file that is kept has the same contents. -/
theorem Kept.contents (h : Kept s s' j) (hs : WellFormed s.data) (hs' : WellFormed s'.data) (hr : s.disk.Reliable)
    (hr' : s'.disk.Reliable) (hj : usedEntry s.data j) : Vfs.contents s' j = Vfs.contents s j := by
  obtain ⟨ch, hinv⟩ := hs
  obtain ⟨ch', hinv'⟩ := hs'
  have hj' := h.used.mpr hj
  have hchain := h.chain
  have hsec := h.sectors
  rw [hinv.entryChain_eq hj] at hchain hsec
  rw [hinv'.entryChain_eq hj'] at hchain
  exact contents_congr hinv hj hr hinv' hj' hr' (by rw [h.entry]) hchain hsec

theorem kept_of_spared {c : List Nat} (h : Inv s.data live ch) (h' : Inv s'.data live' ch') (hj : live j) (hj' : live' j)
    (he : s'.data.dirents.get j = s.data.dirents.get j) (hc : ch' j = ch j) (hd : Spared c s.disk s'.disk)
    (hout : ∀ b ∈ ch j, b ∉ c) : Kept s s' j := by
  refine ⟨he, by rw [h'.entryChain_eq hj', h.entryChain_eq hj, hc], fun b hb => ?_⟩
  rw [h.entryChain_eq hj] at hb
  exact hd.sectors b (h.range hj hb).1 (hout b hb)

/-- **A write**, on any disk, keeps the other files. -/
theorem tinyfsWrite_kept (h : WellFormed s.data) (hi : usedEntry s.data i) {node : Node} (hn : node.dirent = some i)
    (buffer : List UInt8) (offset : UInt32) : ∃ r node' s', tinyfsWrite s node buffer offset = .ok (r, node', s') ∧
      ∀ j, usedEntry s.data j → j ≠ i → Kept s s' j := by
  obtain ⟨ch, h⟩ := h
  have hother : ∀ {new : List Nat} {s' : Tinyfs}, Inv s'.data (usedEntry s.data) (Function.update ch i (ch i ++ new)) →
      (∀ j, j ≠ i → s'.data.dirents.get j = s.data.dirents.get j) → Spared (ch i ++ new) s.disk s'.disk →
      ∀ j, usedEntry s.data j → j ≠ i → Kept s s' j := by
    intro new s' hinv he hd j hj hji
    have hdisj := hinv.chains.disjoint i j hi hj (Ne.symm hji)
    rw [Function.update_self, Function.update_of_ne hji] at hdisj
    exact kept_of_spared h hinv hj hj (he j hji) (Function.update_of_ne hji _ _) hd fun b hb hc => hdisj hc hb
  rcases ensureFirstBlock_spec h hi with ⟨he, -, -⟩ | ⟨new₁, d₁, he, hg₁, hfirst, -⟩
  · exact ⟨-1, node, s, by simp [tinyfsWrite, hn, he], fun j _ _ => .refl s j⟩
  have hfirst' : (Function.update ch i (ch i ++ new₁) i)[0]? = some (d₁.dirents.get i).firstBlock.toNat := by
    simpa using hfirst
  obtain ⟨new₂, d₂, hg₂, hext⟩ := extendLoop_spec hg₁.inv hi hfirst' (offset.toNat / 512)
  have hg := hg₁.trans hg₂
  simp only [Function.update_self, List.append_assoc, Nat.zero_add] at hext
  rcases hext with ⟨cur, hx, hcur, -⟩ | ⟨hx, -, -⟩
  · have hreach := (List.getElem?_eq_some_iff.mp hcur).1
    obtain ⟨o, new₃, d₃, disk₃, hl, hg₃, hd, hfits⟩ := writeLoop_kept buffer (UInt32.ofNat buffer.length).toNat
      offset.toNat (UInt32.ofNat buffer.length).toNat hi s.disk (w := 0) zeroBuffer hg.inv
      (j := offset.toNat / 512) (by simpa using hcur) (Nat.mod_lt offset.toNat (show 512 > 0 by omega))
      (fun _ => by omega) (by simp only [Function.update_self]; omega)
    have hg' := hg.trans hg₃
    simp only [Function.update_self, List.append_assoc] at hd hfits
    cases o with
    | none =>
      refine ⟨-1, node, ⟨d₃, disk₃⟩, by simp only [tinyfsWrite, hn, he, ok_bind, hx, hl], ?_⟩
      exact hother hg'.inv hg'.other (by simpa only [List.append_assoc] using hd)
    | some w =>
      obtain ⟨d', fb, n, hd', hfat, hsb, -, -, hdir, hinv⟩ := hg'.resized hi
        (by simpa only [List.append_assoc] using hfits w rfl)
      refine ⟨cInt (UInt32.ofNat w), (finishWrite d₃ disk₃ node i offset (UInt32.ofNat w)).1,
        (finishWrite d₃ disk₃ node i offset (UInt32.ofNat w)).2, by simp only [tinyfsWrite, hn, he, ok_bind, hx, hl], ?_⟩
      simp only [finishWrite, ← hd']
      refine hother hinv hdir ?_
      have hp := hinv.layout.toPlaced
      have hd : Spared (ch i ++ (new₁ ++ new₂ ++ new₃)) s.disk disk₃ := by simpa only [List.append_assoc] using hd
      have hflush := flush_write_spared (ch i ++ (new₁ ++ new₂ ++ new₃)) hp disk₃
      dsimp only
      exact hd.trans hflush
  · refine ⟨0, node, { s with data := d₂ }, by simp only [tinyfsWrite, hn, he, ok_bind, hx], ?_⟩
    exact hother hg.inv hg.other (.refl _ s.disk)

/-- **A create**, on any disk, keeps all files. -/
theorem tinyfsCreateNode_kept (h : WellFormed s.data) (parent : Node) (name : CString) (type : FileType) :
    WellFormed (tinyfsCreateNode s parent name type).2.data ∧
      (s.disk.Reliable → (tinyfsCreateNode s parent name type).2.disk.Reliable) ∧
      ∀ j, usedEntry s.data j → Kept s (tinyfsCreateNode s parent name type).2 j := by
  obtain ⟨ch, hinv⟩ := h
  have hdisk : Spared [] s.disk (tinyfsCreateNode s parent name type).2.disk := by
    unfold tinyfsCreateNode
    split
    · exact .refl _ _
    · split
      · exact .refl _ _
      · split
        · exact .refl _ _
        · rename_i k _
          have hwrite := writeDirectory_spared []
            (d := s.data.modifyDirent k fun e => createDirent e name type parent.inode) hinv.layout.toPlaced s.disk
          dsimp only
          split <;> (dsimp only; exact hwrite)
  rcases tinyfsCreateNode_frame s parent name type with he | ⟨k, -, hfree, hfat, hsb, he⟩
  · rw [he]
    exact ⟨⟨ch, hinv⟩, id, fun j _ => .refl s j⟩
  · generalize (tinyfsCreateNode s parent name type).2 = s' at hfat hsb he hdisk ⊢
    have hused : ∀ j, j ≠ k → (usedEntry s'.data j ↔ usedEntry s.data j) := fun j hj => by
      rw [usedEntry, he.other j hj, usedEntry]
    have hinv' : Inv s'.data (usedEntry s'.data) (Function.update ch k []) :=
      hinv.emptied (fun j hj hu => (hused j hj).mp hu) hsb hfat ⟨he.firstBlock, he.size⟩ he.other
    refine ⟨⟨_, hinv'⟩, hdisk.reliable, fun j hj => ?_⟩
    have hjk : j ≠ k := by
      rintro rfl
      exact hj (findFreeDirent_some hfree).2.1
    exact kept_of_spared hinv hinv' hj ((hused j hjk).mpr hj) (he.other j hjk) (Function.update_of_ne hjk _ _) hdisk
      fun _ _ => List.not_mem_nil

/-- **An unlink**, on any disk, keeps the files it does not remove. -/
theorem tinyfsUnlink_kept (h : WellFormed s.data) {parent : Node} {name : CString} {r : Int}
    (hcall : tinyfsUnlink s parent name = .ok (r, s')) :
    WellFormed s'.data ∧ (s.disk.Reliable → s'.disk.Reliable) ∧
      ∀ j, usedEntry s.data j → usedEntry s'.data j → Kept s s' j := by
  have hsame : s' = s → WellFormed s'.data ∧ (s.disk.Reliable → s'.disk.Reliable) ∧
      ∀ j, usedEntry s.data j → usedEntry s'.data j → Kept s s' j := by
    rintro rfl
    exact ⟨h, id, fun j _ _ => .refl _ j⟩
  by_cases hd : parent.type = .directory
  · cases hf : firstFin 0 (isNamed s.data name) with
    | none =>
      refine hsame ?_
      simp only [tinyfsUnlink, hd, hf, ne_eq, not_true_eq_false, if_false] at hcall
      exact (Prod.mk.inj (Except.ok.inj hcall)).2.symm
    | some i =>
      obtain ⟨ch, hinv⟩ := h
      obtain ⟨d₁, h1, hfreed, hinv₁⟩ := free_spec hinv (isNamed_iff.mp (firstFin_eq_some.mp hf).2.1).1
      have hdisk := flush_unlink_spared [] hinv₁.layout.toPlaced s.disk
      rw [tinyfsUnlink_eq hd hf h1] at hcall
      generalize (writeSuperblock (d₁.modifyDirent i clearDirent) (writeDirectory (d₁.modifyDirent i clearDirent)
        (writeFat (d₁.modifyDirent i clearDirent) s.disk).2).2).2 = disk' at hcall hdisk
      obtain ⟨-, rfl⟩ := Prod.mk.inj (Except.ok.inj hcall)
      have hself : ¬ usedEntry (d₁.modifyDirent i clearDirent) i := by
        rw [usedEntry, hfreed.self]
        exact not_not.mpr rfl
      have hused : ∀ j, usedEntry (d₁.modifyDirent i clearDirent) j → usedEntry s.data j := fun j hj => by
        have hji : j ≠ i := fun e => hself (e ▸ hj)
        rwa [usedEntry, hfreed.other j hji] at hj
      refine ⟨⟨_, hinv₁.mono hused⟩, hdisk.reliable, fun j hj hj' => ?_⟩
      have hji : j ≠ i := fun e => hself (e ▸ hj')
      exact kept_of_spared hinv hinv₁ hj hj (hfreed.other j hji) (Function.update_of_ne hji _ _) hdisk
        fun _ _ => List.not_mem_nil
  · refine hsame ?_
    simp only [tinyfsUnlink, if_pos hd] at hcall
    exact (Prod.mk.inj (Except.ok.inj hcall)).2.symm

end Calls

/-! ## The calls by path and by descriptor -/

section Paths

variable {v v' : VfsState} {mem : Nat → Bool} {path : CString} {r : Int}

theorem vfsUnlink_kept (h : WellFormed v.fs.data) (hcall : vfsUnlink mem v path = .ok (r, v')) :
    WellFormed v'.fs.data ∧ v'.rootNode = v.rootNode ∧ (v.fs.disk.Reliable → v'.fs.disk.Reliable) ∧
      ∀ j, usedEntry v.fs.data j → usedEntry v'.fs.data j → Kept v.fs v'.fs j := by
  rw [vfsUnlink_eq_lookup] at hcall
  obtain ⟨found, -, hcall⟩ := bind_eq_ok.mp hcall
  cases found with
  | none =>
    obtain ⟨-, rfl⟩ := Prod.mk.inj (Except.ok.inj hcall)
    exact ⟨h, rfl, id, fun j _ _ => .refl _ j⟩
  | some found =>
    obtain ⟨⟨r', fs⟩, hu, hcall⟩ := bind_eq_ok.mp hcall
    obtain ⟨-, rfl⟩ := Prod.mk.inj (Except.ok.inj hcall)
    obtain ⟨hw, hr, hk⟩ := tinyfsUnlink_kept h hu
    exact ⟨hw, rfl, hr, hk⟩

theorem vfsCreate_kept (h : WellFormed v.fs.data) (hcall : vfsCreate mem v path = .ok (r, v')) :
    WellFormed v'.fs.data ∧ v'.rootNode = v.rootNode ∧ (v.fs.disk.Reliable → v'.fs.disk.Reliable) ∧
      ∀ j, usedEntry v.fs.data j → Kept v.fs v'.fs j := by
  rw [vfsCreate, vfsCreateNode_eq] at hcall
  obtain ⟨found, -, hcall⟩ := bind_eq_ok.mp hcall
  cases found with
  | none =>
    obtain ⟨-, rfl⟩ := Prod.mk.inj (Except.ok.inj hcall)
    exact ⟨h, rfl, id, fun j _ => .refl _ j⟩
  | some found =>
    obtain ⟨-, rfl⟩ := Prod.mk.inj (Except.ok.inj hcall)
    obtain ⟨hw, hr, hk⟩ := tinyfsCreateNode_kept h found.1 found.2 .regular
    exact ⟨hw, rfl, hr, hk⟩

/-- The descriptor that `vfs_open` gives, if it gives one. -/
theorem vfsOpen_cases {fd : Int} (h : vfsOpen mem v path = .ok (fd, v')) :
    fd < 0 ∧ v' = v ∨ ∃ f node, vfsResolvePath mem v path = .ok (some node) ∧ allocateFd v = some f ∧ fd = f.val ∧
      v' = v.setFd f ⟨true, some node, 0⟩ := by
  obtain ⟨found, hres, h⟩ := bind_eq_ok.mp h
  cases found with
  | none =>
    obtain ⟨rfl, rfl⟩ := Prod.mk.inj (Except.ok.inj h)
    exact .inl ⟨by decide, rfl⟩
  | some node =>
    cases hfd : allocateFd v with
    | none =>
      simp only [hfd] at h
      obtain ⟨rfl, rfl⟩ := Prod.mk.inj (Except.ok.inj h)
      exact .inl ⟨by decide, rfl⟩
    | some f =>
      simp only [hfd] at h
      obtain ⟨rfl, rfl⟩ := Prod.mk.inj (Except.ok.inj h)
      exact .inr ⟨f, node, hres, rfl, rfl, rfl⟩

theorem vfsClose_fs (v : VfsState) (fd : Int) : (vfsClose v fd).2.fs = v.fs := by
  unfold vfsClose
  split <;> rfl

/-- A write through a new descriptor. -/
theorem vfsWrite_kept (h : WellFormed v.fs.data) {fd : Fin 256} {node : Node} (bytes : List UInt8)
    (hnode : ∀ i, node.dirent = some i → usedEntry v.fs.data i)
    (hcall : vfsWrite (v.setFd fd ⟨true, some node, 0⟩) fd.val bytes = .ok (r, v')) :
    ∀ j, usedEntry v.fs.data j → node.dirent ≠ some j → Kept v.fs v'.fs j := by
  have hused : ((v.setFd fd ⟨true, some node, 0⟩).fdTable.get fd).used = true := by rw [opened_get]
  simp only [vfsWrite, usedFd_of_used hused, opened_get] at hcall
  obtain ⟨⟨r', node', fs⟩, hw, hcall⟩ := bind_eq_ok.mp hcall
  obtain ⟨-, rfl⟩ := Prod.mk.inj (Except.ok.inj hcall)
  intro j hj hji
  cases hn : node.dirent with
  | none =>
    simp only [tinyfsWrite, hn] at hw
    cases hw
    exact .refl _ j
  | some i =>
    obtain ⟨r', node', s', he, hk⟩ := tinyfsWrite_kept h (hnode i hn) hn bytes 0
    rw [show (v.setFd fd ⟨true, some node, 0⟩).fs = v.fs from rfl, he] at hw
    cases hw
    exact hk j hj fun e => hji (by rw [hn, e])

end Paths

end AmqOs.Vfs
