import AmqOs.Vfs.TinyfsFiles
import AmqOs.Vfs.VfsNames

/-!
# Runs of VFS calls

`VfsOp` is a call of the virtual filesystem and `vfsStep` performs it. Descriptors stay open across unlinks of their
file and creates of others, and hold a pointer into the directory table.

`BlockInv` says that every block in use is on the chain of a used entry. A call keeps it unless it is a write through
a descriptor whose entry is no longer used (`NoStaleWrite`); `blocks_run` is the run lemma.
-/

set_option autoImplicit false

namespace AmqOs.Vfs

open AmqOs.Lib

/-- A call. The calls that take a path have the outcomes of their `kmalloc` calls. -/
inductive VfsOp
  | create (mem : Nat → Bool) (path : CString)
  | mkdir (mem : Nat → Bool) (path : CString)
  | unlink (mem : Nat → Bool) (path : CString)
  | openFile (mem : Nat → Bool) (path : CString)
  | close (fd : Int)
  | read (fd : Int) (size : UInt32)
  | write (fd : Int) (buffer : List UInt8)
  | seek (fd offset whence : Int)

/-- The answer of a call that stores nothing in a buffer. -/
def noBytes (r : Except Fault (Int × VfsState)) : Except Fault ((Int × List UInt8) × VfsState) :=
  r.map fun out => ((out.1, []), out.2)

/-- One call, with what it returned and the bytes it stored in the caller's buffer. -/
def vfsStep (v : VfsState) : VfsOp → Except Fault ((Int × List UInt8) × VfsState)
  | .create mem path => noBytes (vfsCreate mem v path)
  | .mkdir mem path => noBytes (vfsMkdir mem v path)
  | .unlink mem path => noBytes (vfsUnlink mem v path)
  | .openFile mem path => noBytes (vfsOpen mem v path)
  | .close fd => noBytes (.ok (vfsClose v fd))
  | .read fd size => vfsRead v fd size
  | .write fd buffer => noBytes (vfsWrite v fd buffer)
  | .seek fd offset whence => noBytes (vfsSeek v fd offset whence)

/-! ## Descriptors -/

section Descriptors

variable {v : VfsState}

theorem setFd_get (v : VfsState) (i j : Fin 256) (f : FileDescriptor) :
    (v.setFd i f).fdTable.get j = if i = j then f else v.fdTable.get j :=
  get_setAt v.fdTable i f j

theorem setFd_self (v : VfsState) (i : Fin 256) : v.setFd i (v.fdTable.get i) = v := by
  simp only [VfsState.setFd, setAt_get_self]

/-- A used descriptor has a node. -/
def FdsOpen (v : VfsState) : Prop := ∀ i, (v.fdTable.get i).used = true → (v.fdTable.get i).node.isSome

/-- Descriptor `i` is open on entry `k`. -/
def OpenOn (v : VfsState) (i k : Fin 256) : Prop :=
  (v.fdTable.get i).used = true ∧ ∃ node, (v.fdTable.get i).node = some node ∧ node.dirent = some k

theorem FdsOpen.setFd (h : FdsOpen v) {i : Fin 256} {f : FileDescriptor} (hf : f.used = true → f.node.isSome) :
    FdsOpen (v.setFd i f) := by
  intro j hj
  rw [setFd_get] at hj ⊢
  split at hj
  · rename_i hij
    rw [if_pos hij]
    exact hf hj
  · rename_i hij
    rw [if_neg hij]
    exact h j hj

theorem usedFd_some {fd : Int} {i : Fin 256} (h : v.usedFd fd = some i) : (v.fdTable.get i).used = true := by
  unfold VfsState.usedFd at h
  split at h
  · simp only at h
    split at h
    · rename_i hu
      obtain rfl := Option.some.inj h
      exact hu
    · cases h
  · cases h

theorem usedFd_of_used {i : Fin 256} (h : (v.fdTable.get i).used = true) : v.usedFd i.val = some i := by
  have hi : (0 : Int) ≤ i.val ∧ (i.val : Int) < 256 := by omega
  simp [VfsState.usedFd, hi, h]

/-- A descriptor is its index. -/
theorem usedFd_eq {fd : Int} {i : Fin 256} (h : v.usedFd fd = some i) : fd = i.val := by
  unfold VfsState.usedFd at h
  split at h
  · simp only at h
    split at h
    · obtain rfl := Option.some.inj h
      simp only
      omega
    · cases h
  · cases h

theorem FdsOpen.node (h : FdsOpen v) {fd : Int} {i : Fin 256} (hi : v.usedFd fd = some i) :
    ∃ node, (v.fdTable.get i).node = some node :=
  Option.isSome_iff_exists.mp (h i (usedFd_some hi))

/-- An integer in 32 bits. -/
theorem toNat_ofInt (x : Int) : ((UInt32.ofInt x).toNat : Int) = x % 2 ^ 32 := by
  rw [UInt32.ofInt, UInt32.toNat_ofNat']
  omega

theorem advance_node (f : FileDescriptor) (n : Int) : (f.advance n).node = f.node := by
  unfold FileDescriptor.advance
  split <;> rfl

/-- The path given to `vfs_open` has at most 32 components. -/
def OpenFits (path : CString) : Prop := path.head? = some slash → (components path).length ≤ 32

/-- **Opening**: refused, or a descriptor at position 0 of what the path leads to. -/
theorem vfsOpen_spec (hv : v.rootNode = some rootNode) (mem : Nat → Bool) {path : CString} (hfit : OpenFits path) :
    vfsOpen mem v path = .ok (-1, v) ∨ ∃ fd node, vfsResolvePath mem v path = .ok (some node) ∧
      allocateFd v = some fd ∧ vfsOpen mem v path = .ok (fd.val, v.setFd fd ⟨true, some node, 0⟩) := by
  obtain ⟨found, hres⟩ : ∃ found, vfsResolvePath mem v path = .ok found := by
    by_cases hh : path.head? = some slash
    · exact ⟨_, vfsResolvePath_eq hv mem hh (hfit hh)⟩
    · refine ⟨none, ?_⟩
      have h1 : path ≠ [slash] := by
        rintro rfl
        exact hh rfl
      simp [vfsResolvePath, hv, h1, hh]
  cases found with
  | none => exact .inl (by simp [vfsOpen, hres])
  | some node =>
    cases hfd : allocateFd v with
    | none => exact .inl (by simp [vfsOpen, hres, hfd])
    | some fd => exact .inr ⟨fd, node, hres, rfl, by simp [vfsOpen, hres, hfd]⟩

/-- A seek changes a position or nothing. -/
theorem vfsSeek_spec (h : FdsOpen v) (fd offset whence : Int) :
    ∃ r v', vfsSeek v fd offset whence = .ok (r, v') ∧
      (v' = v ∨ ∃ i pos, v.usedFd fd = some i ∧ v' = v.setFd i { v.fdTable.get i with position := pos }) := by
  cases hu : v.usedFd fd with
  | none => exact ⟨-1, v, by simp [vfsSeek, hu], .inl rfl⟩
  | some i =>
    obtain ⟨node, hnode⟩ := h.node hu
    by_cases h0 : whence = 0
    · exact ⟨_, _, by simp only [vfsSeek, hu, h0, if_true, ok_bind]; rfl, .inr ⟨i, _, rfl, rfl⟩⟩
    · by_cases h1 : whence = 1
      · exact ⟨_, _, by simp only [vfsSeek, hu, h1, if_true, ok_bind]; rfl, .inr ⟨i, _, rfl, rfl⟩⟩
      · by_cases h2 : whence = 2
        · exact ⟨_, _, by simp only [vfsSeek, hu, h2, if_true, hnode, ok_bind]; rfl,
            .inr ⟨i, _, rfl, rfl⟩⟩
        · exact ⟨-1, v, by simp [vfsSeek, hu, h0, h1, h2], .inl rfl⟩

/-- Every read of a filesystem with chains returns and changes nothing. -/
theorem tinyfsRead_total {s : Tinyfs} {ch : Fin 256 → List Nat} (h : Inv s.data (fun _ => True) ch)
    (hr : s.disk.Reliable) (node : Node) (size offset : UInt32) :
    ∃ out, tinyfsRead s node size offset = .ok (out, s) := by
  cases hd : node.dirent with
  | none => exact ⟨(0, []), by simp [tinyfsRead, hd]⟩
  | some i =>
    by_cases hoff : offset < (s.data.dirents.get i).size
    · exact ⟨_, tinyfsRead_spec h trivial hr hd size offset hoff⟩
    · refine ⟨_, tinyfsRead_past hd size ?_⟩
      rw [UInt32.lt_iff_toNat_lt] at hoff
      rw [UInt32.le_iff_toNat_le]
      omega

end Descriptors

/-! ## Blocks and used entries -/

/-- Every block in use is on the chain of an entry, and only used entries have chains. -/
def BlocksOwned (d : TinyfsData) : Prop :=
  ∃ ch, Inv d (fun _ => True) ch ∧ (∀ i, ¬ usedEntry d i → ch i = []) ∧
    ∀ b, 101 ≤ b → b < 1024 → b ∉ freeSet d.fat → ∃ i, b ∈ ch i

section Blocks

variable {s s' : Tinyfs} {ch : Fin 256 → List Nat} {i : Fin 256}

/-- The chain of entry `i` got the blocks `new`. -/
theorem owned_grown {d d' : TinyfsData} {new : List Nat} (hun : ∀ j, ¬ usedEntry d j → ch j = [])
    (hown : ∀ b, 101 ≤ b → b < 1024 → b ∉ freeSet d.fat → ∃ j, b ∈ ch j) (hi : usedEntry d i)
    (hinv : Inv d' (fun _ => True) (Function.update ch i (ch i ++ new))) (hused : ∀ j, usedEntry d' j ↔ usedEntry d j)
    (hfree : freeSet d'.fat = freeSet d.fat \ new.toFinset) : BlocksOwned d' := by
  refine ⟨_, hinv, fun j hj => ?_, fun b h1 h2 hb => ?_⟩
  · have hji : j ≠ i := by
      rintro rfl
      exact hj ((hused j).mpr hi)
    rw [Function.update_of_ne hji]
    exact hun j fun hu => hj ((hused j).mpr hu)
  · by_cases hnew : b ∈ new
    · exact ⟨i, by simp [hnew]⟩
    · rw [hfree, Finset.mem_sdiff, List.mem_toFinset] at hb
      obtain ⟨j, hj⟩ := hown b h1 h2 fun hb' => hb ⟨hb', hnew⟩
      refine ⟨j, ?_⟩
      by_cases hji : j = i
      · subst hji
        simp [hj]
      · rwa [Function.update_of_ne hji]

theorem BlocksOwned.created (h : BlocksOwned s.data) {parent : Node} {q : CString} {type : FileType}
    (hc : Created s parent q type i s') : BlocksOwned s'.data := by
  obtain ⟨ch, hinv, hun, hown⟩ := h
  have hnil : ch i = [] := hun i hc.not_used
  have hsame : Function.update ch i [] = ch := by rw [← hnil, Function.update_eq_self]
  refine ⟨ch, hsame ▸ hc.inv hinv fun _ _ _ => trivial, fun j hj => hun j fun hu => hj ((hc.used_iff j).mpr (.inr hu)),
    fun b h1 h2 hb => hown b h1 h2 (by rwa [hc.fat] at hb)⟩

theorem BlocksOwned.removed (hinv : Inv s.data (fun _ => True) ch) (hun : ∀ j, ¬ usedEntry s.data j → ch j = [])
    (hown : ∀ b, 101 ≤ b → b < 1024 → b ∉ freeSet s.data.fat → ∃ j, b ∈ ch j)
    (hrm : Removed s (fun _ => True) ch i s') : BlocksOwned s'.data := by
  refine ⟨_, hrm.inv, fun j hj => ?_, fun b h1 h2 hb => ?_⟩
  · by_cases hji : j = i
    · rw [hji, Function.update_self]
    · rw [Function.update_of_ne hji]
      exact hun j fun hu => hj ((hrm.used_iff j).mpr ⟨hji, hu⟩)
  · rw [hrm.freed.free hinv trivial, Finset.mem_union, List.mem_toFinset, not_or] at hb
    obtain ⟨j, hj⟩ := hown b h1 h2 hb.1
    have hji : j ≠ i := by
      rintro rfl
      exact hb.2 hj
    exact ⟨j, by rwa [Function.update_of_ne hji]⟩

/-- A write through a used entry, or with no free block, keeps blocks owned. -/
theorem BlocksOwned.write (h : BlocksOwned s.data) (hcount : Counted s.data) (hr : s.disk.Reliable) {node : Node}
    (hn : ∀ i, node.dirent = some i → usedEntry s.data i ∨ freeSet s.data.fat = ∅) (buffer : List UInt8)
    (offset : UInt32) :
    ∃ r node' s', tinyfsWrite s node buffer offset = .ok (r, node', s') ∧ BlocksOwned s'.data ∧ Counted s'.data ∧
      s'.disk.Reliable := by
  cases hd : node.dirent with
  | none => exact ⟨-1, node, s, by simp [tinyfsWrite, hd], h, hcount, hr⟩
  | some i =>
    obtain ⟨ch, hinv, hun, hown⟩ := id h
    rcases tinyfsWrite_spec hinv trivial hr hd buffer offset with
      ⟨-, -, he⟩ | ⟨new, d', hg, -, hne, -, he⟩ | ⟨new, w, s', he, hst⟩
    · exact ⟨_, _, _, he, h, hcount, hr⟩
    · refine ⟨_, _, _, he, ?_, hg.counted trivial hcount, hr⟩
      rcases hn i hd with hu | hfull
      · refine owned_grown hun hown hu hg.inv (fun j => ?_) hg.free
        by_cases hji : j = i
        · obtain ⟨fb, hfb⟩ := hg.self
          simp [hji, usedEntry, hfb]
        · simp [usedEntry, hg.other j hji]
      · have hnil : new = [] := List.eq_nil_iff_forall_not_mem.mpr fun b hb => by
          have := hg.fresh b hb
          simp [hfull] at this
        simp only [hg.same hnil]
        exact h
    · refine ⟨_, _, _, he, ?_, hst.counted hcount, hst.reliable⟩
      have hsame : ∀ j, usedEntry s'.data j ↔ usedEntry s.data j := fun j => by
        by_cases hji : j = i
        · obtain ⟨fb, n, hfb, -⟩ := hst.self
          simp [hji, usedEntry, hfb]
        · simp [usedEntry, hst.other j hji]
      by_cases hu : usedEntry s.data i
      · exact owned_grown hun hown hu hst.inv hsame hst.free
      · -- an entry that is not used has no blocks, so the write needs a free one
        have hfull := (hn i hd).resolve_left hu
        have hnil : new = [] := List.eq_nil_iff_forall_not_mem.mpr fun b hb => by
          have := hst.fresh b hb
          simp [hfull] at this
        have hreach := hst.reach
        simp [hun i hu, hnil] at hreach

end Blocks

/-! ## Runs -/

/-- The paths fit the buffers, and a write is through a used entry, through none, or finds no free block. -/
def NoStaleWrite (v : VfsState) : VfsOp → Prop
  | .create _ path | .mkdir _ path | .unlink _ path => SplitFits path
  | .openFile _ path => OpenFits path
  | .write fd _ => ∀ i node k, v.usedFd fd = some i → (v.fdTable.get i).node = some node → node.dirent = some k →
      usedEntry v.fs.data k ∨ freeSet v.fs.data.fat = ∅
  | .close _ | .read _ _ | .seek _ _ _ => True

structure BlockInv (v : VfsState) : Prop where
  root : v.rootNode = some rootNode
  fds : FdsOpen v
  reliable : v.fs.disk.Reliable
  counted : Counted v.fs.data
  owned : BlocksOwned v.fs.data

theorem BlockInv.setFd {v : VfsState} (h : BlockInv v) {i : Fin 256} {f : FileDescriptor}
    (hf : f.used = true → f.node.isSome) : BlockInv (v.setFd i f) :=
  ⟨h.root, h.fds.setFd hf, h.reliable, h.counted, h.owned⟩

theorem BlockInv.withFs {v : VfsState} (h : BlockInv v) {fs : Tinyfs} (hr : fs.disk.Reliable) (hc : Counted fs.data)
    (ho : BlocksOwned fs.data) : BlockInv { v with fs } :=
  ⟨h.root, h.fds, hr, hc, ho⟩

theorem BlockInv.placed {v : VfsState} (h : BlockInv v) : Placed v.fs.data.sb := by
  obtain ⟨ch, hinv, -, -⟩ := h.owned
  exact hinv.layout.toPlaced

theorem create_blocks {v : VfsState} (h : BlockInv v) (type : FileType) (mem : Nat → Bool) {path : CString}
    (hfit : SplitFits path) : ∃ r v', vfsCreateNode type mem v path = .ok (r, v') ∧ BlockInv v' := by
  rcases vfsCreateNode_spec h.root h.placed h.reliable type mem hfit with he | ⟨p, q, parent, i, fs, -, hc, -, he⟩
  · exact ⟨_, _, he, h⟩
  · exact ⟨_, _, he, h.withFs hc.reliable (hc.counted h.counted) (h.owned.created hc)⟩

theorem unlink_blocks {v : VfsState} (h : BlockInv v) (mem : Nat → Bool) {path : CString} (hfit : SplitFits path) :
    ∃ r v', vfsUnlink mem v path = .ok (r, v') ∧ BlockInv v' := by
  obtain ⟨ch, hinv, hun, hown⟩ := h.owned
  rcases vfsUnlink_spec h.root hinv (fun _ _ => trivial) h.reliable mem hfit with
    he | ⟨p, q, parent, i, fs, -, -, hrm, he⟩
  · exact ⟨_, _, he, h⟩
  · exact ⟨_, _, he, h.withFs hrm.flushed.reliable (hrm.freed.counted hinv trivial h.counted)
      (.removed hinv hun hown hrm)⟩

theorem write_blocks {v : VfsState} (h : BlockInv v) (fd : Int) (buffer : List UInt8)
    (hn : NoStaleWrite v (.write fd buffer)) : ∃ r v', vfsWrite v fd buffer = .ok (r, v') ∧ BlockInv v' := by
  cases hu : v.usedFd fd with
  | none => exact ⟨-1, v, by simp [vfsWrite, hu], h⟩
  | some i =>
    obtain ⟨node, hnode⟩ := h.fds.node hu
    obtain ⟨r, node', fs, he, ho, hc, hr⟩ := h.owned.write h.counted h.reliable (fun k hk => hn i node k hu hnode hk)
      buffer (v.fdTable.get i).position
    refine ⟨r, _, by simp only [vfsWrite, hu, hnode, he, ok_bind]; rfl, (h.withFs hr hc ho).setFd fun _ => ?_⟩
    simp [advance_node]

theorem read_blocks {v : VfsState} (h : BlockInv v) (fd : Int) (size : UInt32) :
    ∃ out v', vfsRead v fd size = .ok (out, v') ∧ BlockInv v' := by
  cases hu : v.usedFd fd with
  | none => exact ⟨(-1, []), v, by simp [vfsRead, hu], h⟩
  | some i =>
    obtain ⟨node, hnode⟩ := h.fds.node hu
    obtain ⟨ch, hinv, -, -⟩ := h.owned
    obtain ⟨out, he⟩ := tinyfsRead_total hinv h.reliable node size (v.fdTable.get i).position
    refine ⟨out, _, by simp only [vfsRead, hu, hnode, he, ok_bind]; rfl, BlockInv.setFd h fun _ => ?_⟩
    simp [advance_node, hnode]

/-- **A call** that does not write through an entry no longer used keeps every block owned. -/
theorem vfsStep_blocks {v : VfsState} (h : BlockInv v) {op : VfsOp} (hn : NoStaleWrite v op) :
    ∃ out v', vfsStep v op = .ok (out, v') ∧ BlockInv v' := by
  have hnum : ∀ {r : Except Fault (Int × VfsState)}, (∃ n v', r = .ok (n, v') ∧ BlockInv v') →
      ∃ out v', noBytes r = .ok (out, v') ∧ BlockInv v' := by
    rintro r ⟨n, v', rfl, h'⟩
    exact ⟨(n, []), v', rfl, h'⟩
  cases op with
  | create mem path => exact hnum (create_blocks h .regular mem hn)
  | mkdir mem path => exact hnum (create_blocks h .directory mem hn)
  | unlink mem path => exact hnum (unlink_blocks h mem hn)
  | openFile mem path =>
    refine hnum ?_
    rcases vfsOpen_spec h.root mem hn with he | ⟨fd, node, -, -, he⟩
    · exact ⟨_, _, he, h⟩
    · exact ⟨_, _, he, h.setFd fun _ => rfl⟩
  | close fd =>
    refine hnum ?_
    cases hu : v.usedFd fd with
    | none => exact ⟨-1, v, by simp [vfsClose, hu], h⟩
    | some i => exact ⟨0, v.setFd i ⟨false, none, 0⟩, by simp [vfsClose, hu], h.setFd fun hf => by cases hf⟩
  | read fd size => exact read_blocks h fd size
  | write fd buffer => exact hnum (write_blocks h fd buffer hn)
  | seek fd offset whence =>
    refine hnum ?_
    obtain ⟨r, v', he, rfl | ⟨i, pos, hi, rfl⟩⟩ := vfsSeek_spec h.fds fd offset whence
    · exact ⟨r, v', he, h⟩
    · exact ⟨r, _, he, h.setFd fun hf => h.fds i hf⟩

theorem Fresh.blockInv {fs : Tinyfs} (h : Fresh fs) : BlockInv (vfsMounted fs) := by
  refine ⟨rfl, fun i hi => ?_, h.reliable, h.counted, ⟨_, h.inv _, fun _ _ => rfl, fun b h1 h2 hb => ?_⟩⟩
  · simp [vfsMounted, closedTable, get_eq] at hi
  · exact absurd (by rw [vfsMounted, h.fat, freeSet_fresh]; exact Finset.mem_Ico.mpr ⟨h1, h2⟩) hb

/-- **No block is lost** along a run of calls without a stale write: every block in use is on the chain of exactly one
used entry, and when no entry is used every block is free. -/
theorem blocks_run {disk : Disk} (hr : disk.Reliable) (raw : TinyfsData) (device : CString) {fs : Tinyfs}
    (hfs : formatAndMount raw device disk = some fs) {ops : List VfsOp}
    (hops : Along vfsStep NoStaleWrite (vfsMounted fs) ops) :
    ∃ rs v, runFrom vfsStep (vfsMounted fs) ops = .ok (rs, v) ∧
      (∀ b : Fin 1024, 101 ≤ b.val → v.fs.data.fat.get b ≠ 0 →
        ∃! i, usedEntry v.fs.data i ∧ b.val ∈ entryChain v.fs.data i) ∧
      ((∀ i, ¬ usedEntry v.fs.data i) → v.fs.data.sb.freeBlocks = 923) := by
  obtain ⟨fs', hfs', hfresh, -⟩ := formatAndMount_fresh hr raw device
  obtain rfl : fs' = fs := Option.some.inj (hfs'.symm.trans hfs)
  obtain ⟨rs, v, hrun, h⟩ := runFrom_inv BlockInv (fun v op h hn => vfsStep_blocks h hn) hfresh.blockInv hops
  obtain ⟨ch, hinv, hun, hown⟩ := h.owned
  have hchain : ∀ i, entryChain v.fs.data i = ch i := fun i => hinv.entryChain_eq trivial
  have hnotfree : ∀ b : Fin 1024, v.fs.data.fat.get b ≠ 0 → b.val ∉ freeSet v.fs.data.fat := fun b hb hf => by
    obtain ⟨-, -, h0⟩ := mem_freeSet.mp hf
    rw [getElem?_of_lt _ b.isLt] at h0
    exact hb (Option.some.inj h0)
  refine ⟨rs, v, hrun, fun b hb hne => ?_, fun hnone => ?_⟩
  · obtain ⟨i, hi⟩ := hown b hb b.isLt (hnotfree b hne)
    have hui : usedEntry v.fs.data i := by
      by_contra hu
      rw [hun i hu] at hi
      cases hi
    refine ⟨i, ⟨hui, by rw [hchain]; exact hi⟩, fun j hj => ?_⟩
    by_contra hji
    exact hinv.chains.disjoint j i trivial trivial hji (by rw [← hchain]; exact hj.2) hi
  · have hfree : freeSet v.fs.data.fat = Finset.Ico 101 1024 := by
      refine Finset.Subset.antisymm (Finset.filter_subset _ _) fun b hb => ?_
      obtain ⟨h1, h2⟩ := Finset.mem_Ico.mp hb
      by_contra hb'
      obtain ⟨i, hi⟩ := hown b h1 h2 hb'
      rw [hun i (hnone i)] at hi
      cases hi
    have hcount := h.counted
    unfold Counted at hcount
    rw [hfree, Nat.card_Ico] at hcount
    exact UInt32.toNat_inj.mp hcount

/-! ## A write after an unlink -/

def pathA : ShortPath := rootPath nameA (by decide)

theorem pathA_fits : SplitFits pathA.val := pathA.splitFits

theorem allocateFd_closed {v : VfsState} (h : v.fdTable = closedTable) : allocateFd v = some 3 := by
  refine firstFin_eq_some.mpr ⟨by decide, by simp [h, closedTable, get_eq], fun j h3 hj => ?_⟩
  have hj' : j.val < 3 := hj
  omega

/-- The state in which descriptor 3 is the only one. -/
def openedAt (fs : Tinyfs) (node : Node) (position : UInt32) : VfsState :=
  VfsState.setFd ⟨fs, some rootNode, closedTable⟩ 3 ⟨true, some node, position⟩

@[simp] theorem openedAt_fs (fs : Tinyfs) (node : Node) (position : UInt32) : (openedAt fs node position).fs = fs := rfl

theorem openedAt_get (fs : Tinyfs) (node : Node) (position : UInt32) :
    (openedAt fs node position).fdTable.get 3 = ⟨true, some node, position⟩ :=
  (setFd_get _ 3 3 _).trans (if_pos rfl)

theorem openedAt_used {fs : Tinyfs} {node : Node} {position : UInt32} {j : Fin 256}
    (h : ((openedAt fs node position).fdTable.get j).used = true) : j = 3 := by
  by_contra hj
  rw [openedAt, setFd_get, if_neg (Ne.symm hj)] at h
  simp [closedTable, get_eq] at h

theorem openedAt_usedFd (fs : Tinyfs) (node : Node) (position : UInt32) :
    (openedAt fs node position).usedFd 3 = some 3 :=
  usedFd_of_used (i := 3) (by rw [openedAt_get])

theorem openedAt_setFd (fs fs' : Tinyfs) (node node' : Node) (position position' : UInt32) :
    VfsState.setFd { openedAt fs node position with fs := fs' } 3 ⟨true, some node', position'⟩ =
      openedAt fs' node' position' := by
  simp only [openedAt, VfsState.setFd, VfsState.mk.injEq, true_and]
  refine vec_ext fun k => ?_
  rw [get_setAt, get_setAt, get_setAt]
  split <;> rfl

/-- The path leads to the file that was created. -/
theorem Created.resolve_pathA {fs fs₁ : Tinyfs} {i : Fin 256} (hc : Created fs rootNode nameA .regular i fs₁)
    {v : VfsState} (hv : v.rootNode = some rootNode) (hfs : v.fs = fs₁) :
    vfsResolvePath (fun _ => true) v pathA.val = .ok (some (nodeOf fs₁.data i)) := by
  subst hfs
  have hroot := rootPath_inDir hv (fun _ => true) nameA (by decide)
  exact (ShortPath.resolve hv _ hroot.eq hroot.name hroot.head (by decide)).trans
    (congrArg _ (resolveLoop_snoc.mpr ⟨rootNode, rfl, hc.found (by decide)⟩))

/-- `/a` is created on a fresh filesystem and opened. -/
theorem Fresh.create_open {fs : Tinyfs} (h : Fresh fs) :
    ∃ i fs₁, Created fs rootNode nameA .regular i fs₁ ∧ Inv fs₁.data (fun _ => True) (fun _ => []) ∧
      vfsStep (vfsMounted fs) (.create (fun _ => true) pathA.val) = .ok ((0, []), ⟨fs₁, some rootNode, closedTable⟩) ∧
      vfsStep ⟨fs₁, some rootNode, closedTable⟩ (.openFile (fun _ => true) pathA.val) =
        .ok ((3, []), openedAt fs₁ (nodeOf fs₁.data i) 0) := by
  have hm := h.mountInv
  have hroot := rootPath_inDir hm.root (fun _ => true) nameA (by decide)
  obtain ⟨i, fs₁, he, hc⟩ := hroot.create_ok hm.placed hm.reliable .regular
    (fun j hj => absurd hj (h.not_used j)) (k := 1) (by decide) (h.not_used 1)
  have hres := hc.resolve_pathA (v := ⟨fs₁, some rootNode, closedTable⟩) rfl rfl
  have hopen : vfsOpen (fun _ => true) ⟨fs₁, some rootNode, closedTable⟩ pathA.val =
      .ok (3, openedAt fs₁ (nodeOf fs₁.data i) 0) := by
    simp only [vfsOpen, hres, ok_bind, allocateFd_closed (v := ⟨fs₁, some rootNode, closedTable⟩) rfl]
    rfl
  refine ⟨i, fs₁, hc, ?_, congrArg noBytes he, congrArg noBytes hopen⟩
  simpa using hc.inv (h.inv fun _ => True) fun _ _ _ => trivial

/-- Create and open `/a`, write a byte, close the descriptor and unlink the file. -/
def storeOps : List VfsOp :=
  [.create (fun _ => true) pathA.val, .openFile (fun _ => true) pathA.val, .write 3 [1], .close 3,
    .unlink (fun _ => true) pathA.val]

theorem blocks_run_blank : ∃ fs rs v, formatAndMount blankData [] blankDisk = some fs ∧
    runFrom vfsStep (vfsMounted fs) storeOps = .ok (rs, v) ∧
    (∀ b : Fin 1024, 101 ≤ b.val → v.fs.data.fat.get b ≠ 0 →
      ∃! i, usedEntry v.fs.data i ∧ b.val ∈ entryChain v.fs.data i) ∧
    ((∀ i, ¬ usedEntry v.fs.data i) → v.fs.data.sb.freeBlocks = 923) := by
  obtain ⟨fs, hfs, hfresh, -⟩ := formatAndMount_fresh blankDisk_reliable blankData []
  obtain ⟨i, fs₁, hc, -, h1, h2⟩ := hfresh.create_open
  -- the descriptor is on the entry that was created
  have hwrite : NoStaleWrite (openedAt fs₁ (nodeOf fs₁.data i) 0) (.write 3 [1]) := by
    intro j node k hj hnode hk
    obtain rfl : 3 = j := Option.some.inj ((openedAt_usedFd _ _ _).symm.trans hj)
    rw [openedAt_get] at hnode
    obtain rfl := Option.some.inj hnode
    obtain rfl : i = k := Option.some.inj hk
    exact .inl ((hc.used_iff i).mpr (.inl rfl))
  have hsafe : Along vfsStep NoStaleWrite (vfsMounted fs) storeOps :=
    (along_cons_ok h1).mp ⟨pathA_fits, (along_cons_ok h2).mp ⟨fun _ => by decide, hwrite, fun _ _ _ =>
      ⟨trivial, fun _ _ _ => ⟨pathA_fits, fun _ _ _ => trivial⟩⟩⟩⟩
  obtain ⟨rs, v, hrun, hown, hnone⟩ := blocks_run blankDisk_reliable blankData [] hfs hsafe
  exact ⟨fs, rs, v, hfs, hrun, hown, hnone⟩

/-- A write of one byte through the descriptor. -/
theorem openedAt_write {fs fs' : Tinyfs} {node node' : Node} {position : UInt32} {b : UInt8}
    (hw : tinyfsWrite fs node [b] position = .ok (1, node', fs')) :
    vfsStep (openedAt fs node position) (.write 3 [b]) = .ok ((1, []), openedAt fs' node' (position + 1)) := by
  have hwrite : vfsWrite (openedAt fs node position) 3 [b] = .ok (1, openedAt fs' node' (position + 1)) := by
    simp only [vfsWrite, openedAt_usedFd, openedAt_get, openedAt_fs, hw]
    exact congrArg (fun v => Except.ok ((1 : Int), v)) (openedAt_setFd _ _ _ _ _ _)
  exact congrArg noBytes hwrite

/-- A byte is written in the first block of a file without blocks. -/
theorem tinyfsWrite_one {s : Tinyfs} {i : Fin 256} (h : Inv s.data (fun _ => True) fun _ => []) (hr : s.disk.Reliable)
    (hfree : freeSet s.data.fat = Finset.Ico 101 1024) {node : Node} (hn : node.dirent = some i) (b : UInt8)
    {offset : UInt32} (hoff : offset.toNat < 511) : ∃ new s',
      tinyfsWrite s node [b] offset = .ok (1, nodeAfter s i node offset 1, s') ∧
      Stored s (fun _ => True) (fun _ => []) i [b] offset new 1 s' := by
  rcases tinyfsWrite_spec h trivial hr hn [b] offset with
    ⟨-, hf, -⟩ | ⟨new, d', -, -, hne, hlen, -⟩ | ⟨new, w, s', he, hst⟩
  · rw [hfree] at hf
    exact absurd hf (Finset.nonempty_iff_ne_empty.mp ⟨101, by simp⟩)
  · rw [show offset.toNat / 512 = 0 by omega] at hlen
    exact absurd (List.length_eq_zero_iff.mp (Nat.le_zero.mp hlen)) hne
  · obtain rfl : w = 1 := by
      rcases hst.count with h1 | ⟨h1, -, h3⟩
      · exact h1
      · have hreach := hst.reach
        have h1' : w < 1 := h1
        omega
    exact ⟨new, s', he, hst⟩

/-- Create and open `/a`, unlink it, write a byte through the descriptor. -/
def staleOps : List VfsOp :=
  [.create (fun _ => true) pathA.val, .openFile (fun _ => true) pathA.val, .unlink (fun _ => true) pathA.val,
    .write 3 [1]]

/-- The calls succeed; no entry is used at the end, and a block is missing from the free ones. -/
theorem staleOps_leak : ∃ fs v, formatAndMount blankData [] blankDisk = some fs ∧
    runFrom vfsStep (vfsMounted fs) staleOps = .ok ([(0, []), (3, []), (0, []), (1, [])], v) ∧
    (∀ i, ¬ usedEntry v.fs.data i) ∧ v.fs.data.sb.freeBlocks ≠ 923 := by
  obtain ⟨fs, hfs, hfresh, -⟩ := formatAndMount_fresh blankDisk_reliable blankData []
  obtain ⟨i, fs₁, hc₁, hinv₁, h1, h2⟩ := hfresh.create_open
  have hui : usedEntry fs₁.data i := (hc₁.used_iff i).mpr (.inl rfl)
  have hused₁ : ∀ j, usedEntry fs₁.data j → j = i := fun j hj =>
    ((hc₁.used_iff j).mp hj).resolve_right (hfresh.not_used j)
  have hfirst : firstFin 0 (isNamed fs₁.data nameA) = some i :=
    firstFin_of_unique (Nat.zero_le _) (isNamed_iff.mpr ⟨hui, hc₁.cname⟩) fun l hl => hused₁ l (isNamed_iff.mp hl).1
  let node := nodeOf fs₁.data i
  obtain ⟨fs₂, he₃, hrm'⟩ := (rootPath_inDir (v := openedAt fs₁ node 0) rfl (fun _ => true) nameA (by decide)).unlink_ok
    hinv₁ (fun _ _ => trivial) hc₁.reliable hfirst
  have hrm : Removed fs₁ (fun _ => True) (fun _ => []) i fs₂ := hrm'
  have h3 : vfsStep (openedAt fs₁ node 0) (.unlink (fun _ => true) pathA.val) = .ok ((0, []), openedAt fs₂ node 0) :=
    congrArg noBytes he₃
  -- the write takes a block for an entry that is not used
  have hinv₂ : Inv fs₂.data (fun _ => True) fun _ => [] := by simpa using hrm.inv
  have hcount₂ : Counted fs₂.data := hrm.freed.counted hinv₁ trivial (hc₁.counted hfresh.counted)
  have hfree₂ : freeSet fs₂.data.fat = Finset.Ico 101 1024 := by
    rw [hrm.freed.free hinv₁ trivial, hc₁.fat.trans hfresh.fat, freeSet_fresh]
    simp
  obtain ⟨new, fs₃, hw, hst⟩ := tinyfsWrite_one hinv₂ hrm.flushed.reliable hfree₂ (show node.dirent = some i from rfl) 1
    (show (0 : UInt32).toNat < 511 by decide)
  have h4 : vfsStep (openedAt fs₂ node 0) (.write 3 [1]) =
      .ok ((1, []), openedAt fs₃ (nodeAfter fs₂ i node 0 1) 1) := openedAt_write hw
  refine ⟨fs, openedAt fs₃ (nodeAfter fs₂ i node 0 1) 1, hfs,
    runFrom_cons h1 (runFrom_cons h2 (runFrom_cons h3 (runFrom_cons h4 runFrom_nil))), fun j hj => ?_, fun hfull => ?_⟩
  · have hj' : usedEntry fs₂.data j := by
      by_cases hji : j = i
      · obtain ⟨fb, n, hfb, -⟩ := hst.self
        subst hji
        simpa [usedEntry, hfb] using hj
      · simpa [usedEntry, hst.other j hji] using hj
    obtain ⟨hji, hu⟩ := (hrm.used_iff j).mp hj'
    exact hji (hused₁ j hu)
  · -- a block was taken
    have hcount : fs₃.data.sb.freeBlocks.toNat = (freeSet fs₃.data.fat).card := hst.counted hcount₂
    have hfull' : fs₃.data.sb.freeBlocks = 923 := hfull
    rw [hfull', hst.free, hfree₂] at hcount
    have hreach := hst.reach
    simp only [List.nil_append] at hreach
    obtain ⟨b, hb⟩ := List.exists_mem_of_length_pos (Nat.lt_of_le_of_lt (Nat.zero_le _) hreach)
    have hlt : (Finset.Ico 101 1024 \ new.toFinset).card < (Finset.Ico 101 1024).card := by
      refine Finset.card_lt_card (Finset.sdiff_ssubset (fun c hc => ?_) ⟨b, List.mem_toFinset.mpr hb⟩)
      exact hfree₂ ▸ hst.fresh c (List.mem_toFinset.mp hc)
    rw [Nat.card_Ico] at hlt
    exact absurd hcount (by show 923 ≠ _; omega)

end AmqOs.Vfs
