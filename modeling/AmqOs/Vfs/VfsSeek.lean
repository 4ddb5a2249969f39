import AmqOs.Vfs.TinyfsFrame
import AmqOs.Vfs.VfsRun
import AmqOs.Vfs.VfsBounds

/-!
# Seeking

`vfs_seek` adds a signed offset in 32 bits, and for `SEEK_END` it starts from the size in the node of the descriptor,
a copy made when the file was opened. `SeekExact` says that a seek does what it should over the integers and with the
size that the file has; `vfsSeek_exact_iff` says when, for a node whose size is current. `SizesCurrent` says that the
nodes of all open descriptors are; a call keeps it when it changes the size of an entry only through the one
descriptor that is open on it (`vfsStep_sizes`), and `seek_run` is the run lemma.
-/

set_option autoImplicit false

namespace AmqOs.Vfs

open AmqOs.Lib

/-- The size of a file as `tinyfs_read` sees it. -/
def currentSize (d : TinyfsData) (node : Node) : UInt32 :=
  match node.dirent with
  | some i => (d.dirents.get i).size
  | none => 0

/-- Where a seek starts from: 0, the position, or the size of the file. `none` is an invalid `whence`. -/
def seekBase (v : VfsState) (f : FileDescriptor) (whence : Int) : Option Nat :=
  if whence = 0 then some 0
  else if whence = 1 then some f.position.toNat
  else if whence = 2 then some ((f.node.map fun node => (currentSize v.fs.data node).toNat).getD 0)
  else none

/-- The seek sets the position to the sum, over the integers; if the sum is negative or `whence` is invalid it returns
`-1` and changes nothing. -/
def SeekExact (v : VfsState) (fd offset whence : Int) : Prop :=
  ∀ i, v.usedFd fd = some i → ∃ r v', vfsSeek v fd offset whence = .ok (r, v') ∧
    match seekBase v (v.fdTable.get i) whence with
    | none => r = -1 ∧ v' = v
    | some base =>
      if 0 ≤ base + offset then
        ∃ pos, v' = v.setFd i { v.fdTable.get i with position := pos } ∧ (pos.toNat : Int) = base + offset
      else r = -1 ∧ v' = v

/-- The sum is a position. Beside that, a seek to `-1` at the last position is refused by coincidence. -/
def SeekFits (v : VfsState) (fd offset whence : Int) : Prop :=
  ∀ i, v.usedFd fd = some i → ∀ base, seekBase v (v.fdTable.get i) whence = some base →
    (0 ≤ base + offset ∧ base + offset < 2 ^ 32) ∨
      (base + offset < 0 ∧ (base + offset) % 2 ^ 32 = 2 ^ 32 - 1 ∧
        (v.fdTable.get i).position.toNat = 2 ^ 32 - 1)

section Seeking

variable {v v' : VfsState} {fd offset whence : Int} {i : Fin 256}

theorem ofInt_toNat (x : UInt32) : UInt32.ofInt x.toNat = x := by
  have hlt := x.toNat_lt
  have hval := toNat_ofInt x.toNat
  rw [← UInt32.toNat_inj]
  omega

/-- The value that stands for failure. -/
theorem cInt_eq_neg_one {x : UInt32} : cInt x = -1 ↔ x.toNat = 2 ^ 32 - 1 := by
  have hlt := x.toNat_lt
  rw [cInt, BitVec.toInt_eq_toNat_cond]
  simp only [UInt32.toNat_toBitVec]
  split <;> omega

theorem setFd_position_eq (v : VfsState) (i : Fin 256) (pos : UInt32) :
    v.setFd i { v.fdTable.get i with position := pos } = v ↔ pos = (v.fdTable.get i).position := by
  constructor
  · intro h
    have hget := congrArg (fun w => (w.fdTable.get i).position) h
    simpa [setFd_get] using hget
  · rintro rfl
    exact setFd_self v i

/-- **Seeking** from a node whose size is current. -/
theorem vfsSeek_eq {node : Node} (hu : v.usedFd fd = some i) (hnode : (v.fdTable.get i).node = some node)
    (hsize : node.size = currentSize v.fs.data node) : vfsSeek v fd offset whence =
      match seekBase v (v.fdTable.get i) whence with
      | none => .ok (-1, v)
      | some base => .ok (cInt (UInt32.ofInt (base + offset)),
          v.setFd i { v.fdTable.get i with position := UInt32.ofInt (base + offset) }) := by
  by_cases h0 : whence = 0
  · simp [vfsSeek, hu, seekBase, h0]
  · by_cases h1 : whence = 1
    · simp [vfsSeek, hu, seekBase, h1, ofInt_toNat]
    · by_cases h2 : whence = 2
      · simp [vfsSeek, hu, seekBase, h2, hnode, hsize, ofInt_toNat]
      · simp [vfsSeek, hu, seekBase, h0, h1, h2]

/-- **One seek** is exact precisely when the sum is a position, if the size in the node is current. -/
theorem vfsSeek_exact_iff
    (hcur : ∀ i, (v.fdTable.get i).used = true → ∃ node, (v.fdTable.get i).node = some node ∧
      node.size = currentSize v.fs.data node) : SeekExact v fd offset whence ↔ SeekFits v fd offset whence := by
  refine forall_congr' fun i => forall_congr' fun hu => ?_
  obtain ⟨node, hnode, hsize⟩ := hcur i (usedFd_some hu)
  rw [vfsSeek_eq hu hnode hsize]
  cases hbase : seekBase v (v.fdTable.get i) whence with
  | none => simp
  | some base =>
    have hpos := toNat_ofInt (base + offset)
    have hval := cInt_eq_neg_one (x := UInt32.ofInt (base + offset))
    have hsame := setFd_position_eq v i (UInt32.ofInt (base + offset))
    rw [← UInt32.toNat_inj] at hsame
    have hlt := (UInt32.ofInt (base + offset)).toNat_lt
    constructor
    · rintro ⟨r, v', he, hex⟩ base' hb'
      obtain rfl := Option.some.inj hb'
      obtain ⟨rfl, rfl⟩ := Prod.mk.inj (Except.ok.inj he)
      by_cases hneg : 0 ≤ base + offset
      · simp only [hneg, if_true] at hex
        obtain ⟨pos, hv', hsum⟩ := hex
        have hget := congrArg (fun w => (w.fdTable.get i).position) hv'
        simp only [setFd_get, if_true] at hget
        rw [hget] at hpos
        exact .inl ⟨hneg, by omega⟩
      · simp only [hneg, if_false] at hex
        have h1 := hval.mp hex.1
        have h2 := hsame.mp hex.2
        exact .inr ⟨by omega, by omega, by omega⟩
    · intro hfits
      refine ⟨_, _, rfl, ?_⟩
      rcases hfits base rfl with ⟨hneg, hlast⟩ | ⟨hneg, hmod, hlast⟩
      · simp only [hneg, if_true]
        exact ⟨_, rfl, by omega⟩
      · simp only [show ¬ 0 ≤ base + offset by omega, if_false]
        exact ⟨hval.mpr (by omega), hsame.mpr (by omega)⟩

end Seeking

/-! ## The sizes in the nodes -/

/-- The node of every open descriptor has the size that its file has. -/
structure SizesCurrent (v : VfsState) : Prop where
  root : v.rootNode = some rootNode
  node : ∀ i, (v.fdTable.get i).used = true →
    ∃ node, (v.fdTable.get i).node = some node ∧ node.size = currentSize v.fs.data node

/-- The entry whose size a call sets to 0: the free one that a create takes, or the one that an unlink removes. -/
def zeroedEntry (v : VfsState) : VfsOp → Option (Fin 256)
  | .create mem path | .mkdir mem path =>
    match parentLookup mem v path with
    | .ok (some (parent, name)) =>
      if (firstFin 0 (isEntry v.fs.data parent.inode name)).isSome then none else findFreeDirent v.fs.data
    | _ => none
  | .unlink mem path =>
    match parentLookup mem v path with
    | .ok (some (_, name)) => firstFin 0 (isNamed v.fs.data name)
    | _ => none
  | _ => none

/-- A write stays inside the file, or its descriptor is the only one that is open on the file; an entry whose size is
set to 0 has that size, or no descriptor is open on it. -/
def SizesSafe (v : VfsState) : VfsOp → Prop
  | .write fd buffer => ∀ i k, v.usedFd fd = some i → OpenOn v i k →
      (v.fdTable.get i).position.toNat + buffer.length ≤ (v.fs.data.dirents.get k).size.toNat ∨
        ∀ j, OpenOn v j k → j = i
  | op => ∀ k, zeroedEntry v op = some k → (v.fs.data.dirents.get k).size = 0 ∨ ∀ j, ¬ OpenOn v j k

section Sizes

variable {v w : VfsState}

theorem SizesCurrent.fds (h : SizesCurrent v) : FdsOpen v := fun i hi => by
  obtain ⟨node, hnode, -⟩ := h.node i hi
  rw [hnode]
  rfl

/-- Each descriptor is as it was, on an entry of the same size, or its node is current. -/
theorem SizesCurrent.of_each (h : SizesCurrent v) (hroot : w.rootNode = v.rootNode)
    (hfd : ∀ j, (w.fdTable.get j = v.fdTable.get j ∧
        ∀ k, OpenOn v j k → (w.fs.data.dirents.get k).size = (v.fs.data.dirents.get k).size) ∨
      ((w.fdTable.get j).used = true →
        ∃ node, (w.fdTable.get j).node = some node ∧ node.size = currentSize w.fs.data node)) : SizesCurrent w := by
  refine ⟨hroot.trans h.root, fun j hj => ?_⟩
  rcases hfd j with ⟨hget, hsize⟩ | hnode
  · rw [hget] at hj ⊢
    obtain ⟨node, hnode, hcur⟩ := h.node j hj
    refine ⟨node, hnode, ?_⟩
    rw [hcur]
    cases hd : node.dirent with
    | none => simp [currentSize, hd]
    | some k => simp [currentSize, hd, hsize k ⟨hj, node, hnode, hd⟩]
  · exact hnode hj

/-- A descriptor is replaced. -/
theorem SizesCurrent.setFd (h : SizesCurrent v) {i : Fin 256} {f : FileDescriptor}
    (hf : f.used = true → ∃ node, f.node = some node ∧ node.size = currentSize v.fs.data node) :
    SizesCurrent (v.setFd i f) := by
  refine h.of_each rfl fun j => ?_
  rw [setFd_get]
  split
  · exact .inr hf
  · exact .inl ⟨rfl, fun _ _ => rfl⟩

theorem SizesCurrent.advance (h : SizesCurrent v) {i : Fin 256} (n : Int) :
    SizesCurrent (v.setFd i ((v.fdTable.get i).advance n)) := by
  refine h.setFd fun hu => ?_
  rw [advance_node]
  refine h.node i ?_
  unfold FileDescriptor.advance at hu
  split at hu <;> exact hu

/-- The sizes of the entries are as they were, but for one entry without descriptors or of size 0. -/
theorem SizesCurrent.withFs (h : SizesCurrent v) {fs : Tinyfs} {k : Fin 256} (he : Emptied v.fs.data fs.data k)
    (hk : (v.fs.data.dirents.get k).size = 0 ∨ ∀ j, ¬ OpenOn v j k) : SizesCurrent { v with fs } := by
  refine h.of_each rfl fun j => .inl ⟨rfl, fun l hl => ?_⟩
  by_cases hlk : l = k
  · subst hlk
    exact he.size.trans (hk.resolve_right fun hno => hno j hl).symm
  · exact congrArg Dirent.size (he.other l hlk)

/-! ## The calls -/

theorem create_sizes (h : SizesCurrent v) {type : FileType} {mem : Nat → Bool} {path : CString} {r : Int}
    (hs : SizesSafe v (.create mem path)) (hstep : vfsCreateNode type mem v path = .ok (r, w)) : SizesCurrent w := by
  rw [vfsCreateNode_eq] at hstep
  obtain ⟨found, hl, hstep⟩ := bind_eq_ok.mp hstep
  cases found with
  | none =>
    obtain ⟨-, rfl⟩ := Prod.mk.inj (Except.ok.inj hstep)
    exact h
  | some found =>
    obtain ⟨parent, name⟩ := found
    obtain ⟨-, rfl⟩ := Prod.mk.inj (Except.ok.inj hstep)
    rcases tinyfsCreateNode_frame v.fs parent name type with he | ⟨k, hnone, hfree, -, -, he⟩
    · rw [he]
      exact h
    · exact h.withFs he (hs k (by simp [zeroedEntry, hl, hnone, hfree]))

theorem unlink_sizes (h : SizesCurrent v) {mem : Nat → Bool} {path : CString} {r : Int}
    (hs : SizesSafe v (.unlink mem path)) (hstep : vfsUnlink mem v path = .ok (r, w)) : SizesCurrent w := by
  rw [vfsUnlink_eq_lookup] at hstep
  obtain ⟨found, hl, hstep⟩ := bind_eq_ok.mp hstep
  cases found with
  | none =>
    obtain ⟨-, rfl⟩ := Prod.mk.inj (Except.ok.inj hstep)
    exact h
  | some found =>
    obtain ⟨parent, name⟩ := found
    obtain ⟨⟨r', fs⟩, hu, hstep⟩ := bind_eq_ok.mp hstep
    obtain ⟨-, rfl⟩ := Prod.mk.inj (Except.ok.inj hstep)
    rcases tinyfsUnlink_frame hu with rfl | ⟨k, hk, he⟩
    · exact h
    · exact h.withFs he (hs k (by simp [zeroedEntry, hl, hk]))

theorem open_sizes (h : SizesCurrent v) {mem : Nat → Bool} {path : CString} {r : Int}
    (hstep : vfsOpen mem v path = .ok (r, w)) : SizesCurrent w := by
  obtain ⟨found, hl, hstep⟩ := bind_eq_ok.mp hstep
  cases found with
  | none =>
    obtain ⟨-, rfl⟩ := Prod.mk.inj (Except.ok.inj hstep)
    exact h
  | some node =>
    cases hfd : allocateFd v with
    | none =>
      simp only [hfd] at hstep
      obtain ⟨-, rfl⟩ := Prod.mk.inj (Except.ok.inj hstep)
      exact h
    | some i =>
      simp only [hfd] at hstep
      obtain ⟨-, rfl⟩ := Prod.mk.inj (Except.ok.inj hstep)
      refine h.setFd fun _ => ⟨node, rfl, ?_⟩
      rcases vfsResolvePath_some h.root hl with rfl | ⟨k, rfl, -⟩ <;> rfl

theorem read_sizes (h : SizesCurrent v) {fd : Int} {size : UInt32} {r : Int × List UInt8}
    (hstep : vfsRead v fd size = .ok (r, w)) : SizesCurrent w := by
  cases hu : v.usedFd fd with
  | none =>
    simp only [vfsRead, hu] at hstep
    obtain ⟨-, rfl⟩ := Prod.mk.inj (Except.ok.inj hstep)
    exact h
  | some i =>
    obtain ⟨node, hnode, -⟩ := h.node i (usedFd_some hu)
    simp only [vfsRead, hu, hnode] at hstep
    obtain ⟨⟨r', fs⟩, hread, hstep⟩ := bind_eq_ok.mp hstep
    obtain ⟨-, rfl⟩ := Prod.mk.inj (Except.ok.inj hstep)
    have hfs : SizesCurrent { v with fs } := h.of_each rfl fun j => .inl ⟨rfl, fun k _ => by
      show (fs.data.dirents.get k).size = _
      rw [tinyfsRead_frame hread]⟩
    exact hfs.advance _

/-- A write through the only descriptor updates the one copy of the size there is. -/
theorem write_sizes (h : SizesCurrent v) {fd : Int} {buffer : List UInt8} {r : Int}
    (hs : SizesSafe v (.write fd buffer)) (hstep : vfsWrite v fd buffer = .ok (r, w)) : SizesCurrent w := by
  cases hu : v.usedFd fd with
  | none =>
    simp only [vfsWrite, hu] at hstep
    obtain ⟨-, rfl⟩ := Prod.mk.inj (Except.ok.inj hstep)
    exact h
  | some i =>
    obtain ⟨node, hnode, hcur⟩ := h.node i (usedFd_some hu)
    simp only [vfsWrite, hu, hnode] at hstep
    obtain ⟨⟨r', node', fs⟩, hwrite, hstep⟩ := bind_eq_ok.mp hstep
    obtain ⟨-, rfl⟩ := Prod.mk.inj (Except.ok.inj hstep)
    refine h.of_each rfl fun j => ?_
    rw [setFd_get]
    cases hd : node.dirent with
    | none =>
      obtain ⟨-, rfl, rfl⟩ : -1 = r' ∧ node = node' ∧ v.fs = fs := by simpa [tinyfsWrite, hd] using hwrite
      split
      · exact .inr fun _ => ⟨node, advance_node _ _, hcur⟩
      · exact .inl ⟨rfl, fun _ _ => rfl⟩
    | some k =>
      obtain ⟨hother, hsize⟩ := tinyfsWrite_frame hd hwrite
      have hcur' : node.size = (v.fs.data.dirents.get k).size := by rw [hcur, currentSize, hd]
      split
      · refine .inr fun _ => ⟨node', advance_node _ _, ?_⟩
        show node'.size = currentSize fs.data node'
        rcases hsize with ⟨hself, rfl⟩ | ⟨n, -, -, hself, rfl⟩
        · rw [currentSize, hd, hcur']
          exact hself.symm
        · simp only [currentSize, hd]
          exact hself.symm
      · rename_i hij
        refine .inl ⟨rfl, fun l hl => ?_⟩
        by_cases hlk : l = k
        · subst hlk
          rcases hs i l hu ⟨usedFd_some hu, node, hnode, hd⟩ with hin | honly
          · -- the write ends inside the file
            rcases hsize with ⟨hself, -⟩ | ⟨n, hn, hgrow, -, -⟩
            · exact hself
            · rw [UInt32.lt_iff_toNat_lt, UInt32.toNat_add, UInt32.toNat_ofNat'] at hgrow
              have hlen : (UInt32.ofNat buffer.length).toNat ≤ buffer.length := by
                rw [UInt32.toNat_ofNat']
                exact Nat.mod_le _ _
              have hlt := (v.fs.data.dirents.get l).size.toNat_lt
              omega
          · exact absurd (honly j hl).symm hij
        · exact congrArg Dirent.size (hother l hlk)

/-- **A call** keeps the sizes current. -/
theorem vfsStep_sizes (h : SizesCurrent v) {op : VfsOp} (hs : SizesSafe v op) {r : Int × List UInt8}
    (hstep : vfsStep v op = .ok (r, w)) : SizesCurrent w := by
  have hnum : ∀ {x : Except Fault (Int × VfsState)}, noBytes x = .ok (r, w) → ∃ n, x = .ok (n, w) := by
    rintro x hx
    cases x with
    | error e => cases hx
    | ok out => exact ⟨out.1, congrArg _ (Prod.ext rfl (Prod.mk.inj (Except.ok.inj hx)).2)⟩
  cases op with
  | create mem path =>
    obtain ⟨n, he⟩ := hnum hstep
    exact create_sizes h hs he
  | mkdir mem path =>
    obtain ⟨n, he⟩ := hnum hstep
    exact create_sizes h hs he
  | unlink mem path =>
    obtain ⟨n, he⟩ := hnum hstep
    exact unlink_sizes h hs he
  | openFile mem path =>
    obtain ⟨n, he⟩ := hnum hstep
    exact open_sizes h he
  | close fd =>
    obtain ⟨n, he⟩ := hnum hstep
    cases hu : v.usedFd fd with
    | none =>
      simp only [vfsClose, hu] at he
      obtain ⟨-, rfl⟩ := Prod.mk.inj (Except.ok.inj he)
      exact h
    | some i =>
      simp only [vfsClose, hu] at he
      obtain ⟨-, rfl⟩ := Prod.mk.inj (Except.ok.inj he)
      exact h.setFd fun hf => by cases hf
  | read fd size => exact read_sizes h hstep
  | write fd buffer =>
    obtain ⟨n, he⟩ := hnum hstep
    exact write_sizes h hs he
  | seek fd offset whence =>
    obtain ⟨n, he⟩ := hnum hstep
    obtain ⟨n', v', he', hv'⟩ := vfsSeek_spec h.fds fd offset whence
    obtain ⟨-, rfl⟩ := Prod.mk.inj (Except.ok.inj (he'.symm.trans he))
    rcases hv' with rfl | ⟨i, pos, -, rfl⟩
    · exact h
    · exact h.setFd fun hu => h.node i hu

end Sizes

/-! ## Runs -/

theorem vfsMounted_sizes (fs : Tinyfs) : SizesCurrent (vfsMounted fs) := by
  refine ⟨rfl, fun i hi => ?_⟩
  simp [vfsMounted, closedTable, get_eq] at hi

/-- **Runs.** In every state that a run of safe calls reaches, a seek through any open descriptor is exact precisely
when the sum is a position. -/
theorem seek_run {fs : Tinyfs} {ops : List VfsOp} {rs : List (Int × List UInt8)} {v : VfsState}
    (hops : Along vfsStep SizesSafe (vfsMounted fs) ops) (hrun : runFrom vfsStep (vfsMounted fs) ops = .ok (rs, v))
    (fd offset whence : Int) : SeekExact v fd offset whence ↔ SeekFits v fd offset whence :=
  vfsSeek_exact_iff (runFrom_keeps SizesCurrent (fun _ _ _ _ h hs he => vfsStep_sizes h hs he) (vfsMounted_sizes fs)
    hops hrun).node

/-! ## Two descriptors on one file -/

/-- The state in which descriptors 3 and 4 are the only ones. -/
def openedTwice (fs : Tinyfs) (node other : Node) (position : UInt32) : VfsState :=
  (openedAt fs node position).setFd ⟨4, by decide⟩ ⟨true, some other, 0⟩

@[simp] theorem openedTwice_fs (fs : Tinyfs) (node other : Node) (position : UInt32) :
    (openedTwice fs node other position).fs = fs := rfl

theorem openedTwice_get (fs : Tinyfs) (node other : Node) (position : UInt32) :
    (openedTwice fs node other position).fdTable.get 3 = ⟨true, some node, position⟩ ∧
      (openedTwice fs node other position).fdTable.get 4 = ⟨true, some other, 0⟩ :=
  ⟨(setFd_get _ 4 3 _).trans (openedAt_get _ _ _), (setFd_get _ 4 4 _).trans (if_pos rfl)⟩

theorem openedTwice_setFd (fs fs' : Tinyfs) (node node' other : Node) (position position' : UInt32) :
    VfsState.setFd { openedTwice fs node other position with fs := fs' } 3 ⟨true, some node', position'⟩ =
      openedTwice fs' node' other position' := by
  simp only [openedTwice, openedAt, VfsState.setFd, VfsState.mk.injEq, true_and]
  refine vec_ext fun k => ?_
  simp only [get_setAt]
  by_cases h3 : 3 = k
  · subst h3
    rfl
  · simp only [h3, if_false]

/-- Create `/a`, open it twice, write a byte through the first descriptor. -/
def twiceOps : List VfsOp :=
  [.create (fun _ => true) pathA.val, .openFile (fun _ => true) pathA.val, .openFile (fun _ => true) pathA.val,
    .write 3 [1]]

theorem Fresh.twice {fs : Tinyfs} (h : Fresh fs) : ∃ (i : Fin 256) (node : Node) (fs₁ fs₂ : Tinyfs),
    runFrom vfsStep (vfsMounted fs) twiceOps =
      .ok ([(0, []), (3, []), (4, []), (1, [])], openedTwice fs₂ node (nodeOf fs₁.data i) 1) ∧
    (fs₁.data.dirents.get i).size = 0 ∧ (fs₂.data.dirents.get i).size = 1 := by
  obtain ⟨i, fs₁, hc, hinv, h1, h2⟩ := h.create_open
  have hsize₁ : (fs₁.data.dirents.get i).size = 0 := by
    rw [hc.self]
    rfl
  have hslot : allocateFd (openedAt fs₁ (nodeOf fs₁.data i) 0) = some 4 := by
    refine firstFin_eq_some.mpr ⟨by decide, ?_, fun j h3 hj => ?_⟩
    · rw [openedAt, setFd_get]
      simp [closedTable, get_eq]
    · obtain rfl : j = 3 := Fin.ext (by
        have hj' : j.val < 4 := hj
        have h3' : 3 ≤ j.val := h3
        show j.val = 3
        omega)
      rw [openedAt_get]
      rfl
  have h3 : vfsStep (openedAt fs₁ (nodeOf fs₁.data i) 0) (.openFile (fun _ => true) pathA.val) =
      .ok ((4, []), openedTwice fs₁ (nodeOf fs₁.data i) (nodeOf fs₁.data i) 0) := by
    have hopen : vfsOpen (fun _ => true) (openedAt fs₁ (nodeOf fs₁.data i) 0) pathA.val =
        .ok (4, openedTwice fs₁ (nodeOf fs₁.data i) (nodeOf fs₁.data i) 0) := by
      simp only [vfsOpen, hc.resolve_pathA (v := openedAt fs₁ (nodeOf fs₁.data i) 0) rfl rfl, ok_bind, hslot]
      rfl
    exact congrArg noBytes hopen
  have hfree₁ : freeSet fs₁.data.fat = Finset.Ico 101 1024 := by rw [hc.fat.trans h.fat, freeSet_fresh]
  obtain ⟨new, fs₂, hw, hst⟩ := tinyfsWrite_one hinv hc.reliable hfree₁
    (show (nodeOf fs₁.data i).dirent = some i from rfl) 1 (show (0 : UInt32).toNat < 511 by decide)
  let node := nodeAfter fs₁ i (nodeOf fs₁.data i) 0 1
  have h4 : vfsStep (openedTwice fs₁ (nodeOf fs₁.data i) (nodeOf fs₁.data i) 0) (.write 3 [1]) =
      .ok ((1, []), openedTwice fs₂ node (nodeOf fs₁.data i) 1) := by
    obtain ⟨hget, -⟩ := openedTwice_get fs₁ (nodeOf fs₁.data i) (nodeOf fs₁.data i) 0
    have hwrite : vfsWrite (openedTwice fs₁ (nodeOf fs₁.data i) (nodeOf fs₁.data i) 0) 3 [1] =
        .ok (1, openedTwice fs₂ node (nodeOf fs₁.data i) 1) := by
      have hused : (openedTwice fs₁ (nodeOf fs₁.data i) (nodeOf fs₁.data i) 0).usedFd 3 = some 3 :=
        usedFd_of_used (i := 3) (by rw [hget])
      simp only [vfsWrite, hused, hget, openedTwice_fs, hw]
      exact congrArg (fun v => Except.ok ((1 : Int), v)) (openedTwice_setFd _ _ _ _ _ _ _)
    exact congrArg noBytes hwrite
  refine ⟨i, node, fs₁, fs₂, runFrom_cons h1 (runFrom_cons h2 (runFrom_cons h3 (runFrom_cons h4 runFrom_nil))),
    hsize₁, ?_⟩
  obtain ⟨fb, n, hself, hn⟩ := hst.self
  rw [hself]
  refine UInt32.toNat_inj.mp (hn.trans ?_)
  rw [hsize₁]
  rfl

/-- The size of the file is 1, and a seek to its end through descriptor 4 goes to 0; a seek to -1 through descriptor 3
returns -1 and goes to 2^32 - 1. -/
theorem twiceOps_seek : ∃ fs v, formatAndMount blankData [] blankDisk = some fs ∧
    runFrom vfsStep (vfsMounted fs) twiceOps = .ok ([(0, []), (3, []), (4, []), (1, [])], v) ∧
    ¬ SeekExact v 4 0 2 ∧ ¬ SeekExact v 3 (-1) 0 := by
  obtain ⟨fs, hfs, hfresh, -⟩ := formatAndMount_fresh blankDisk_reliable blankData []
  obtain ⟨i, node, fs₁, fs₂, hrun, hsize₁, hsize₂⟩ := hfresh.twice
  obtain ⟨hget3, hget4⟩ := openedTwice_get fs₂ node (nodeOf fs₁.data i) 1
  refine ⟨fs, _, hfs, hrun, fun hex => ?_, fun hex => ?_⟩
  · have hused : (openedTwice fs₂ node (nodeOf fs₁.data i) 1).usedFd 4 = some 4 :=
      usedFd_of_used (i := 4) (by rw [hget4])
    have hbase : seekBase (openedTwice fs₂ node (nodeOf fs₁.data i) 1) ⟨true, some (nodeOf fs₁.data i), 0⟩ 2 = some 1 := by
      simp [seekBase, currentSize, show (nodeOf fs₁.data i).dirent = some i from rfl, hsize₂]
    obtain ⟨r, v', he, hm⟩ := hex 4 hused
    rw [hget4, hbase] at hm
    obtain ⟨pos, hv', hpos⟩ := hm
    have hseek : vfsSeek (openedTwice fs₂ node (nodeOf fs₁.data i) 1) 4 0 2 =
        .ok (cInt 0, (openedTwice fs₂ node (nodeOf fs₁.data i) 1).setFd 4 ⟨true, some (nodeOf fs₁.data i), 0⟩) := by
      simp only [vfsSeek, hused, hget4, show (nodeOf fs₁.data i).size = 0 from hsize₁]
      rfl
    obtain ⟨-, rfl⟩ := Prod.mk.inj (Except.ok.inj (he.symm.trans hseek))
    have hzero := congrArg (fun w => (w.fdTable.get 4).position) hv'
    simp only [setFd_get, if_true] at hzero
    rw [← hzero] at hpos
    cases hpos
  · have hused : (openedTwice fs₂ node (nodeOf fs₁.data i) 1).usedFd 3 = some 3 :=
      usedFd_of_used (i := 3) (by rw [hget3])
    obtain ⟨r, v', he, -, rfl⟩ := hex 3 hused
    have hseek : vfsSeek (openedTwice fs₂ node (nodeOf fs₁.data i) 1) 3 (-1) 0 =
        .ok (cInt (UInt32.ofInt (-1)), (openedTwice fs₂ node (nodeOf fs₁.data i) 1).setFd 3
          { (openedTwice fs₂ node (nodeOf fs₁.data i) 1).fdTable.get 3 with position := UInt32.ofInt (-1) }) := by
      simp only [vfsSeek, hused]
      rfl
    obtain ⟨-, hsame⟩ := Prod.mk.inj (Except.ok.inj (hseek.symm.trans he))
    rw [setFd_position_eq, hget3] at hsame
    cases hsame

/-- Create and open `/a`, write a byte. -/
def writtenOps : List VfsOp :=
  [.create (fun _ => true) pathA.val, .openFile (fun _ => true) pathA.val, .write 3 [1]]

/-- A seek beyond the end of a file of one byte. -/
theorem seek_run_opened : ∃ fs v, formatAndMount blankData [] blankDisk = some fs ∧
    runFrom vfsStep (vfsMounted fs) writtenOps = .ok ([(0, []), (3, []), (1, [])], v) ∧ SeekFits v 3 7 2 ∧
    SeekExact v 3 7 2 := by
  obtain ⟨fs, hfs, hfresh, -⟩ := formatAndMount_fresh blankDisk_reliable blankData []
  obtain ⟨i, fs₁, hc, hinv, h1, h2⟩ := hfresh.create_open
  have hfree₁ : freeSet fs₁.data.fat = Finset.Ico 101 1024 := by rw [hc.fat.trans hfresh.fat, freeSet_fresh]
  obtain ⟨new, fs₂, hw, hst⟩ := tinyfsWrite_one hinv hc.reliable hfree₁
    (show (nodeOf fs₁.data i).dirent = some i from rfl) 1 (show (0 : UInt32).toNat < 511 by decide)
  have h3 := openedAt_write hw
  have hrun := runFrom_cons h1 (runFrom_cons h2 (runFrom_cons h3 runFrom_nil))
  have hclosed : ∀ j k, ¬ OpenOn (vfsMounted fs) j k := by
    rintro j k ⟨hu, -⟩
    simp [vfsMounted, closedTable, get_eq] at hu
  have hsafe : Along vfsStep SizesSafe (vfsMounted fs) writtenOps :=
    (along_cons_ok h1).mp ⟨fun k _ => .inr fun j => hclosed j k, (along_cons_ok h2).mp ⟨fun k hk => (by cases hk),
      fun j k hj hk => .inr fun l hl => (openedAt_used hl.1).trans (openedAt_used hk.1).symm, fun _ _ _ => trivial⟩⟩
  have hsize : (currentSize fs₂.data (nodeAfter fs₁ i (nodeOf fs₁.data i) 0 1)).toNat = 1 := by
    have hdirent : (nodeAfter fs₁ i (nodeOf fs₁.data i) 0 1).dirent = some i := by
      unfold nodeAfter
      split <;> rfl
    obtain ⟨fb, n, hself, hn⟩ := hst.self
    rw [currentSize, hdirent]
    show (fs₂.data.dirents.get i).size.toNat = 1
    rw [hself]
    exact hn.trans (by rw [hc.self]; rfl)
  have hfits : SeekFits (openedAt fs₂ (nodeAfter fs₁ i (nodeOf fs₁.data i) 0 1) 1) 3 7 2 := by
    intro j hj base hbase
    obtain rfl : 3 = j := Option.some.inj ((openedAt_usedFd _ _ _).symm.trans hj)
    rw [openedAt_get] at hbase
    have hbase' : (currentSize fs₂.data (nodeAfter fs₁ i (nodeOf fs₁.data i) 0 1)).toNat = base :=
      Option.some.inj hbase
    rw [hsize] at hbase'
    exact .inl (by omega)
  exact ⟨fs, _, hfs, hrun, hfits, (seek_run hsafe hrun 3 7 2).mpr hfits⟩

end AmqOs.Vfs
