import AmqOs.Vfs.VfsRun

/-!
# What a file shows of its new blocks

Nothing in the filesystem clears a block: a new block of a file holds what its former owner left there until the file
is written at that place. Two runs of the same calls, from states that differ in the sectors of free blocks only, are
compared here. The tables, the descriptors and the returned values stay the same (`tinyfsWrite_congr`). A byte that is
read is the same when its place is in a block the file had at the start or was written in the run (`Filled`);
`residue_run` says so for whole runs, and `gapOps_residue` shows a byte that differs.
-/

set_option autoImplicit false

namespace AmqOs.Vfs

open AmqOs.Lib

/-! ## The sectors decide nothing -/

section Congr

variable {s t : Tinyfs}

/-- The course of the writing loop does not depend on the sectors. -/
theorem writeLoop_congr (buffer : List UInt8) (size : Nat) {disk disk' : Disk} (hr : disk.Reliable)
    (hr' : disk'.Reliable) (fuel : Nat) (d : TinyfsData) (cur : UInt32) {bo : Nat} (hbo : bo < 512) (w : Nat)
    (bb bb' : Mem) :
    (writeLoop buffer size fuel d disk cur bo w bb).map (fun r => (r.1, r.2.1)) =
      (writeLoop buffer size fuel d disk' cur bo w bb').map fun r => (r.1, r.2.1) := by
  induction fuel generalizing d disk disk' cur bo w bb bb' with
  | zero => rfl
  | succ fuel ih =>
    by_cases hw : w < size
    · obtain ⟨m, -, hstep⟩ := writeLoop_round d buffer fuel cur bb hr hw hbo
      obtain ⟨m', -, hstep'⟩ := writeLoop_round d buffer fuel cur bb' hr' hw hbo
      rw [hstep, hstep']
      by_cases hmore : w + min (512 - bo) (size - w) < size
      · rw [if_pos hmore, if_pos hmore]
        cases hn : nextBlock d cur with
        | error e => simp only [error_bind, Except.map]
        | ok out =>
          obtain ⟨nxt, d₁⟩ := out
          simp only [ok_bind]
          cases nxt with
          | none => simp only [Except.map]
          | some nxt => exact ih (hr.put _ _) (hr'.put _ _) d₁ nxt (by omega) _ _ _
      · rw [if_neg hmore, if_neg hmore]
        exact ih (hr.put _ _) (hr'.put _ _) d cur (by omega) _ _ _
    · simp [writeLoop, hw, Except.map]

/-- **A write** returns the same and leaves the same tables, whatever the sectors hold. -/
theorem tinyfsWrite_congr (hd : t.data = s.data) (hr : s.disk.Reliable) (hr' : t.disk.Reliable) (node : Node)
    (buffer : List UInt8) (offset : UInt32) :
    (tinyfsWrite s node buffer offset).map (fun r => (r.1, r.2.1, r.2.2.data)) =
      (tinyfsWrite t node buffer offset).map fun r => (r.1, r.2.1, r.2.2.data) := by
  unfold tinyfsWrite
  rw [hd]
  cases node.dirent with
  | none => simp [Except.map, hd]
  | some i =>
    simp only
    cases ensureFirstBlock s.data i with
    | error e => rfl
    | ok first =>
      cases first with
      | none => simp [Except.map, hd]
      | some d =>
        simp only [ok_bind]
        cases extendLoop (offset.toNat / 512) d (d.dirents.get i).firstBlock with
        | error e => rfl
        | ok ext =>
          obtain ⟨cur, d₁⟩ := ext
          cases cur with
          | none => rfl
          | some cur =>
            have hloop := writeLoop_congr buffer (UInt32.ofNat buffer.length).toNat hr hr'
              (UInt32.ofNat buffer.length).toNat d₁ cur (Nat.mod_lt offset.toNat (show 512 > 0 by omega)) 0 zeroBuffer
              zeroBuffer
            simp only [ok_bind]
            revert hloop
            generalize writeLoop buffer (UInt32.ofNat buffer.length).toNat (UInt32.ofNat buffer.length).toNat d₁ s.disk
              cur (offset.toNat % 512) 0 zeroBuffer = a
            generalize writeLoop buffer (UInt32.ofNat buffer.length).toNat (UInt32.ofNat buffer.length).toNat d₁ t.disk
              cur (offset.toNat % 512) 0 zeroBuffer = b
            intro hloop
            rcases a with e | ⟨n, d₂, disk₂⟩ <;> rcases b with e' | ⟨n', d₂', disk₂'⟩ <;>
              simp only [Except.map, Except.error.injEq, Except.ok.injEq, Prod.mk.injEq, reduceCtorEq] at hloop
            · rw [hloop]
            · obtain ⟨rfl, rfl⟩ := hloop
              cases n <;> simp only [ok_bind, finishWrite, Except.map]

/-- Creating a node is decided by the tables. -/
theorem tinyfsCreateNode_congr (hd : t.data = s.data) (hp : Placed s.data.sb) (hr : s.disk.Reliable)
    (hr' : t.disk.Reliable) (parent : Node) (name : CString) (type : FileType) :
    (tinyfsCreateNode s parent name type = (-1, s) ∧ tinyfsCreateNode t parent name type = (-1, t)) ∨
      ∃ i s' t', tinyfsCreateNode s parent name type = (0, s') ∧ tinyfsCreateNode t parent name type = (0, t') ∧
        Created s parent name type i s' ∧ Created t parent name type i t' := by
  rcases tinyfsCreateNode_spec hp hr parent name type with ⟨hno, he⟩ | ⟨i, s', he, hc⟩
  · rcases tinyfsCreateNode_spec (hd ▸ hp) hr' parent name type with ⟨-, he'⟩ | ⟨j, t', -, hc'⟩
    · exact .inl ⟨he, he'⟩
    · have hslot := hc'.slot
      have habs := hc'.absent
      rw [hd] at hslot habs
      rcases hno with hno | ⟨k, hk⟩ | hno
      · exact absurd hc'.isDir hno
      · rw [habs k] at hk
        cases hk
      · rw [hslot] at hno
        cases hno
  · rcases tinyfsCreateNode_spec (hd ▸ hp) hr' parent name type with ⟨hno, -⟩ | ⟨j, t', he', hc'⟩
    · rw [hd] at hno
      rcases hno with hno | ⟨k, hk⟩ | hno
      · exact absurd hc.isDir hno
      · rw [hc.absent k] at hk
        cases hk
      · rw [hc.slot] at hno
        cases hno
    · have hslot := hc'.slot
      rw [hd, hc.slot] at hslot
      obtain rfl := Option.some.inj hslot
      exact .inr ⟨i, s', t', he, he', hc, hc'⟩

end Congr

/-! ## Places that hold the same byte -/

/-- Places of files: `f i p` for position `p` of entry `i`. -/
abbrev Filled := Fin 256 → Nat → Bool

/-- The places in the blocks that files have. -/
def ownBlocks (d : TinyfsData) : Filled := fun i p => decide (usedEntry d i ∧ p < 512 * (entryChain d i).length)

/-- The entry and the position of a descriptor. -/
def VfsState.target (v : VfsState) (fd : Int) : Option (Fin 256 × Nat) := do
  let i ← v.usedFd fd
  let node ← (v.fdTable.get i).node
  let k ← node.dirent
  some (k, (v.fdTable.get i).position.toNat)

/-- The places after a call that returned `r`: a write adds those it wrote. -/
def mark (f : Filled) (v : VfsState) : VfsOp → Int → Filled
  | .write fd _, r =>
    match v.target fd with
    | none => f
    | some (k, pos) => fun j p => f j p || (j == k && decide (pos ≤ p) && decide (p < pos + r.toNat))
  | _, _ => f

/-- The bytes a call returned, those at other places left out. -/
def shown (f : Filled) (v : VfsState) : VfsOp → List UInt8 → List (Option UInt8)
  | .read fd _, bytes =>
    match v.target fd with
    | none => bytes.map some
    | some (k, pos) => bytes.mapIdx fun q b => if f k (pos + q) then some b else none
  | _, bytes => bytes.map some

/-- A call, with what it shows at the places `f`. -/
def shownStep (x : VfsState × Filled) (op : VfsOp) :
    Except Fault ((Int × List (Option UInt8)) × (VfsState × Filled)) :=
  (vfsStep x.1 op).map fun out =>
    ((out.1.1, shown x.2 x.1 op out.1.2), (out.2, mark x.2 x.1 op out.1.1))

/-- A descriptor is of a used entry or of the root. -/
def FdsUsed (v : VfsState) : Prop :=
  ∀ i node k, (v.fdTable.get i).node = some node → node.dirent = some k → usedEntry v.fs.data k

/-- Two states with the same tables, whose files hold the same bytes at the places `f`. -/
structure Agree (f : Filled) (ch : Fin 256 → List Nat) (v w : VfsState) : Prop where
  data : w.fs.data = v.fs.data
  fdTable : w.fdTable = v.fdTable
  root : v.rootNode = some rootNode
  root' : w.rootNode = some rootNode
  reliable : v.fs.disk.Reliable
  reliable' : w.fs.disk.Reliable
  inv : Inv v.fs.data (usedEntry v.fs.data) ch
  fds : FdsUsed v
  within : ∀ i p, f i p = true → usedEntry v.fs.data i ∧ p < 512 * (ch i).length
  bytes : ∀ i p, f i p = true → byteAt w.fs.disk (ch i) p = byteAt v.fs.disk (ch i) p

def Twins (f : Filled) (v w : VfsState) : Prop := ∃ ch, Agree f ch v w

/-- The same fault, or the same value and states with `R`. -/
def Lockstep (R : VfsState → VfsState → Prop) (a b : Except Fault (Int × VfsState)) : Prop :=
  (∃ e, a = .error e ∧ b = .error e) ∨ ∃ r v w, a = .ok (r, v) ∧ b = .ok (r, w) ∧ R v w

section Steps

variable {f : Filled} {ch : Fin 256 → List Nat} {v w : VfsState}

theorem Agree.usedFd (h : Agree f ch v w) (fd : Int) : w.usedFd fd = v.usedFd fd := by
  unfold VfsState.usedFd
  rw [h.fdTable]

theorem Agree.get (h : Agree f ch v w) (i : Fin 256) : w.fdTable.get i = v.fdTable.get i := by rw [h.fdTable]

theorem Agree.target (h : Agree f ch v w) (fd : Int) : w.target fd = v.target fd := by
  unfold VfsState.target
  rw [h.usedFd, h.fdTable]

/-- A descriptor is replaced in both. -/
theorem Agree.setFd (h : Agree f ch v w) (i : Fin 256) {g : FileDescriptor}
    (hg : ∀ node k, g.node = some node → node.dirent = some k → usedEntry v.fs.data k) :
    Agree f ch (v.setFd i g) (w.setFd i g) where
  data := h.data
  fdTable := by simp only [VfsState.setFd, h.fdTable]
  root := h.root
  root' := h.root'
  reliable := h.reliable
  reliable' := h.reliable'
  inv := h.inv
  fds := by
    intro j node k hj hk
    rw [setFd_get] at hj
    split at hj
    · exact hg node k hj hk
    · exact h.fds j node k hj hk
  within := h.within
  bytes := h.bytes

/-- An entry is set up in both. -/
theorem Agree.created (h : Agree f ch v w) {parent : Node} {name : CString} {type : FileType} {i : Fin 256}
    {s' t' : Tinyfs} (hs : Created v.fs parent name type i s') (ht : Created w.fs parent name type i t') :
    Agree f (Function.update ch i []) { v with fs := s' } { w with fs := t' } := by
  have hi : ¬ usedEntry v.fs.data i := by
    obtain ⟨-, h0, -⟩ := findFreeDirent_some hs.slot
    simpa [usedEntry] using h0
  have hne : ∀ j p, f j p = true → j ≠ i := by
    rintro j p hj rfl
    exact hi (h.within j p hj).1
  refine ⟨?_, h.fdTable, h.root, h.root', hs.reliable, ht.reliable, ?_, ?_, ?_, ?_⟩
  · show t'.data = s'.data
    rw [ht.data, hs.data, h.data]
  · exact hs.inv h.inv fun j hj hu => ((hs.used_iff j).mp hu).resolve_left hj
  · intro j node k hj hk
    exact (hs.used_iff k).mpr (.inr (h.fds j node k hj hk))
  · intro j p hj
    obtain ⟨hu, hp⟩ := h.within j p hj
    refine ⟨(hs.used_iff j).mpr (.inr hu), ?_⟩
    rw [Function.update_of_ne (hne j p hj)]
    exact hp
  · intro j p hj
    have hu := (h.within j p hj).1
    have hch : ∀ b ∈ ch j, 101 ≤ b := fun b hb => (h.inv.range hu hb).1
    rw [Function.update_of_ne (hne j p hj)]
    calc byteAt t'.disk (ch j) p = byteAt w.fs.disk (ch j) p :=
          byteAt_congr fun b hb => ht.outside b (.inr (hch b hb))
      _ = byteAt v.fs.disk (ch j) p := h.bytes j p hj
      _ = byteAt s'.disk (ch j) p := (byteAt_congr fun b hb => hs.outside b (.inr (hch b hb))).symm

theorem create_twins (h : Agree f ch v w) (type : FileType) (mem : Nat → Bool) (path : CString) :
    Lockstep (Twins f) (vfsCreateNode type mem v path) (vfsCreateNode type mem w path) := by
  unfold vfsCreateNode
  cases splitPath path with
  | error e => exact .inl ⟨e, rfl, rfl⟩
  | ok parts =>
    cases parts with
    | none => exact .inr ⟨-1, v, w, rfl, rfl, ch, h⟩
    | some parts =>
      obtain ⟨parentPath, name⟩ := parts
      simp only [ok_bind, vfsResolvePath_dirents (h.root'.trans h.root.symm) (congrArg TinyfsData.dirents h.data)]
      cases vfsResolvePath mem v parentPath with
      | error e => exact .inl ⟨e, rfl, rfl⟩
      | ok found =>
        cases found with
        | none => exact .inr ⟨-1, v, w, rfl, rfl, ch, h⟩
        | some parent =>
          simp only [ok_bind]
          by_cases hd : parent.type ≠ .directory
          · rw [if_pos hd, if_pos hd]
            exact .inr ⟨-1, v, w, rfl, rfl, ch, h⟩
          · rw [if_neg hd, if_neg hd]
            rcases tinyfsCreateNode_congr h.data h.inv.layout.toPlaced h.reliable h.reliable' parent name type with
              ⟨he, he'⟩ | ⟨i, s', t', he, he', hs, ht⟩
            · rw [he, he']
              exact .inr ⟨-1, v, w, rfl, rfl, ch, h⟩
            · rw [he, he']
              exact .inr ⟨0, _, _, rfl, rfl, _, h.created hs ht⟩

/-- A path leads to the root or to a used entry. -/
theorem vfsResolvePath_used (hv : v.rootNode = some rootNode) {mem : Nat → Bool} {path : CString} {node : Node}
    (h : vfsResolvePath mem v path = .ok (some node)) {k : Fin 256} (hk : node.dirent = some k) :
    usedEntry v.fs.data k := by
  rcases vfsResolvePath_some hv h with rfl | ⟨i, rfl, hu⟩
  · cases hk
  · exact Option.some.inj hk ▸ hu

theorem open_twins (h : Agree f ch v w) (mem : Nat → Bool) (path : CString) :
    Lockstep (Twins f) (vfsOpen mem v path) (vfsOpen mem w path) := by
  unfold vfsOpen allocateFd
  rw [vfsResolvePath_dirents (h.root'.trans h.root.symm) (congrArg TinyfsData.dirents h.data), h.fdTable]
  cases hres : vfsResolvePath mem v path with
  | error e => exact .inl ⟨e, rfl, rfl⟩
  | ok found =>
    cases found with
    | none => exact .inr ⟨-1, v, w, rfl, rfl, ch, h⟩
    | some node =>
      simp only [ok_bind]
      cases firstFin 3 fun i => !(v.fdTable.get i).used with
      | none => exact .inr ⟨-1, v, w, rfl, rfl, ch, h⟩
      | some fd =>
        refine .inr ⟨_, _, _, rfl, rfl, ch, h.setFd fd ?_⟩
        intro node' k hn hk
        obtain rfl := Option.some.inj hn
        exact vfsResolvePath_used h.root hres hk

theorem close_twins (h : Agree f ch v w) (fd : Int) :
    Lockstep (Twins f) (.ok (vfsClose v fd)) (.ok (vfsClose w fd)) := by
  unfold vfsClose
  rw [h.usedFd]
  cases v.usedFd fd with
  | none => exact .inr ⟨-1, v, w, rfl, rfl, ch, h⟩
  | some i =>
    refine .inr ⟨0, _, _, rfl, rfl, ch, h.setFd i ?_⟩
    intro node k hn
    cases hn

theorem seek_twins (h : Agree f ch v w) (fd offset whence : Int) :
    Lockstep (Twins f) (vfsSeek v fd offset whence) (vfsSeek w fd offset whence) := by
  have hset : ∀ i pos, Twins f (v.setFd i { v.fdTable.get i with position := pos })
      (w.setFd i { v.fdTable.get i with position := pos }) := fun i pos => ⟨ch, h.setFd i (h.fds i)⟩
  unfold vfsSeek
  rw [h.usedFd]
  cases v.usedFd fd with
  | none => exact .inr ⟨-1, v, w, rfl, rfl, ch, h⟩
  | some i =>
    simp only [h.fdTable]
    by_cases h0 : whence = 0
    · simp only [h0, if_true, ok_bind]
      exact .inr ⟨_, _, _, rfl, rfl, hset i _⟩
    · by_cases h1 : whence = 1
      · simp only [h1, if_true, ok_bind]
        exact .inr ⟨_, _, _, rfl, rfl, hset i _⟩
      · by_cases h2 : whence = 2
        · simp only [h2, if_true]
          cases hn : (v.fdTable.get i).node with
          | none => exact .inl ⟨_, rfl, rfl⟩
          | some node =>
            refine .inr ⟨_, _, _, rfl, rfl, ?_⟩
            rw [← hn]
            exact hset i _
        · simp only [h0, h1, h2, if_false, ok_bind]
          exact .inr ⟨-1, v, w, rfl, rfl, ch, h⟩

/-! ## Writing -/

/-- What a write through entry `i` that returned `r` has done, with or without a full disk. -/
structure Put (s : Tinyfs) (ch : Fin 256 → List Nat) (i : Fin 256) (buffer : List UInt8) (offset : UInt32)
    (new : List Nat) (r : Int) (s' : Tinyfs) : Prop where
  inv : Inv s'.data (usedEntry s.data) (Function.update ch i (ch i ++ new))
  used : ∀ j, usedEntry s'.data j ↔ usedEntry s.data j
  fresh : ∀ b ∈ new, b ∈ freeSet s.data.fat
  fits : 0 < r → offset.toNat + r.toNat ≤ 512 * (ch i ++ new).length
  reliable : s'.disk.Reliable
  outside : ∀ l, 101 ≤ l → l ∉ ch i ++ new → s'.disk.sectors l = s.disk.sectors l
  bytes : ∀ p, byteAt s'.disk (ch i ++ new) p =
    if offset.toNat ≤ p ∧ p < offset.toNat + r.toNat then buffer.getD (p - offset.toNat) 0
    else byteAt s.disk (ch i ++ new) p

theorem tinyfsWrite_put {s : Tinyfs} {i : Fin 256} (h : Inv s.data (usedEntry s.data) ch) (hu : usedEntry s.data i)
    (hr : s.disk.Reliable) {node : Node} (hn : node.dirent = some i) (buffer : List UInt8) (offset : UInt32) :
    ∃ new r node' s', tinyfsWrite s node buffer offset = .ok (r, node', s') ∧ node'.dirent = some i ∧
      Put s ch i buffer offset new r s' := by
  rcases tinyfsWrite_spec h hu hr hn buffer offset with ⟨-, -, he⟩ | ⟨new, d', hg, -, -, -, he⟩ | ⟨new, n, s', he, hst⟩
  · refine ⟨[], -1, node, s, he, hn, by simpa using h, fun _ => Iff.rfl, by simp, by simp, hr, fun _ _ _ => rfl, ?_⟩
    intro p
    rw [if_neg (by omega)]
  · refine ⟨new, 0, node, _, he, hn, hg.inv, fun j => ?_, hg.fresh, by simp, hr, fun _ _ _ => rfl, ?_⟩
    · by_cases hj : j = i
      · obtain ⟨fb, hself⟩ := hg.self
        simp [hj, usedEntry, hself]
      · simp [usedEntry, hg.other j hj]
    · intro p
      rw [if_neg (by omega)]
  · have hlen : (ch i ++ new).length ≤ 923 := by simpa using hst.inv.length_le hu
    have hfits := hst.fits
    have hcast : (cInt (UInt32.ofNat n)).toNat = n := by
      rw [cInt_ofNat (by omega)]
      rfl
    refine ⟨new, _, _, s', he, ?_, hst.inv, fun j => ?_, hst.fresh, fun _ => ?_, hst.reliable, hst.outside, ?_⟩
    · unfold nodeAfter
      split <;> exact hn
    · by_cases hj : j = i
      · obtain ⟨fb, m, hself, -⟩ := hst.self
        simp [hj, usedEntry, hself]
      · simp [usedEntry, hst.other j hj]
    · rw [hcast]
      exact hfits
    · rw [hcast]
      exact hst.bytes

/-- The same write in both. The bytes written are the buffer's, the other places keep what they held. -/
theorem Agree.put (h : Agree f ch v w) {i : Fin 256} (hu : usedEntry v.fs.data i) {buffer : List UInt8}
    {offset : UInt32} {new : List Nat} {r : Int} {s' t' : Tinyfs} (hdata : t'.data = s'.data)
    (hs : Put v.fs ch i buffer offset new r s') (ht : Put w.fs ch i buffer offset new r t') :
    Agree (fun j p => f j p || (j == i && decide (offset.toNat ≤ p) && decide (p < offset.toNat + r.toNat)))
      (Function.update ch i (ch i ++ new)) { v with fs := s' } { w with fs := t' } := by
  refine ⟨hdata, h.fdTable, h.root, h.root', hs.reliable, ht.reliable, hs.inv.mono fun j hj => (hs.used j).mp hj,
    fun j node k hj hk => (hs.used k).mpr (h.fds j node k hj hk), ?_, ?_⟩
  · intro j p hj
    simp only [Bool.or_eq_true, Bool.and_eq_true, beq_iff_eq, decide_eq_true_eq] at hj
    rcases hj with hj | ⟨⟨rfl, h1⟩, h2⟩
    · obtain ⟨huj, hp⟩ := h.within j p hj
      refine ⟨(hs.used j).mpr huj, ?_⟩
      by_cases hji : j = i
      · subst hji
        rw [Function.update_self, List.length_append]
        omega
      · rw [Function.update_of_ne hji]
        exact hp
    · refine ⟨(hs.used j).mpr hu, ?_⟩
      have hfits := hs.fits (by omega)
      rw [Function.update_self]
      omega
  · intro j p hj
    simp only [Bool.or_eq_true, Bool.and_eq_true, beq_iff_eq, decide_eq_true_eq] at hj
    by_cases hji : j = i
    · subst hji
      rw [Function.update_self]
      show byteAt t'.disk (ch j ++ new) p = byteAt s'.disk (ch j ++ new) p
      rw [ht.bytes, hs.bytes]
      split
      · rfl
      · have hj' := hj.resolve_right fun e => by omega
        rw [byteAt_append (h.within j p hj').2, byteAt_append (h.within j p hj').2]
        exact h.bytes j p hj'
    · have hj' := hj.resolve_right fun e => hji e.1.1
      have huj := (h.within j p hj').1
      have hout : ∀ b ∈ ch j, 101 ≤ b ∧ b ∉ ch i ++ new := by
        intro b hb
        refine ⟨(h.inv.range huj hb).1, fun hm => ?_⟩
        rcases List.mem_append.mp hm with hm | hm
        · exact h.inv.chains.disjoint i j hu huj (Ne.symm hji) hm hb
        · exact h.inv.not_free huj hb (hs.fresh b hm)
      rw [Function.update_of_ne hji]
      calc byteAt t'.disk (ch j) p = byteAt w.fs.disk (ch j) p :=
            byteAt_congr fun b hb => ht.outside b (hout b hb).1 (hout b hb).2
        _ = byteAt v.fs.disk (ch j) p := h.bytes j p hj'
        _ = byteAt s'.disk (ch j) p :=
            (byteAt_congr fun b hb => hs.outside b (hout b hb).1 (hout b hb).2).symm

theorem write_twins (h : Agree f ch v w) (fd : Int) (buffer : List UInt8) :
    ∃ r v' w', vfsWrite v fd buffer = .ok (r, v') ∧ vfsWrite w fd buffer = .ok (r, w') ∧
      Twins (mark f v (.write fd buffer) r) v' w' := by
  cases hu : v.usedFd fd with
  | none =>
    refine ⟨-1, v, w, by simp [vfsWrite, hu], by simp [vfsWrite, h.usedFd, hu], ch, ?_⟩
    simpa [mark, VfsState.target, hu] using h
  | some i =>
    cases hn : (v.fdTable.get i).node with
    | none =>
      refine ⟨-1, v, w, by simp [vfsWrite, hu, hn], by simp [vfsWrite, h.usedFd, hu, h.get, hn], ch, ?_⟩
      simpa [mark, VfsState.target, hu, hn] using h
    | some node =>
      cases hk : node.dirent with
      | none =>
        have hw : ∀ s, tinyfsWrite s node buffer (v.fdTable.get i).position = .ok (-1, node, s) := fun s => by
          simp [tinyfsWrite, hk]
        refine ⟨-1, _, _, by simp only [vfsWrite, hu, hn, hw, ok_bind]; rfl,
          by simp only [vfsWrite, h.usedFd, hu, h.get, hn, hw, ok_bind]; rfl, ch, ?_⟩
        have hmark : mark f v (.write fd buffer) (-1) = f := by simp [mark, VfsState.target, hu, hn, hk]
        rw [hmark]
        refine h.setFd i fun node' k hn' hk' => h.fds i node' k ?_ hk'
        rw [advance_node] at hn'
        exact hn.trans hn'
      | some k =>
        have huk := h.fds i node k hn hk
        have hinv' : Inv w.fs.data (usedEntry w.fs.data) ch := h.data ▸ h.inv
        obtain ⟨new, r, node', s', he, hk', hs⟩ := tinyfsWrite_put h.inv huk h.reliable hk buffer
          (v.fdTable.get i).position
        obtain ⟨new', r', node'', t', he', -, ht⟩ := tinyfsWrite_put hinv' (h.data ▸ huk) h.reliable' hk buffer
          (v.fdTable.get i).position
        have hcongr := tinyfsWrite_congr h.data h.reliable h.reliable' node buffer (v.fdTable.get i).position
        rw [he, he'] at hcongr
        simp only [Except.map, Except.ok.injEq, Prod.mk.injEq] at hcongr
        obtain ⟨rfl, rfl, hdata⟩ := hcongr
        -- the tables are the same, so the chain got the same blocks
        obtain rfl : new = new' := by
          have h1 := hs.inv.entryChain_eq huk
          have h2 := ht.inv.entryChain_eq (h.data ▸ huk : usedEntry w.fs.data k)
          rw [← hdata, h1, Function.update_self, Function.update_self] at h2
          exact List.append_cancel_left h2
        have hput := h.put huk hdata.symm hs ht
        refine ⟨r, _, _, by simp only [vfsWrite, hu, hn, he, ok_bind]; rfl,
          by simp only [vfsWrite, h.usedFd, hu, h.get, hn, he', ok_bind]; rfl, Function.update ch k (ch k ++ new), ?_⟩
        have hmark : mark f v (.write fd buffer) r = fun j p => f j p || (j == k &&
            decide ((v.fdTable.get i).position.toNat ≤ p) &&
            decide (p < (v.fdTable.get i).position.toNat + r.toNat)) := by
          simp [mark, VfsState.target, hu, hn, hk]
        rw [hmark]
        refine hput.setFd i fun node'' k' hn'' hk'' => ?_
        rw [advance_node] at hn''
        obtain rfl := Option.some.inj hn''
        obtain rfl := Option.some.inj (hk'.symm.trans hk'')
        exact (hs.used k).mpr huk

/-- A read shows the same at the places `f`. -/
theorem read_twins (h : Agree f ch v w) (fd : Int) (size : UInt32) :
    ∃ r bytes bytes' v' w', vfsRead v fd size = .ok ((r, bytes), v') ∧ vfsRead w fd size = .ok ((r, bytes'), w') ∧
      shown f v (.read fd size) bytes = shown f v (.read fd size) bytes' ∧ Twins f v' w' := by
  cases hu : v.usedFd fd with
  | none =>
    exact ⟨-1, [], [], v, w, by simp [vfsRead, hu], by simp [vfsRead, h.usedFd, hu], rfl, ch, h⟩
  | some i =>
    cases hn : (v.fdTable.get i).node with
    | none =>
      exact ⟨-1, [], [], v, w, by simp [vfsRead, hu, hn], by simp [vfsRead, h.usedFd, hu, h.get, hn], rfl, ch, h⟩
    | some node =>
      have hset : ∀ r, Twins f (v.setFd i ((v.fdTable.get i).advance r)) (w.setFd i ((v.fdTable.get i).advance r)) :=
        fun r => ⟨ch, h.setFd i fun node' k hn' hk' => h.fds i node' k (by rw [← hn', advance_node]) hk'⟩
      -- the two reads answer with the same number of bytes
      suffices hread : ∃ r bytes bytes', tinyfsRead v.fs node size (v.fdTable.get i).position = .ok ((r, bytes), v.fs) ∧
          tinyfsRead w.fs node size (v.fdTable.get i).position = .ok ((r, bytes'), w.fs) ∧
          shown f v (.read fd size) bytes = shown f v (.read fd size) bytes' by
        obtain ⟨r, bytes, bytes', he, he', hshown⟩ := hread
        exact ⟨r, bytes, bytes', _, _, by simp only [vfsRead, hu, hn, he, ok_bind],
          by simp only [vfsRead, h.usedFd, hu, h.get, hn, he', ok_bind], hshown, hset r⟩
      cases hk : node.dirent with
      | none => exact ⟨0, [], [], by simp [tinyfsRead, hk], by simp [tinyfsRead, hk], rfl⟩
      | some k =>
        have huk := h.fds i node k hn hk
        by_cases hoff : (v.fdTable.get i).position < (v.fs.data.dirents.get k).size
        · have hinv' : Inv w.fs.data (usedEntry w.fs.data) ch := h.data ▸ h.inv
          have he := tinyfsRead_spec h.inv huk h.reliable hk size (v.fdTable.get i).position hoff
          have he' := tinyfsRead_spec hinv' (h.data ▸ huk) h.reliable' hk size (v.fdTable.get i).position
            (h.data ▸ hoff)
          simp only [h.data] at he'
          refine ⟨_, _, _, he, he', ?_⟩
          simp only [shown, VfsState.target, hu, hn, hk, Option.bind_eq_bind, Option.bind_some]
          refine List.ext_getElem (by simp) fun q h1 h2 => ?_
          simp only [List.getElem_mapIdx, List.getElem_map, List.getElem_range]
          split
          · rename_i hf
            rw [h.bytes k _ hf]
          · rfl
        · have hle : (v.fs.data.dirents.get k).size ≤ (v.fdTable.get i).position := UInt32.not_lt.mp hoff
          exact ⟨0, [], [], tinyfsRead_past hk size hle, tinyfsRead_past hk size (h.data ▸ hle), rfl⟩

/-! ## Runs -/

def VfsOp.removes : VfsOp → Bool
  | .unlink _ _ => true
  | _ => false

/-- **A call** that removes nothing shows the same in both. -/
theorem shownStep_twins (h : Twins f v w) {op : VfsOp} (hop : op.removes = false) :
    (∃ e, shownStep (v, f) op = .error e ∧ shownStep (w, f) op = .error e) ∨
      ∃ r v' w' f', shownStep (v, f) op = .ok (r, (v', f')) ∧ shownStep (w, f) op = .ok (r, (w', f')) ∧
        Twins f' v' w' := by
  obtain ⟨ch, h⟩ := h
  have hnum : ∀ {a b : Except Fault (Int × VfsState)}, vfsStep v op = noBytes a → vfsStep w op = noBytes b →
      (∀ (u : VfsState) r, mark f u op r = f) → (∀ u : VfsState, shown f u op [] = []) → Lockstep (Twins f) a b →
      (∃ e, shownStep (v, f) op = .error e ∧ shownStep (w, f) op = .error e) ∨
        ∃ r v' w' f', shownStep (v, f) op = .ok (r, (v', f')) ∧ shownStep (w, f) op = .ok (r, (w', f')) ∧
          Twins f' v' w' := by
    intro a b ha hb hm hsh hl
    rcases hl with ⟨e, rfl, rfl⟩ | ⟨r, v', w', rfl, rfl, ht⟩
    · exact .inl ⟨e, by simp [shownStep, ha, noBytes, Except.map], by simp [shownStep, hb, noBytes, Except.map]⟩
    · exact .inr ⟨(r, []), v', w', f, by simp [shownStep, ha, noBytes, Except.map, hm, hsh],
        by simp [shownStep, hb, noBytes, Except.map, hm, hsh], ht⟩
  cases op with
  | create mem path => exact hnum rfl rfl (fun _ _ => rfl) (fun _ => rfl) (create_twins h .regular mem path)
  | mkdir mem path => exact hnum rfl rfl (fun _ _ => rfl) (fun _ => rfl) (create_twins h .directory mem path)
  | unlink mem path => cases hop
  | openFile mem path => exact hnum rfl rfl (fun _ _ => rfl) (fun _ => rfl) (open_twins h mem path)
  | close fd => exact hnum rfl rfl (fun _ _ => rfl) (fun _ => rfl) (close_twins h fd)
  | seek fd offset whence => exact hnum rfl rfl (fun _ _ => rfl) (fun _ => rfl) (seek_twins h fd offset whence)
  | read fd size =>
    obtain ⟨r, bytes, bytes', v', w', he, he', hshown, ht⟩ := read_twins h fd size
    have hw : ∀ l, shown f w (.read fd size) l = shown f v (.read fd size) l := fun l => by simp only [shown, h.target]
    refine .inr ⟨(r, shown f v (.read fd size) bytes), v', w', f, ?_, ?_, ht⟩
    · simp [shownStep, vfsStep, he, Except.map, mark]
    · simp [shownStep, vfsStep, he', Except.map, mark, hw, hshown]
  | write fd buffer =>
    obtain ⟨r, v', w', he, he', ht⟩ := write_twins h fd buffer
    have hw : mark f w (.write fd buffer) r = mark f v (.write fd buffer) r := by simp only [mark, h.target]
    refine .inr ⟨(r, []), v', w', mark f v (.write fd buffer) r, ?_, ?_, ht⟩
    · simp [shownStep, vfsStep, he, noBytes, Except.map, shown]
    · simp [shownStep, vfsStep, he', noBytes, Except.map, shown, hw]

/-- Two mounted filesystems that differ in the sectors of free blocks only. -/
structure SameButFree (v w : VfsState) : Prop where
  data : w.fs.data = v.fs.data
  fdTable : w.fdTable = v.fdTable
  root : v.rootNode = some rootNode
  root' : w.rootNode = some rootNode
  reliable : v.fs.disk.Reliable
  reliable' : w.fs.disk.Reliable
  wellFormed : WellFormed v.fs.data
  fds : FdsUsed v
  sectors : ∀ l, l ∉ freeSet v.fs.data.fat → w.fs.disk.sectors l = v.fs.disk.sectors l

theorem SameButFree.twins (h : SameButFree v w) : Twins (ownBlocks v.fs.data) v w := by
  obtain ⟨ch, hinv⟩ := h.wellFormed
  have hown : ∀ i p, ownBlocks v.fs.data i p = true → usedEntry v.fs.data i ∧ p < 512 * (ch i).length := by
    intro i p hp
    obtain ⟨hu, hlt⟩ := of_decide_eq_true hp
    rw [hinv.entryChain_eq hu] at hlt
    exact ⟨hu, hlt⟩
  refine ⟨ch, h.data, h.fdTable, h.root, h.root', h.reliable, h.reliable', hinv, h.fds, hown, ?_⟩
  intro i p hp
  exact byteAt_congr fun b hb => h.sectors b (hinv.not_free (hown i p hp).1 hb)

/-- **What two runs show.** From states that differ in the sectors of free blocks only, the same calls, none of them
an unlink, return the same values, and the same bytes wherever a byte is in a block that its file had at the start or
at a place written in the run. -/
theorem residue_run (h : SameButFree v w) {ops : List VfsOp} (hops : ∀ op ∈ ops, op.removes = false) :
    (runFrom shownStep (v, ownBlocks v.fs.data) ops).map Prod.fst =
      (runFrom shownStep (w, ownBlocks v.fs.data) ops).map Prod.fst := by
  refine runFrom_agree (C := fun op => op.removes = false) (fun x y => x.2 = y.2 ∧ Twins x.2 x.1 y.1) ?_
    ⟨rfl, h.twins⟩ hops
  rintro ⟨v₁, f₁⟩ ⟨w₁, f₂⟩ op ⟨hf, ht⟩ hop
  obtain rfl : f₁ = f₂ := hf
  rcases shownStep_twins ht hop with he | ⟨r, v', w', f', he, he', ht'⟩
  · exact .inl he
  · exact .inr ⟨r, (v', f'), (w', f'), he, he', rfl, ht'⟩

end Steps

/-! ## A byte of a former owner -/

/-- The filesystem with `x` all over its free blocks. -/
def withResidue (x : UInt8) (fs : Tinyfs) : Tinyfs :=
  let sectors := fun l => if l ∈ freeSet fs.data.fat then Vector.replicate 512 x else fs.disk.sectors l
  { fs with disk := { fs.disk with sectors } }

theorem Fresh.withResidue {fs : Tinyfs} (h : Fresh fs) (x : UInt8) : Fresh (withResidue x fs) :=
  ⟨h.sb, h.fat, h.dirents, h.reliable, h.onDisk.congr fun l hl => if_neg fun hm => by
    obtain ⟨h1, -⟩ := mem_freeSet.mp hm
    omega⟩

theorem withResidue_sameButFree {fs : Tinyfs} (h : Fresh fs) (x y : UInt8) :
    SameButFree (vfsMounted (withResidue x fs)) (vfsMounted (withResidue y fs)) := by
  refine ⟨rfl, rfl, rfl, rfl, h.reliable, h.reliable, ⟨_, h.inv _⟩, ?_, fun l hl => ?_⟩
  · intro i node k hn
    simp [vfsMounted, closedTable, get_eq] at hn
  · exact (if_neg hl).trans (if_neg hl).symm

/-- Create and open `/a`, write a byte at position 10, read the byte at position 0. -/
def gapOps : List VfsOp :=
  [.create (fun _ => true) pathA.val, .openFile (fun _ => true) pathA.val, .seek 3 10 0, .write 3 [1], .seek 3 0 0,
    .read 3 1]

theorem openedAt_seek (fs : Tinyfs) (node : Node) (position : UInt32) (offset : Int) :
    vfsStep (openedAt fs node position) (.seek 3 offset 0) =
      .ok ((cInt (UInt32.ofInt offset), []), openedAt fs node (UInt32.ofInt offset)) := by
  have hseek : vfsSeek (openedAt fs node position) 3 offset 0 =
      .ok (cInt (UInt32.ofInt offset), openedAt fs node (UInt32.ofInt offset)) := by
    simp only [vfsSeek, openedAt_usedFd, openedAt_get, if_true, ok_bind]
    exact congrArg (fun v => Except.ok (cInt (UInt32.ofInt offset), v)) (openedAt_setFd _ _ _ _ _ _)
  exact congrArg noBytes hseek

/-- The byte read is what the block held. -/
theorem gapOps_run {fs : Tinyfs} (h : Fresh fs) (x : UInt8) :
    ∃ v, runFrom vfsStep (vfsMounted (withResidue x fs)) gapOps =
      .ok ([(0, []), (3, []), (10, []), (1, []), (0, []), (1, [x])], v) := by
  have hx := h.withResidue x
  obtain ⟨i, fs₁, hc₁, hinv₁, h1, h2⟩ := hx.create_open
  have hfree₁ : freeSet fs₁.data.fat = Finset.Ico 101 1024 := by rw [hc₁.fat.trans hx.fat, freeSet_fresh]
  obtain ⟨new, fs₂, hw, hst⟩ := tinyfsWrite_one hinv₁ hc₁.reliable hfree₁
    (show (nodeOf fs₁.data i).dirent = some i from rfl) 1 (show (10 : UInt32).toNat < 511 by decide)
  let node := nodeAfter fs₁ i (nodeOf fs₁.data i) 10 1
  have hnode : node.dirent = some i := by
    show (nodeAfter fs₁ i (nodeOf fs₁.data i) 10 1).dirent = some i
    unfold nodeAfter
    split <;> rfl
  have h4 : vfsStep (openedAt fs₁ (nodeOf fs₁.data i) 10) (.write 3 [1]) = .ok ((1, []), openedAt fs₂ node 11) :=
    openedAt_write hw
  -- the first block of the file is one of the free ones, and position 0 was not written
  obtain ⟨b, rest, hnew⟩ : ∃ b rest, new = b :: rest := by
    have hreach := hst.reach
    cases new with
    | nil => simp at hreach
    | cons b rest => exact ⟨b, rest, rfl⟩
  have hb : b ∈ Finset.Ico 101 1024 := hfree₁ ▸ hst.fresh b (by simp [hnew])
  have hsector : fs₁.disk.sectors b = Vector.replicate 512 x := by
    rw [hc₁.outside b (.inr (Finset.mem_Ico.mp hb).1)]
    refine if_pos ?_
    rw [h.fat, freeSet_fresh]
    exact hb
  have hbyte : byteAt fs₂.disk ([] ++ new) 0 = x := by
    rw [hst.bytes 0, if_neg (by decide), byteAt_eq (show ([] ++ new)[0 / 512]? = some b by simp [hnew]), hsector,
      ofSector_apply (by decide)]
    simp
  obtain ⟨fb, n, hself, hn⟩ := hst.self
  have hsize : (fs₂.data.dirents.get i).size = 11 := by
    rw [hself]
    refine UInt32.toNat_inj.mp (hn.trans ?_)
    rw [hc₁.self]
    rfl
  have hlen : 1 ≤ ([] ++ new : List Nat).length := by simp [hnew]
  have hread := tinyfsRead_spec hst.inv trivial hst.reliable hnode 1 0 (by rw [hsize]; decide)
  have hcount : readCount 11 1 0 ([] ++ new : List Nat).length = 1 := by
    rw [readCount, if_neg (by decide)]
    show min 1 (512 * _ - 0) = 1
    omega
  simp only [Function.update_self, hsize, hcount] at hread
  have h6 : vfsStep (openedAt fs₂ node 0) (.read 3 1) = .ok ((1, [x]), openedAt fs₂ node 1) := by
    show vfsRead (openedAt fs₂ node 0) 3 1 = _
    simp only [vfsRead, openedAt_usedFd, openedAt_get, openedAt_fs, hread, ok_bind]
    rw [show ((List.range 1).map fun q => byteAt fs₂.disk ([] ++ new) ((0 : UInt32).toNat + q)) = [x] from
      congrArg (fun b => [b]) hbyte]
    exact congrArg (fun v => Except.ok ((1, [x]), v)) (openedAt_setFd fs₂ fs₂ node node 0 1)
  exact ⟨_, runFrom_cons h1 (runFrom_cons h2 (runFrom_cons (openedAt_seek _ _ _ 10) (runFrom_cons h4
    (runFrom_cons (openedAt_seek _ _ _ 0) (runFrom_cons h6 runFrom_nil)))))⟩

/-- Two formatted and mounted disks that differ in free blocks only: the file shows a byte of them. -/
theorem gapOps_residue : ∃ fs, formatAndMount blankData [] blankDisk = some fs ∧
    SameButFree (vfsMounted (withResidue 0 fs)) (vfsMounted (withResidue 7 fs)) ∧
    (∀ op ∈ gapOps, op.removes = false) ∧
    (runFrom vfsStep (vfsMounted (withResidue 0 fs)) gapOps).map Prod.fst ≠
      (runFrom vfsStep (vfsMounted (withResidue 7 fs)) gapOps).map Prod.fst := by
  obtain ⟨fs, hfs, hfresh, -⟩ := formatAndMount_fresh blankDisk_reliable blankData []
  obtain ⟨v, hv⟩ := gapOps_run hfresh 0
  obtain ⟨w, hw⟩ := gapOps_run hfresh 7
  refine ⟨fs, hfs, withResidue_sameButFree hfresh 0 7, by simp [gapOps, VfsOp.removes], ?_⟩
  rw [hv, hw]
  simp [Except.map]

theorem residue_run_gapOps : ∃ fs, formatAndMount blankData [] blankDisk = some fs ∧
    (runFrom shownStep (vfsMounted (withResidue 0 fs), ownBlocks fs.data) gapOps).map Prod.fst =
      (runFrom shownStep (vfsMounted (withResidue 7 fs), ownBlocks fs.data) gapOps).map Prod.fst := by
  obtain ⟨fs, hfs, hfresh, -⟩ := formatAndMount_fresh blankDisk_reliable blankData []
  exact ⟨fs, hfs, residue_run (withResidue_sameButFree hfresh 0 7) (by simp [gapOps, VfsOp.removes])⟩

end AmqOs.Vfs
