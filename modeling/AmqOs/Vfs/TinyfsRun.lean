import AmqOs.Vfs.TinyfsOps

/-!
# Runs of TinyFS calls

A session is a mounted filesystem and the nodes its callers have obtained so far; a call names a node by its number,
so old nodes, also those whose entry has since been removed, stay usable. `tinyfsStep` performs one call.

- `tinyfsStep_spec`: a call keeps the chains of all entries, used or not, and the counter; it keeps the metadata on
  the disk too, unless it is a write that runs out of blocks after it has taken some (`Persists`).
- `run_wellFormed` and `run_remount` are the run lemmas from a fresh filesystem.
-/

set_option autoImplicit false

namespace AmqOs.Vfs

open AmqOs.Lib

structure Session where
  fs : Tinyfs
  nodes : List Node

/-- A call. The operations that return a node are told whether `kmalloc` has memory for it. -/
inductive TinyfsOp
  | getRoot (mem : Bool)
  | finddir (mem : Bool) (node : Nat) (name : CString)
  | readdir (mem : Bool) (node : Nat) (index : UInt32)
  | create (node : Nat) (name : CString) (type : FileType)
  | write (node : Nat) (buffer : List UInt8) (offset : UInt32)
  | unlink (node : Nat) (name : CString)

def Session.add (s : Session) (node : Option Node) : Session := { s with nodes := s.nodes ++ node.toList }

/-- One call, with what it returned when it returns a number. A call on a node that nobody has is no call. -/
def tinyfsStep (s : Session) : TinyfsOp → Except Fault (Option Int × Session)
  | .getRoot mem => .ok (none, s.add (tinyfsGetRoot mem))
  | .finddir mem k name => .ok (none, s.add (s.nodes[k]?.bind fun node => tinyfsFinddir mem s.fs.data node name))
  | .readdir mem k index => .ok (none, s.add (s.nodes[k]?.bind fun node => tinyfsReaddir mem s.fs.data node index))
  | .create k name type =>
    match s.nodes[k]? with
    | none => .ok (none, s)
    | some node =>
      let (result, fs) := tinyfsCreateNode s.fs node name type
      .ok (some result, { s with fs })
  | .write k buffer offset =>
    match s.nodes[k]? with
    | none => .ok (none, s)
    | some node => do
      let (result, node, fs) ← tinyfsWrite s.fs node buffer offset
      .ok (some result, ⟨fs, s.nodes.set k node⟩)
  | .unlink k name =>
    match s.nodes[k]? with
    | none => .ok (none, s)
    | some node => do
      let (result, fs) ← tinyfsUnlink s.fs node name
      .ok (some result, { s with fs })

/-- The chain of an entry, read off the table. -/
def entryChain (d : TinyfsData) (i : Fin 256) : List Nat :=
  if (d.dirents.get i).firstBlock = 0 then []
  else walk (fatNext d.fat) eof.toNat 1024 (d.dirents.get i).firstBlock.toNat

theorem Inv.entryChain_eq {d : TinyfsData} {live : Fin 256 → Prop} {ch : Fin 256 → List Nat} {i : Fin 256}
    (h : Inv d live ch) (hi : live i) : entryChain d i = ch i := by
  unfold entryChain
  split
  · rename_i h0
    exact ((h.chains.entry i hi).empty h0).symm
  · rename_i h0
    have hlen := h.length_le hi
    exact ((h.chains.entry i hi).chain h0).2.walk_eq (by omega)

/-- There is no free block, or the blocks of entry `i` and the free ones together reach the block of `offset`. -/
def Reaches (d : TinyfsData) (i : Fin 256) (offset : UInt32) : Prop :=
  freeSet d.fat = ∅ ∨ offset.toNat / 512 < (entryChain d i).length + (freeSet d.fat).card

/-- When the blocks reach the offset, an extension that found the disk full before the offset took nothing. -/
theorem Grown.nil_of_reaches {d d' : TinyfsData} {live : Fin 256 → Prop} {ch : Fin 256 → List Nat} {i : Fin 256}
    {new : List Nat} {offset : UInt32} (hg : Grown d live ch i new d') (h : Inv d live ch) (hi : live i)
    (hf : freeSet d'.fat = ∅) (hlen : (ch i ++ new).length ≤ offset.toNat / 512) (hr : Reaches d i offset) :
    new = [] := by
  have hcard := hg.card hi
  rw [hf, Finset.card_empty] at hcard
  rw [List.length_append] at hlen
  rcases hr with h0 | hlt
  · rw [h0, Finset.card_empty] at hcard
    exact List.length_eq_zero_iff.mp (by omega)
  · rw [h.entryChain_eq hi] at hlt
    omega

/-- The condition on a call under which the metadata on the disk follow those in memory. -/
def Persists (s : Session) : TinyfsOp → Prop
  | .write k _ offset => ∀ node, s.nodes[k]? = some node → ∀ i, node.dirent = some i → Reaches s.fs.data i offset
  | _ => True

/-- What every run keeps. -/
structure SessionInv (s : Session) : Prop where
  inv : ∃ ch, Inv s.fs.data (fun _ => True) ch
  counted : Counted s.fs.data
  reliable : s.fs.disk.Reliable

/-- **A call** returns, keeps the invariant, and keeps the metadata on the disk under `Persists`. -/
theorem tinyfsStep_spec {s : Session} (h : SessionInv s) (op : TinyfsOp) :
    ∃ r s', tinyfsStep s op = .ok (r, s') ∧ SessionInv s' ∧
      (Persists s op → OnDisk s.fs.data s.fs.disk → OnDisk s'.fs.data s'.fs.disk) := by
  obtain ⟨⟨ch, hinv⟩, hc, hr⟩ := h
  cases op with
  | getRoot mem => exact ⟨_, _, rfl, ⟨⟨ch, hinv⟩, hc, hr⟩, fun _ ho => ho⟩
  | finddir mem k name => exact ⟨_, _, rfl, ⟨⟨ch, hinv⟩, hc, hr⟩, fun _ ho => ho⟩
  | readdir mem k index => exact ⟨_, _, rfl, ⟨⟨ch, hinv⟩, hc, hr⟩, fun _ ho => ho⟩
  | create k name type =>
    cases hn : s.nodes[k]? with
    | none => exact ⟨none, s, by simp [tinyfsStep, hn], ⟨⟨ch, hinv⟩, hc, hr⟩, fun _ ho => ho⟩
    | some node =>
      rcases tinyfsCreateNode_spec hinv.layout.toPlaced hr node name type with ⟨-, he⟩ | ⟨i, fs, he, hcr⟩
      · exact ⟨some (-1), s, by simp [tinyfsStep, hn, he], ⟨⟨ch, hinv⟩, hc, hr⟩, fun _ ho => ho⟩
      · refine ⟨some 0, { s with fs }, by simp [tinyfsStep, hn, he], ⟨⟨_, hcr.inv hinv fun _ _ _ => trivial⟩,
          hcr.counted hc, hcr.reliable⟩, fun _ ho => ?_⟩
        have ho' := hcr.onDisk ho
        exact ⟨by rw [hcr.sb]; exact ho'.sb, by rw [hcr.fat]; exact ho'.fat, ho'.dir⟩
  | write k buffer offset =>
    cases hn : s.nodes[k]? with
    | none => exact ⟨none, s, by simp [tinyfsStep, hn], ⟨⟨ch, hinv⟩, hc, hr⟩, fun _ ho => ho⟩
    | some node =>
      cases hd : node.dirent with
      | none =>
        have he : tinyfsWrite s.fs node buffer offset = .ok (-1, node, s.fs) := by simp [tinyfsWrite, hd]
        exact ⟨some (-1), ⟨s.fs, s.nodes.set k node⟩, by simp [tinyfsStep, hn, he], ⟨⟨ch, hinv⟩, hc, hr⟩,
          fun _ ho => ho⟩
      | some i =>
        rcases tinyfsWrite_spec hinv trivial hr hd buffer offset with ⟨-, -, he⟩ | ⟨new, d', hg, hf, -, hlen, he⟩ |
          ⟨new, w, fs, he, hst⟩
        · exact ⟨some (-1), ⟨s.fs, s.nodes.set k node⟩, by simp [tinyfsStep, hn, he], ⟨⟨ch, hinv⟩, hc, hr⟩,
            fun _ ho => ho⟩
        · refine ⟨some 0, ⟨{ s.fs with data := d' }, s.nodes.set k node⟩, by simp [tinyfsStep, hn, he],
            ⟨⟨_, hg.inv⟩, hg.counted trivial hc, hr⟩, fun hp ho => ?_⟩
          -- under the condition nothing was taken before the disk was found full
          rw [hg.same (hg.nil_of_reaches hinv trivial hf hlen (hp node hn i hd))]
          exact ho
        · exact ⟨_, _, by simp only [tinyfsStep, hn, he, ok_bind]; rfl, ⟨⟨_, hst.inv⟩, hst.counted hc, hst.reliable⟩,
            fun _ _ => hst.onDisk⟩
  | unlink k name =>
    cases hn : s.nodes[k]? with
    | none => exact ⟨none, s, by simp [tinyfsStep, hn], ⟨⟨ch, hinv⟩, hc, hr⟩, fun _ ho => ho⟩
    | some node =>
      rcases tinyfsUnlink_spec hinv hr node name fun _ _ => trivial with ⟨-, he⟩ | ⟨-, i, fs, -, he, hrm⟩
      · exact ⟨some (-1), s, by simp [tinyfsStep, hn, he], ⟨⟨ch, hinv⟩, hc, hr⟩, fun _ ho => ho⟩
      · exact ⟨some 0, { s with fs }, by simp [tinyfsStep, hn, he], ⟨⟨_, hrm.inv⟩,
          hrm.freed.counted hinv trivial hc, hrm.flushed.reliable⟩, fun _ _ => hrm.flushed.onDisk⟩

/-! ## From a fresh filesystem -/

theorem freeSet_fresh : freeSet freshFat = Finset.Ico 101 1024 := by
  ext b
  rw [mem_freeSet, Finset.mem_Ico]
  refine ⟨fun h => ⟨h.1, h.2.1⟩, fun h => ⟨h.1, h.2, ?_⟩⟩
  rw [getElem?_of_lt _ h.2, freshFat_get, if_neg (by simp only; omega)]

theorem freeSet_fresh_ne : freeSet freshFat ≠ ∅ := by
  rw [freeSet_fresh]
  exact Finset.nonempty_iff_ne_empty.mp ⟨101, by simp⟩

/-- A fresh filesystem has no blocks in use. -/
theorem Fresh.inv {s : Tinyfs} (h : Fresh s) (live : Fin 256 → Prop) : Inv s.data live fun _ => [] := by
  refine inv_of_empty live ?_ fun i => ?_
  · rw [h.sb]
    exact formatSuperblock_layout
  · rw [h.dirents, freshDirents_get]
    exact ⟨rfl, rfl⟩

theorem Fresh.counted {s : Tinyfs} (h : Fresh s) : Counted s.data := by
  unfold Counted
  rw [h.sb, h.fat, freeSet_fresh, Nat.card_Ico]
  rfl

theorem Fresh.session {s : Tinyfs} (h : Fresh s) : SessionInv ⟨s, []⟩ :=
  ⟨⟨_, h.inv _⟩, h.counted, h.reliable⟩

/-- **Every run** of calls on a freshly formatted and mounted filesystem returns and leaves it well formed. -/
theorem run_wellFormed {disk : Disk} (hr : disk.Reliable) (raw : TinyfsData) (device : CString)
    (ops : List TinyfsOp) :
    ∃ fs rs s, formatAndMount raw device disk = some fs ∧ runFrom tinyfsStep ⟨fs, []⟩ ops = .ok (rs, s) ∧
      Counted s.fs.data ∧
      ∃ ch, Inv s.fs.data (usedEntry s.fs.data) ch ∧ ∀ i, usedEntry s.fs.data i → (ch i).Nodup := by
  obtain ⟨fs, hfs, hfresh, -⟩ := formatAndMount_fresh hr raw device
  obtain ⟨rs, s, hrun, ⟨ch, hinv⟩, hc, -⟩ := runFrom_inv SessionInv
    (fun s op h _ => by
      obtain ⟨r, s', he, hs', -⟩ := tinyfsStep_spec h op
      exact ⟨r, s', he, hs'⟩) hfresh.session (along_of_forall tinyfsStep (fun _ _ => trivial) _ ops)
  exact ⟨fs, rs, s, hfs, hrun, hc, ch, hinv.mono fun _ _ => trivial, fun i _ => hinv.nodup trivial⟩

/-- Create `a`, write three bytes to it, remove it, and write through the node that is left. -/
def staleNodeOps : List TinyfsOp :=
  [.getRoot true, .create 0 nameA .regular, .finddir true 0 nameA, .write 1 [1, 2, 3] 0, .unlink 0 nameA,
    .write 1 [4] 600]

theorem run_wellFormed_blank : ∃ fs rs s, formatAndMount blankData [] blankDisk = some fs ∧
    runFrom tinyfsStep ⟨fs, []⟩ staleNodeOps = .ok (rs, s) ∧ Counted s.fs.data ∧
    ∃ ch, Inv s.fs.data (usedEntry s.fs.data) ch ∧ ∀ i, usedEntry s.fs.data i → (ch i).Nodup :=
  run_wellFormed blankDisk_reliable blankData [] staleNodeOps

/-- **The disk follows the memory** along a run in which no write runs out of blocks half-way: a fresh mount finds the
superblock, the table and the directory of the running filesystem. -/
theorem run_remount {disk : Disk} (hr : disk.Reliable) (raw : TinyfsData) (device : CString) {fs : Tinyfs}
    (hfs : formatAndMount raw device disk = some fs) {ops : List TinyfsOp}
    (hops : Along tinyfsStep Persists ⟨fs, []⟩ ops) :
    ∃ rs s, runFrom tinyfsStep ⟨fs, []⟩ ops = .ok (rs, s) ∧ ∀ raw' device', ∃ d,
      tinyfsMount (some raw') device' s.fs.disk = (some d, s.fs.disk) ∧ d.sb = s.fs.data.sb ∧
      d.fat = s.fs.data.fat ∧ d.dirents = s.fs.data.dirents := by
  obtain ⟨fs', hfs', hfresh, -⟩ := formatAndMount_fresh hr raw device
  obtain rfl : fs' = fs := Option.some.inj (hfs'.symm.trans hfs)
  obtain ⟨rs, s, hrun, hinv, ho⟩ := runFrom_inv
    (fun s => SessionInv s ∧ OnDisk s.fs.data s.fs.disk)
    (fun s op h hp => by
      obtain ⟨r, s', he, hs', hd⟩ := tinyfsStep_spec h.1 op
      exact ⟨r, s', he, hs', hd hp h.2⟩) ⟨hfresh.session, hfresh.onDisk⟩ hops
  obtain ⟨ch, hinv'⟩ := hinv.inv
  exact ⟨rs, s, hrun, mount_of_onDisk hinv'.layout.toPlaced hinv.reliable ho⟩

/-! ## A write that runs out of blocks -/

/-- Create `a`, write a byte just after the last position the disk has room for, create `b`. -/
def lostOps : List TinyfsOp :=
  [.getRoot true, .create 0 nameA .regular, .finddir true 0 nameA, .write 1 [1] 472576, .create 0 nameB .regular]

/-- A write after the last position that the data area has room for takes every block and stores nothing. -/
theorem tinyfsWrite_beyond {s : Tinyfs} {live : Fin 256 → Prop} {ch : Fin 256 → List Nat} {i : Fin 256}
    (h : Inv s.data live ch) (hi : live i) (hr : s.disk.Reliable) {node : Node} (hn : node.dirent = some i)
    (hfree : freeSet s.data.fat ≠ ∅) (buffer : List UInt8) {offset : UInt32} (hoff : 923 ≤ offset.toNat / 512) :
    ∃ new d', tinyfsWrite s node buffer offset = .ok (0, node, { s with data := d' }) ∧
      Grown s.data live ch i new d' ∧ freeSet d'.fat = ∅ := by
  rcases tinyfsWrite_spec h hi hr hn buffer offset with ⟨-, hf, -⟩ | ⟨new, d', hg, hf, -, -, he⟩ |
    ⟨new, w, s', -, hst⟩
  · exact absurd hf hfree
  · exact ⟨new, d', he, hg, hf⟩
  · have hlen : (ch i ++ new).length ≤ 923 := by simpa using hst.inv.length_le hi
    have hreach := hst.reach
    omega

/-- A create with a new name succeeds while there is a free entry. -/
theorem tinyfsCreateNode_ok {s : Tinyfs} (hp : Placed s.data.sb) (hr : s.disk.Reliable) {parent : Node}
    (hd : parent.type = .directory) (name : CString) (type : FileType)
    (hn : ∀ j, usedEntry s.data j → (s.data.dirents.get j).cname ≠ name) {k : Fin 256} (hk : 1 ≤ k.val)
    (hfree : ¬ usedEntry s.data k) :
    ∃ i s', tinyfsCreateNode s parent name type = (0, s') ∧ Created s parent name type i s' := by
  rcases tinyfsCreateNode_spec hp hr parent name type with ⟨hwhy, -⟩ | hok
  · rcases hwhy with h | ⟨j, hj⟩ | h
    · exact absurd hd h
    · obtain ⟨h1, -, h3⟩ := isEntry_iff.mp hj
      exact absurd h3 (hn j h1)
    · exact absurd (findFreeDirent_none h k hk) hfree
  · exact hok

theorem Fresh.not_used {s : Tinyfs} (h : Fresh s) (j : Fin 256) : ¬ usedEntry s.data j := by
  simp [usedEntry, h.dirents, emptyDirent]

/-- The name of a new entry. -/
theorem cname_createDirent (e : Dirent) (name : CString) (type : FileType) (parentInode : UInt32) :
    (createDirent e name type parentInode).cname = name.take 31 :=
  CString.ofBytes_strcpy _ _

theorem Created.cname {s s' : Tinyfs} {parent : Node} {name : CString} {type : FileType} {i : Fin 256}
    (h : Created s parent name type i s') : (s'.data.dirents.get i).cname = name.take 31 := by
  rw [h.self, cname_createDirent]

/-- An entry that exists is found. -/
theorem tinyfsFinddir_ok {d : TinyfsData} {node : Node} {name : CString} {i : Fin 256} (hd : node.type = .directory)
    (hi : isEntry d node.inode name i = true) :
    ∃ j, tinyfsFinddir true d node name = some (nodeOf d j) := by
  cases hf : firstFin 0 (isEntry d node.inode name) with
  | none =>
    rw [firstFin_eq_none.mp hf i (Nat.zero_le _)] at hi
    cases hi
  | some j => exact ⟨j, by simp [tinyfsFinddir, hd, hf]⟩

/-- The run of `lostOps` takes every block, and only the directory reaches the disk. -/
theorem lostOps_run {fs : Tinyfs} (h : Fresh fs) :
    ∃ s, runFrom tinyfsStep ⟨fs, []⟩ lostOps = .ok ([none, some 0, none, some 0, some 0], s) ∧
      freeSet s.fs.data.fat = ∅ ∧ OnDisk { fs.data with dirents := s.fs.data.dirents } s.fs.disk ∧
      s.fs.disk.Reliable := by
  have hinv := h.inv fun _ => True
  have hroot : rootNode.type = .directory := rfl
  -- create a
  obtain ⟨i, fs₁, he₁, hc₁⟩ := tinyfsCreateNode_ok hinv.layout.toPlaced h.reliable hroot nameA .regular
    (fun j hj => absurd hj (h.not_used j)) (k := 1) (by decide) (h.not_used 1)
  have hi : i = 1 := by
    obtain ⟨h1, -, h3⟩ := findFreeDirent_some hc₁.slot
    by_contra hne
    exact h.not_used 1 (h3 1 (by decide) (by omega))
  have hname : (fs₁.data.dirents.get i).cname = nameA := hc₁.cname
  have hused : ∀ j, usedEntry fs₁.data j ↔ j = i := fun j => by
    rw [hc₁.used_iff]
    simp [h.not_used j]
  have hentry : isEntry fs₁.data rootNode.inode nameA i = true :=
    isEntry_iff.mpr ⟨(hused i).mpr rfl, by rw [hc₁.self]; rfl, hname⟩
  obtain ⟨j, hfd⟩ := tinyfsFinddir_ok hroot hentry
  have hinv₁ : Inv fs₁.data (fun _ => True) (Function.update (fun _ => []) i []) := hc₁.inv hinv fun _ _ _ => trivial
  -- the write finds no place for the block it needs
  obtain ⟨new, d', hw, hg, hf⟩ : ∃ new d', tinyfsWrite fs₁ (nodeOf fs₁.data j) [1] 472576 =
      .ok (0, nodeOf fs₁.data j, { fs₁ with data := d' }) ∧
      Grown fs₁.data (fun _ => True) (Function.update (fun _ => []) i []) j new d' ∧ freeSet d'.fat = ∅ := by
    have hfree : freeSet fs₁.data.fat ≠ ∅ := by
      rw [hc₁.fat, h.fat]
      exact freeSet_fresh_ne
    exact tinyfsWrite_beyond hinv₁ trivial hc₁.reliable rfl hfree [1] (by decide)
  have hsame : ∀ k, usedEntry d' k = usedEntry fs₁.data k ∧
      (d'.dirents.get k).cname = (fs₁.data.dirents.get k).cname := fun k => by
    by_cases hk : k = j
    · obtain ⟨fb, hfb⟩ := hg.self
      subst hk
      simp [usedEntry, Dirent.cname, hfb]
    · simp [usedEntry, hg.other k hk]
  -- create b
  obtain ⟨k, fs₂, he₂, hc₂⟩ := tinyfsCreateNode_ok (s := { fs₁ with data := d' }) hg.inv.layout.toPlaced hc₁.reliable
    hroot nameB .regular
    (fun j hj => by
      rw [(hused j).mp ((hsame j).1 ▸ hj), (hsame i).2, hname]
      decide) (k := 2) (by decide)
    (fun hu => by
      have h2 := (hused 2).mp ((hsame 2).1 ▸ hu)
      rw [hi] at h2
      exact absurd h2 (by decide))
  refine ⟨⟨fs₂, [rootNode, nodeOf fs₁.data j]⟩, ?_, ?_, ?_, hc₂.reliable⟩
  · have h1 : tinyfsStep ⟨fs, []⟩ (.getRoot true) = .ok (none, ⟨fs, [rootNode]⟩) := rfl
    have h2 : tinyfsStep ⟨fs, [rootNode]⟩ (.create 0 nameA .regular) = .ok (some 0, ⟨fs₁, [rootNode]⟩) := by
      simp [tinyfsStep, he₁]
    have h3 : tinyfsStep ⟨fs₁, [rootNode]⟩ (.finddir true 0 nameA) =
        .ok (none, ⟨fs₁, [rootNode, nodeOf fs₁.data j]⟩) := by
      simp [tinyfsStep, hfd, Session.add]
    have h4 : tinyfsStep ⟨fs₁, [rootNode, nodeOf fs₁.data j]⟩ (.write 1 [1] 472576) =
        .ok (some 0, ⟨{ fs₁ with data := d' }, [rootNode, nodeOf fs₁.data j]⟩) := by
      simp [tinyfsStep, hw]
    have h5 : tinyfsStep ⟨{ fs₁ with data := d' }, [rootNode, nodeOf fs₁.data j]⟩ (.create 0 nameB .regular) =
        .ok (some 0, ⟨fs₂, [rootNode, nodeOf fs₁.data j]⟩) := by
      simp [tinyfsStep, he₂]
    exact runFrom_cons h1 (runFrom_cons h2 (runFrom_cons h3 (runFrom_cons h4 (runFrom_cons h5 runFrom_nil))))
  · rw [hc₂.fat]
    exact hf
  · have ho := hc₂.onDisk (hc₁.onDisk h.onDisk)
    exact ho

/-- The second create of `lostOps` returns 0, and a fresh mount does not find the table of the running filesystem. -/
theorem lostOps_not_remounted : ∃ fs s d, formatAndMount blankData [] blankDisk = some fs ∧
    runFrom tinyfsStep ⟨fs, []⟩ lostOps = .ok ([none, some 0, none, some 0, some 0], s) ∧
    tinyfsMount (some blankData) [] s.fs.disk = (some d, s.fs.disk) ∧ d.fat ≠ s.fs.data.fat := by
  obtain ⟨fs, hfs, hfresh, -⟩ := formatAndMount_fresh blankDisk_reliable blankData []
  obtain ⟨s, hrun, hfree, ho, hr⟩ := lostOps_run hfresh
  have hp : Placed { fs.data with dirents := s.fs.data.dirents }.sb := (hfresh.inv fun _ => True).layout.toPlaced
  obtain ⟨d, hm, -, hfat, -⟩ := mount_of_onDisk hp hr ho blankData []
  refine ⟨fs, s, d, hfs, hrun, hm, fun he => ?_⟩
  rw [← he, hfat] at hfree
  simp only [hfresh.fat, freeSet_fresh] at hfree
  exact absurd hfree (Finset.nonempty_iff_ne_empty.mp ⟨101, by simp⟩)

/-- Create `a` and write a byte to it. -/
def keptOps : List TinyfsOp :=
  [.getRoot true, .create 0 nameA .regular, .finddir true 0 nameA, .write 1 [1] 0]

/-- On a fresh disk there is room for the write of `keptOps`. -/
theorem keptOps_persists {fs : Tinyfs} (h : Fresh fs) : Along tinyfsStep Persists ⟨fs, []⟩ keptOps := by
  refine ⟨trivial, fun _ s₁ h₁ => ⟨trivial, fun _ s₂ h₂ => ⟨trivial, fun _ s₃ h₃ => ⟨?_, fun _ _ _ => trivial⟩⟩⟩⟩
  have hfs₁ : s₁ = ⟨fs, [rootNode]⟩ := by
    cases h₁
    rfl
  have hfat₂ : s₂.fs.data.fat = freshFat := by
    subst hfs₁
    rcases tinyfsCreateNode_spec (h.inv fun _ => True).layout.toPlaced h.reliable rootNode nameA .regular with
      ⟨-, he⟩ | ⟨i, fs', he, hc⟩
    · simp only [tinyfsStep, List.getElem?_cons_zero, he, Except.ok.injEq, Prod.mk.injEq] at h₂
      rw [← h₂.2, h.fat]
    · simp only [tinyfsStep, List.getElem?_cons_zero, he, Except.ok.injEq, Prod.mk.injEq] at h₂
      rw [← h₂.2, hc.fat, h.fat]
  have hfs₃ : s₃.fs = s₂.fs := by
    cases h₃
    rfl
  intro node _ i _
  right
  rw [hfs₃, hfat₂, freeSet_fresh, Nat.card_Ico]
  simp

theorem run_remount_blank : ∃ fs rs s, formatAndMount blankData [] blankDisk = some fs ∧
    runFrom tinyfsStep ⟨fs, []⟩ keptOps = .ok (rs, s) ∧ ∃ d,
      tinyfsMount (some blankData) [] s.fs.disk = (some d, s.fs.disk) ∧ d.sb = s.fs.data.sb ∧
      d.fat = s.fs.data.fat ∧ d.dirents = s.fs.data.dirents := by
  obtain ⟨fs, hfs, hfresh, -⟩ := formatAndMount_fresh blankDisk_reliable blankData []
  obtain ⟨rs, s, hrun, hm⟩ := run_remount blankDisk_reliable blankData [] hfs (keptOps_persists hfresh)
  exact ⟨fs, rs, s, hfs, hrun, hm blankData []⟩

end AmqOs.Vfs
