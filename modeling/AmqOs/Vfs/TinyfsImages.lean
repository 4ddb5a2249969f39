import AmqOs.Vfs.TinyfsLinks
import AmqOs.Vfs.TinyfsRun
import AmqOs.Vfs.VfsListing

/-!
# Mounted images

Sessions on a filesystem mounted from any disk. `SoundImage d` is the condition on the tables read by `tinyfs_mount`
under which no call leaves `fat[1024]`, whatever the calls and whatever becomes of the transfers (`mounted_run`). The
loops with a budget in the model end before it is spent (`readLoop_fuel`, `writeLoop_fuel`), also on tables that are
not sound.
-/

set_option autoImplicit false

namespace AmqOs.Vfs

open AmqOs.Lib

/-! ## Budgets -/

section Budgets

/-- Every round of the reading loop copies a byte, so a larger budget makes no difference. -/
theorem readLoop_fuel (d : TinyfsData) {size fuel bo : Nat} {acc : List UInt8} (hbo : bo < 512)
    (hfuel : size ≤ acc.length + fuel) (k : Nat) (cur : UInt32) (disk : Disk) :
    readLoop d size (fuel + k) cur bo acc disk = readLoop d size fuel cur bo acc disk := by
  induction fuel generalizing bo acc cur disk with
  | zero =>
    cases k with
    | zero => rfl
    | succ k =>
      simp only [readLoop]
      rw [if_neg (by omega)]
  | succ fuel ih =>
    rw [Nat.succ_add, readLoop, readLoop]
    split
    · rename_i hround
      cases ataReadSectors disk cur with
      | mk sector disk' =>
        cases sector with
        | none => rfl
        | some sector =>
          simp only
          cases d.fatGet cur with
          | error f => rfl
          | ok next =>
            exact ih (show 0 < 512 by omega)
              (by simp only [List.length_append, List.length_map, List.length_range]; omega) next disk'
    · rfl

theorem writeLoop_fuel (d : TinyfsData) (buffer : List UInt8) {size fuel bo w : Nat} (hbo : bo < 512)
    (hfuel : size ≤ w + fuel) (k : Nat) (cur : UInt32) (disk : Disk) (bb : Mem) :
    writeLoop buffer size (fuel + k) d disk cur bo w bb = writeLoop buffer size fuel d disk cur bo w bb := by
  induction fuel generalizing d bo w cur disk bb with
  | zero =>
    cases k with
    | zero => rfl
    | succ k =>
      simp only [writeLoop]
      rw [if_neg (by omega)]
  | succ fuel ih =>
    by_cases hlt : w < size
    · rw [Nat.succ_add, writeLoop_succ d buffer _ disk cur bb hlt, writeLoop_succ d buffer _ disk cur bb hlt]
      simp only
      generalize writeRound buffer size bo w disk cur bb = round
      split
      · rfl
      · split
        · cases nextBlock d cur with
          | error f => rfl
          | ok r =>
            obtain ⟨b, d₁⟩ := r
            cases b with
            | none => rfl
            | some b => exact ih d₁ (show 0 < 512 by omega) (by omega) b _ _
        · exact ih d (show 0 < 512 by omega) (by omega) cur _ _
    · rw [Nat.succ_add, writeLoop, writeLoop, if_neg hlt, if_neg hlt]

end Budgets

/-! ## Sound images -/

/-- The value `c` is the link of block `b`. -/
def LinkTo (d : TinyfsData) (b c : UInt32) : Prop := d.fat[b.toNat]? = some c

/-- Following links from `b` leads to `c`. -/
def LeadsTo (d : TinyfsData) : UInt32 → UInt32 → Prop := Relation.ReflTransGen (LinkTo d)

/-- From `b` on there are only end markers and indices of the table. -/
def Stays (d : TinyfsData) (b : UInt32) : Prop := ∀ c, LeadsTo d b c → c = eof ∨ c.toNat < 1024

/-- The tables of an image that no call can leave. Allocation stays in the table; a used entry does not start with the
end marker, and the links from its first block stay in the table; and so do the links from block 0, when an entry with
more than one byte and no block starts there, or when two used entries share a block, which leads to block 0 once one
of the two has been unlinked. With more than one byte, a read of 2^32 - 1 bytes at offset 1 is not cut to the size of the
file and follows the links. A used entry that no node can reach is asked the same as the others. -/
structure SoundImage (d : TinyfsData) : Prop where
  table : d.sb.totalBlocks ≤ 1024 ∨ d.sb.totalBlocks ≤ d.sb.dataStart
  start : ∀ i, usedEntry d i → (d.dirents.get i).firstBlock ≠ eof
  chain : ∀ i, usedEntry d i → (d.dirents.get i).firstBlock ≠ 0 → Stays d (d.dirents.get i).firstBlock
  zero : (∃ i, usedEntry d i ∧ (d.dirents.get i).firstBlock = 0 ∧ 1 < (d.dirents.get i).size) ∨
    (∃ i j c, usedEntry d i ∧ usedEntry d j ∧ i ≠ j ∧ (d.dirents.get i).firstBlock ≠ 0 ∧
      (d.dirents.get j).firstBlock ≠ 0 ∧ c ≠ eof ∧ LeadsTo d (d.dirents.get i).firstBlock c ∧
      LeadsTo d (d.dirents.get j).firstBlock c) → Stays d 0

/-- The blocks that used entry `i` leads to, with those that block 0 leads to when these stay in the table. -/
def imageBlocks (d : TinyfsData) (i : Fin 256) : Set Nat :=
  {b | usedEntry d i ∧ ∃ c : UInt32, c ≠ eof ∧ c.toNat = b ∧
    ((d.dirents.get i).firstBlock ≠ 0 ∧ LeadsTo d (d.dirents.get i).firstBlock c ∨ Stays d 0 ∧ LeadsTo d 0 c)}

theorem SoundImage.links {d : TinyfsData} (h : SoundImage d) : Links d (usedEntry d) (imageBlocks d) := by
  have hzero : Stays d 0 → ∀ i, usedEntry d i → 0 ∈ imageBlocks d i := fun hz i hi =>
    ⟨hi, 0, by decide, rfl, .inr ⟨hz, .refl⟩⟩
  refine ⟨h.table, fun i b hb => ?_, fun i hi => ?_, fun i j b hij hbi hbj => ?_⟩
  · obtain ⟨hi, c, hne, rfl, hlead⟩ := hb
    have hlt : c.toNat < 1024 := by
      rcases hlead with ⟨h0, hlead⟩ | ⟨hz, hlead⟩
      · exact (h.chain i hi h0 c hlead).resolve_left hne
      · exact (hz c hlead).resolve_left hne
    refine ⟨d.fat.get ⟨c.toNat, hlt⟩, getElem?_of_lt _ hlt, or_iff_not_imp_left.mpr fun hend => ⟨hi, _, hend, rfl, ?_⟩⟩
    exact hlead.imp (fun ⟨h0, hl⟩ => ⟨h0, hl.tail (getElem?_of_lt _ hlt)⟩)
      fun ⟨hz, hl⟩ => ⟨hz, hl.tail (getElem?_of_lt _ hlt)⟩
  · by_cases h0 : (d.dirents.get i).firstBlock = 0
    · by_cases hz : Stays d 0
      · refine .inl ?_
        rw [h0]
        exact hzero hz i hi
      · refine .inr ⟨h0, UInt32.not_lt.mp fun hlt => hz (h.zero (.inl ⟨i, hi, h0, hlt⟩))⟩
    · exact .inl ⟨hi, _, h.start i hi, rfl, .inl ⟨h0, .refl⟩⟩
  · obtain ⟨hi, c, hne, rfl, hlead⟩ := hbi
    obtain ⟨hj, c', -, hcc, hlead'⟩ := hbj
    obtain rfl := UInt32.toNat_inj.mp hcc
    refine hzero ?_ i hi
    rcases hlead with ⟨h0, hlead⟩ | ⟨hz, -⟩
    · rcases hlead' with ⟨h0', hlead'⟩ | ⟨hz, -⟩
      · exact h.zero (.inr ⟨i, j, _, hi, hj, hij, h0, h0', hne, hlead, hlead'⟩)
      · exact hz
    · exact hz

/-! ## Sessions -/

/-- A call of a session, or a read. -/
inductive TinyfsCall
  | op (op : TinyfsOp)
  | read (node : Nat) (size offset : UInt32)

def callStep (s : Session) : TinyfsCall → Except Fault (Option Int × Session)
  | .op op => tinyfsStep s op
  | .read k size offset =>
    match s.nodes[k]? with
    | none => .ok (none, s)
    | some node => do
      let (result, fs) ← tinyfsRead s.fs node size offset
      .ok (some result.1, { s with fs })

/-- The tables have sets for their links, and all nodes are of live entries. -/
def SessionLinks (s : Session) : Prop :=
  ∃ live G, Links s.fs.data live G ∧ (∀ i, usedEntry s.fs.data i → live i) ∧
    ∀ node ∈ s.nodes, ∀ i, node.dirent = some i → live i

section Sessions

variable {s : Session}

/-- A node is added. -/
theorem SessionLinks.add (h : SessionLinks s) {node : Option Node}
    (hn : ∀ n i, node = some n → n.dirent = some i → usedEntry s.fs.data i) : SessionLinks (s.add node) := by
  obtain ⟨live, G, hl, hu, hnodes⟩ := h
  refine ⟨live, G, hl, hu, fun n hmem i hi => ?_⟩
  rcases List.mem_append.mp hmem with hmem | hmem
  · exact hnodes n hmem i hi
  · exact hu i (hn n i (Option.mem_toList.mp hmem) hi)

theorem tinyfsFinddir_used {mem : Bool} {d : TinyfsData} {node n : Node} {name : CString} {i : Fin 256}
    (h : tinyfsFinddir mem d node name = some n) (hi : n.dirent = some i) : usedEntry d i := by
  unfold tinyfsFinddir at h
  split at h
  · cases h
  · split at h
    · cases h
    · rename_i k hk
      split at h
      · obtain rfl := Option.some.inj h
        obtain rfl : k = i := Option.some.inj hi
        exact (isEntry_iff.mp (firstFin_eq_some.mp hk).2.1).1
      · cases h

theorem tinyfsReaddir_used {mem : Bool} {d : TinyfsData} {node n : Node} {index : UInt32} {i : Fin 256}
    (h : tinyfsReaddir mem d node index = some n) (hi : n.dirent = some i) : usedEntry d i := by
  unfold tinyfsReaddir at h
  split at h
  · cases h
  · split at h
    · cases h
    · rename_i k hk
      split at h
      · obtain rfl := Option.some.inj h
        obtain rfl : k = i := Option.some.inj hi
        exact (mem_dirEntries.mp (List.mem_of_getElem? ((readdirLoop_eq d node.inode index).symm.trans hk))).1
      · cases h

theorem SessionLinks.read (h : SessionLinks s) {k : Nat} {node : Node} (hn : s.nodes[k]? = some node)
    (size offset : UInt32) : ∃ out fs, tinyfsRead s.fs node size offset = .ok (out, fs) ∧ SessionLinks { s with fs } := by
  obtain ⟨live, G, hl, hu, hnodes⟩ := h
  obtain ⟨out, fs, he, hdata⟩ := tinyfsRead_links hl (hnodes node (List.mem_of_getElem? hn)) size offset
  refine ⟨out, fs, he, live, G, ?_, ?_, hnodes⟩
  · rw [hdata]
    exact hl
  · rw [hdata]
    exact hu

/-- The node that is written through is replaced by one of the same entry, and the write uses no other entry. -/
theorem SessionLinks.write (h : SessionLinks s) {k : Nat} {node : Node} (hn : s.nodes[k]? = some node)
    (buffer : List UInt8) (offset : UInt32) :
    ∃ r node' fs, tinyfsWrite s.fs node buffer offset = .ok (r, node', fs) ∧
      SessionLinks ⟨fs, s.nodes.set k node'⟩ := by
  obtain ⟨live, G, hl, hu, hnodes⟩ := h
  have hlive := hnodes node (List.mem_of_getElem? hn)
  obtain ⟨r, node', fs, G', he, hl', hdirent⟩ := tinyfsWrite_links hl hlive buffer offset
  refine ⟨r, node', fs, he, live, G', hl', fun j hj => ?_, fun n hmem i hi => ?_⟩
  · cases hd : node.dirent with
    | none =>
      obtain ⟨-, -, rfl⟩ : -1 = r ∧ node = node' ∧ s.fs = fs := by simpa [tinyfsWrite, hd] using he
      exact hu j hj
    | some i =>
      by_cases hji : j = i
      · exact hji ▸ hlive i hd
      · unfold usedEntry at hj
        rw [(tinyfsWrite_frame hd he).1 j hji] at hj
        exact hu j hj
  · rcases List.mem_or_eq_of_mem_set hmem with hmem | rfl
    · exact hnodes n hmem i hi
    · exact hlive i (hdirent ▸ hi)

/-- **A call** returns, whatever becomes of its transfers, and keeps sets for the links. -/
theorem callStep_links (h : SessionLinks s) (call : TinyfsCall) :
    ∃ r s', callStep s call = .ok (r, s') ∧ SessionLinks s' := by
  cases call with
  | read k size offset =>
    cases hn : s.nodes[k]? with
    | none => exact ⟨none, s, by simp [callStep, hn], h⟩
    | some node =>
      obtain ⟨out, fs, he, h'⟩ := h.read hn size offset
      exact ⟨some out.1, { s with fs }, by simp [callStep, hn, he], h'⟩
  | op op =>
    cases op with
    | getRoot mem =>
      refine ⟨none, _, rfl, h.add fun n i hn hi => ?_⟩
      unfold tinyfsGetRoot at hn
      split at hn
      · obtain rfl := Option.some.inj hn
        cases hi
      · cases hn
    | finddir mem k name =>
      refine ⟨none, _, rfl, h.add fun n i hn hi => ?_⟩
      obtain ⟨node, -, hf⟩ := Option.bind_eq_some_iff.mp hn
      exact tinyfsFinddir_used hf hi
    | readdir mem k index =>
      refine ⟨none, _, rfl, h.add fun n i hn hi => ?_⟩
      obtain ⟨node, -, hf⟩ := Option.bind_eq_some_iff.mp hn
      exact tinyfsReaddir_used hf hi
    | create k name type =>
      cases hn : s.nodes[k]? with
      | none => exact ⟨none, s, by simp [callStep, tinyfsStep, hn], h⟩
      | some node =>
        obtain ⟨live, G, hl, hu, hnodes⟩ := h
        obtain ⟨live', hl', hle, hu'⟩ := tinyfsCreateNode_links hl hu node name type
        exact ⟨some (tinyfsCreateNode s.fs node name type).1,
          { s with fs := (tinyfsCreateNode s.fs node name type).2 }, by simp only [callStep, tinyfsStep, hn],
          live', G, hl', hu', fun n hmem i hi => hle i (hnodes n hmem i hi)⟩
    | write k buffer offset =>
      cases hn : s.nodes[k]? with
      | none => exact ⟨none, s, by simp [callStep, tinyfsStep, hn], h⟩
      | some node =>
        obtain ⟨r, node', fs, he, h'⟩ := h.write hn buffer offset
        exact ⟨some r, ⟨fs, s.nodes.set k node'⟩, by simp [callStep, tinyfsStep, hn, he], h'⟩
    | unlink k name =>
      cases hn : s.nodes[k]? with
      | none => exact ⟨none, s, by simp [callStep, tinyfsStep, hn], h⟩
      | some node =>
        obtain ⟨live, G, hl, hu, hnodes⟩ := h
        obtain ⟨r, fs, G', he, hl', hu'⟩ := tinyfsUnlink_links hl hu node name
        exact ⟨some r, { s with fs }, by simp [callStep, tinyfsStep, hn, he], live, G', hl', hu', hnodes⟩

end Sessions

/-- The session that starts when `tinyfs_mount` accepts a disk. -/
def mountSession (raw : Option TinyfsData) (device : CString) (disk : Disk) : Option Session :=
  match tinyfsMount raw device disk with
  | (none, _) => none
  | (some d, disk) => some ⟨⟨d, disk⟩, []⟩

/-- **Runs on a mounted disk.** When the tables that were read are sound, every run of calls returns: no call leaves
`fat[1024]` and every freeing loop ends. The budgets of the two copying loops are never what ends them. -/
theorem mounted_run {raw : Option TinyfsData} {device : CString} {disk : Disk} {s : Session}
    (hm : mountSession raw device disk = some s) (hs : SoundImage s.fs.data) :
    (∀ calls : List TinyfsCall, ∃ rs s', runFrom callStep s calls = .ok (rs, s')) ∧
    (∀ (d : TinyfsData) (size k bo : Nat) (cur : UInt32) (disk : Disk), bo < 512 →
      readLoop d size (size + k) cur bo [] disk = readLoop d size size cur bo [] disk) ∧
    ∀ (d : TinyfsData) (buffer : List UInt8) (size k bo : Nat) (cur : UInt32) (disk : Disk) (m : Mem), bo < 512 →
      writeLoop buffer size (size + k) d disk cur bo 0 m = writeLoop buffer size size d disk cur bo 0 m := by
  have hnodes : s.nodes = [] := by
    unfold mountSession at hm
    split at hm
    · cases hm
    · rw [← Option.some.inj hm]
  have hlinks : SessionLinks s := ⟨_, _, hs.links, fun _ hi => hi, by simp [hnodes]⟩
  refine ⟨fun calls => ?_, fun d size k bo cur disk hbo => readLoop_fuel d hbo (by simp) k cur disk,
    fun d buffer size k bo cur disk m hbo => writeLoop_fuel d buffer hbo (by omega) k cur disk m⟩
  obtain ⟨rs, s', hrun, -⟩ := runFrom_inv SessionLinks (fun s call h _ => callStep_links h call) hlinks
    (along_of_forall callStep (fun _ _ => trivial) s calls)
  exact ⟨rs, s', hrun⟩

/-! ## An image that is left -/

/-- Tables with one file of one byte, whose block number is not an index of the table. -/
def strayData : TinyfsData where
  sb := formatSuperblock
  fat := freshFat
  dirents := Vector.ofFn fun i =>
    if 1 = i.val then { emptyDirent with used := 1, firstBlock := 5000, size := 1 } else emptyDirent
  device := Vector.replicate 32 0

theorem strayData_get (i : Fin 256) : strayData.dirents.get i =
    if 1 = i.val then { emptyDirent with used := 1, firstBlock := 5000, size := 1 } else emptyDirent := by
  simp only [strayData, get_eq, Vector.getElem_ofFn]

/-- A disk with tables in their places is accepted. -/
theorem mountSession_unmounted {d : TinyfsData} (hp : Placed d.sb) :
    ∃ d', mountSession (some blankData) [] (unmounted d blankDisk) = some ⟨⟨d', unmounted d blankDisk⟩, []⟩ ∧
      d'.sb = d.sb ∧ d'.fat = d.fat ∧ d'.dirents = d.dirents ∧ (unmounted d blankDisk).Reliable := by
  have hfl := unmounted_flushed hp blankDisk_reliable
  obtain ⟨d', hm, hsb, hfat, hdir⟩ := mount_of_onDisk hp hfl.reliable hfl.onDisk blankData []
  exact ⟨d', by simp only [mountSession, hm], hsb, hfat, hdir, hfl.reliable⟩

/-- Get the root, find the file in it, read a byte of it. -/
def strayCalls : List TinyfsCall := [.op (.getRoot true), .op (.finddir true 0 []), .read 1 1 0]

/-- The disk is accepted, and the read uses 5000 as an index. -/
theorem strayCalls_leave : ∃ disk s, mountSession (some blankData) [] disk = some s ∧ disk.Reliable ∧
    runFrom callStep s strayCalls = .error .outOfBounds := by
  obtain ⟨d, hm, -, -, hdir, hr⟩ := mountSession_unmounted (d := strayData) formatSuperblock_layout.toPlaced
  have hget : ∀ i, d.dirents.get i = strayData.dirents.get i := fun i => by rw [hdir]
  have hget1 : d.dirents.get 1 = { emptyDirent with used := 1, firstBlock := 5000, size := 1 } := by
    rw [hget, strayData_get]
    rfl
  have hfind : tinyfsFinddir true d rootNode [] = some (nodeOf d 1) := by
    have hfirst : firstFin 0 (isEntry d rootNode.inode []) = some 1 := by
      refine firstFin_of_unique (Nat.zero_le _) (isEntry_iff.mpr ?_) fun j hj => ?_
      · rw [usedEntry, hget1]
        exact ⟨by decide, rfl, rfl⟩
      · by_contra hne
        have hne' : ¬ 1 = j.val := fun e => hne (Fin.ext e.symm)
        simp [isEntry, hget, strayData_get, hne', emptyDirent] at hj
    have hdir : rootNode.type = .directory := rfl
    simp [tinyfsFinddir, hdir, hfirst]
  refine ⟨_, _, hm, hr, ?_⟩
  generalize unmounted strayData blankDisk = disk at hr
  have hread : tinyfsRead ⟨d, disk⟩ (nodeOf d 1) 1 0 = .error .outOfBounds := by
    have hnode : (nodeOf d 1).dirent = some 1 := rfl
    have hne : (5000 : UInt32) ≠ eof := by decide
    simp [tinyfsRead, hnode, hget1, readWalk, readLoop, ataReadSectors_reliable hr, TinyfsData.fatGet, hne]
  simp [runFrom, strayCalls, callStep, tinyfsStep, Session.add, tinyfsGetRoot, hfind, hread]

/-- Create and write a file on the disk with one file. -/
theorem mounted_run_oneFile : ∃ s rs s', mountSession (some blankData) [] (unmounted oneFile.data blankDisk) = some s ∧
    runFrom callStep s [.op (.getRoot true), .op (.finddir true 0 []), .op (.write 1 [1] 0), .read 1 1 0] =
      .ok (rs, s') := by
  obtain ⟨d, hm, hsb, hfat, hdir, -⟩ := mountSession_unmounted (d := oneFile.data) formatSuperblock_layout.toPlaced
  have hentry : ∀ i, (d.dirents.get i).firstBlock = 0 ∧ (d.dirents.get i).size = 0 := fun i => by
    rw [hdir, oneFile_get]
    split <;> exact ⟨rfl, rfl⟩
  have hsound : SoundImage d := by
    refine ⟨.inl (by rw [hsb]; decide), fun i _ => by rw [(hentry i).1]; decide,
      fun i _ h0 => absurd (hentry i).1 h0, ?_⟩
    rintro (⟨i, -, -, hlt⟩ | ⟨i, j, c, -, -, -, h0, -⟩)
    · rw [(hentry i).2] at hlt
      exact absurd hlt (by decide)
    · exact absurd (hentry i).1 h0
  obtain ⟨rs, s', hrun⟩ := (mounted_run hm hsound).1 [.op (.getRoot true), .op (.finddir true 0 []),
    .op (.write 1 [1] 0), .read 1 1 0]
  exact ⟨_, rs, s', hm, hrun⟩

end AmqOs.Vfs
