import AmqOs.Vfs.TinyfsFiles
import AmqOs.Vfs.VfsDefs

/-!
# Enumerating a directory and looking up a name

`dirEntries d inode` are the used entries of a directory in the order of the table. `tinyfs_readdir` with index `k`
returns the `k`-th of them (`tinyfsReaddir_eq`), so the loop of `vfs_list_directory` runs through them all
(`vfsListDirectory_eq`); when their names are distinct, `tinyfs_finddir` finds each of them by its name and nothing
else (`readdir_finddir_agree`).
-/

set_option autoImplicit false

namespace AmqOs.Vfs

open AmqOs.Lib

/-- The test of the loop of `tinyfs_readdir`. -/
def inDirectory (d : TinyfsData) (inode : UInt32) (i : Fin 256) : Bool :=
  decide ((d.dirents.get i).used ≠ 0 ∧ (d.dirents.get i).parentInode = inode)

/-- The used entries of a directory, in the order of the table. -/
def dirEntries (d : TinyfsData) (inode : UInt32) : List (Fin 256) := (List.finRange 256).filter (inDirectory d inode)

section Entries

variable {d : TinyfsData} {inode : UInt32} {i : Fin 256}

theorem mem_dirEntries : i ∈ dirEntries d inode ↔ usedEntry d i ∧ (d.dirents.get i).parentInode = inode := by
  simp [dirEntries, inDirectory, usedEntry]

theorem dirEntries_nodup (d : TinyfsData) (inode : UInt32) : (dirEntries d inode).Nodup :=
  (List.nodup_finRange 256).filter _

theorem length_dirEntries_le (d : TinyfsData) (inode : UInt32) : (dirEntries d inode).length ≤ 256 := by
  simpa [dirEntries] using List.length_filter_le (inDirectory d inode) (List.finRange 256)

/-! ## Enumerating -/

/-- The loop from entry `i` on, with `count` entries of the directory behind it. -/
theorem readdirLoop_from (d : TinyfsData) (inode index : UInt32) {n i : Nat} {count : UInt32} (hi : i + n = 256)
    (hc : count.toNat ≤ i) (hle : count.toNat ≤ index.toNat) :
    readdirLoop d inode index n i count =
      (((List.finRange 256).drop i).filter (inDirectory d inode))[index.toNat - count.toNat]? := by
  induction n generalizing i count with
  | zero =>
    have hend : (List.finRange 256).drop i = [] := List.drop_eq_nil_of_le (by simp; omega)
    simp [readdirLoop, hend]
  | succ n ih =>
    have hlt : i < 256 := by omega
    have hdrop : (List.finRange 256).drop i = ⟨i, hlt⟩ :: (List.finRange 256).drop (i + 1) := by
      rw [List.drop_eq_getElem_cons (by simpa using hlt)]
      simp
    rw [hdrop]
    by_cases hin : (d.dirents.get ⟨i, hlt⟩).used ≠ 0 ∧ (d.dirents.get ⟨i, hlt⟩).parentInode = inode
    · have hin' : inDirectory d inode ⟨i, hlt⟩ = true := decide_eq_true hin
      rw [List.filter_cons_of_pos hin']
      by_cases hcount : count = index
      · subst hcount
        simp [readdirLoop, hlt, hin]
      · have hne : count.toNat ≠ index.toNat := fun e => hcount (UInt32.toNat_inj.mp e)
        have hsucc : (count + 1).toNat = count.toNat + 1 := by
          rw [UInt32.toNat_add]
          simp only [UInt32.toNat_one]
          omega
        rw [show index.toNat - count.toNat = (index.toNat - (count + 1).toNat) + 1 by omega, List.getElem?_cons_succ,
          ← ih (by omega) (by omega) (by omega)]
        simp only [readdirLoop, hlt, dite_true, hin, ne_eq, not_false_eq_true, and_self, if_true, hcount, if_false]
    · have hin' : ¬ inDirectory d inode ⟨i, hlt⟩ = true := fun h => hin (of_decide_eq_true h)
      rw [List.filter_cons_of_neg hin', ← ih (by omega) (by omega) hle]
      simp only [readdirLoop, hlt, dite_true, hin, if_false]

theorem readdirLoop_eq (d : TinyfsData) (inode index : UInt32) :
    readdirLoop d inode index 256 0 0 = (dirEntries d inode)[index.toNat]? := by
  have hloop := @readdirLoop_from d inode index 256 0 0 rfl (by simp) (by simp)
  rwa [List.drop_zero, UInt32.toNat_zero, Nat.sub_zero] at hloop

/-- **Enumerating**: index `k` gives the `k`-th entry of the directory. -/
theorem tinyfsReaddir_eq {node : Node} (hd : node.type = .directory) (index : UInt32) :
    tinyfsReaddir true d node index = (dirEntries d node.inode)[index.toNat]?.map (nodeOf d) := by
  unfold tinyfsReaddir
  rw [readdirLoop_eq]
  cases (dirEntries d node.inode)[index.toNat]? <;> simp [hd]

/-- The loop of `vfs_list_directory` from index `i` on. -/
theorem listLoop_eq {dir : Node} (hd : dir.type = .directory) (fuel : Nat) {i : UInt32} (hi : i.toNat ≤ 256)
    (hfuel : (dirEntries d dir.inode).length < i.toNat + fuel) :
    listLoop (fun _ => true) d dir fuel i = ((dirEntries d dir.inode).drop i.toNat).map (nodeOf d) := by
  have hlen := length_dirEntries_le d dir.inode
  induction fuel generalizing i with
  | zero => simp [listLoop, List.drop_eq_nil_of_le (show (dirEntries d dir.inode).length ≤ i.toNat by omega)]
  | succ fuel ih =>
    have hread : vfsReaddir true d dir i = (dirEntries d dir.inode)[i.toNat]?.map (nodeOf d) := by
      simp only [vfsReaddir, hd, ne_eq, not_true_eq_false, if_false, tinyfsReaddir_eq hd]
    by_cases hlt : i.toNat < (dirEntries d dir.inode).length
    · have hsucc : (i + 1).toNat = i.toNat + 1 := by
        rw [UInt32.toNat_add]
        simp only [UInt32.toNat_one]
        omega
      rw [List.getElem?_eq_getElem hlt, Option.map_some] at hread
      rw [List.drop_eq_getElem_cons hlt, List.map_cons, ← hsucc, ← ih (by omega) (by omega)]
      simp only [listLoop, hread]
    · have hend := List.drop_eq_nil_of_le (show (dirEntries d dir.inode).length ≤ i.toNat by omega)
      rw [List.getElem?_eq_none (by omega), Option.map_none] at hread
      simp [listLoop, hread, hend]

/-- **Listing** a directory prints each of its entries once. -/
theorem vfsListDirectory_eq {v : VfsState} {mem : Nat → Bool} {path : CString} {dir : Node}
    (hres : vfsResolvePath mem v path = .ok (some dir)) (hd : dir.type = .directory) :
    vfsListDirectory mem (fun _ => true) v path = .ok ((dirEntries v.fs.data dir.inode).map (nodeOf v.fs.data)) := by
  have hlen := length_dirEntries_le v.fs.data dir.inode
  have hloop := listLoop_eq (d := v.fs.data) hd 257 (i := 0) (by simp) (by simp; omega)
  simp only [UInt32.toNat_zero, List.drop_zero] at hloop
  simp [vfsListDirectory, hres, hd, hloop]

/-! ## Looking up -/

/-- The name of an entry fits the node. -/
theorem nodeOf_name (d : TinyfsData) (i : Fin 256) : (nodeOf d i).name = (d.dirents.get i).cname :=
  List.take_of_length_le (le_trans (cname_length_le _) (by omega))

/-- An entry whose name no other entry of the directory has is found. -/
theorem tinyfsFinddir_of_distinct {node : Node} (hd : node.type = .directory)
    (hn : ∀ i ∈ dirEntries d node.inode, ∀ j ∈ dirEntries d node.inode,
      (d.dirents.get i).cname = (d.dirents.get j).cname → i = j) (hi : i ∈ dirEntries d node.inode) :
    tinyfsFinddir true d node (d.dirents.get i).cname = some (nodeOf d i) := by
  obtain ⟨hu, hp⟩ := mem_dirEntries.mp hi
  have hfirst : firstFin 0 (isEntry d node.inode (d.dirents.get i).cname) = some i := by
    refine firstFin_of_unique (Nat.zero_le _) (isEntry_iff.mpr ⟨hu, hp, rfl⟩) fun j hj => ?_
    obtain ⟨huj, hpj, hcj⟩ := isEntry_iff.mp hj
    exact hn j (mem_dirEntries.mpr ⟨huj, hpj⟩) i hi hcj
  simp [tinyfsFinddir, hd, hfirst]

/-- A name that is found is the name of an entry of the directory. -/
theorem tinyfsFinddir_isSome {node : Node} (hd : node.type = .directory) (name : CString) :
    (tinyfsFinddir true d node name).isSome ↔ ∃ i ∈ dirEntries d node.inode, (d.dirents.get i).cname = name := by
  cases hf : firstFin 0 (isEntry d node.inode name) with
  | none =>
    refine iff_of_false (by simp [tinyfsFinddir, hd, hf]) ?_
    rintro ⟨i, hi, hc⟩
    obtain ⟨hu, hp⟩ := mem_dirEntries.mp hi
    have hno := firstFin_eq_none.mp hf i (Nat.zero_le _)
    rw [isEntry_iff.mpr ⟨hu, hp, hc⟩] at hno
    cases hno
  | some i =>
    obtain ⟨hu, hp, hc⟩ := isEntry_iff.mp (firstFin_eq_some.mp hf).2.1
    exact iff_of_true (by simp [tinyfsFinddir, hd, hf]) ⟨i, mem_dirEntries.mpr ⟨hu, hp⟩, hc⟩

/-- **Enumerating and looking up agree** on a directory whose entries have distinct names: the indices from 0 give
every entry once and then nothing, each of the nodes is also what its name leads to, and no other name leads
anywhere. -/
theorem readdir_finddir_agree {node : Node} (hd : node.type = .directory)
    (hn : ∀ i ∈ dirEntries d node.inode, ∀ j ∈ dirEntries d node.inode,
      (d.dirents.get i).cname = (d.dirents.get j).cname → i = j) :
    ∃ es : List (Fin 256), es.Nodup ∧ (∀ i, i ∈ es ↔ usedEntry d i ∧ (d.dirents.get i).parentInode = node.inode) ∧
      (∀ index, tinyfsReaddir true d node index = es[index.toNat]?.map (nodeOf d)) ∧
      (∀ index m, tinyfsReaddir true d node index = some m → ∃ m', tinyfsFinddir true d node m.name = some m' ∧
        m'.inode = m.inode ∧ m'.type = m.type ∧ m'.size = m.size) ∧
      ∀ name, (tinyfsFinddir true d node name).isSome ↔
        ∃ index m, tinyfsReaddir true d node index = some m ∧ m.name = name := by
  refine ⟨dirEntries d node.inode, dirEntries_nodup _ _, fun i => mem_dirEntries, tinyfsReaddir_eq hd,
    fun index m hm => ?_, fun name => ?_⟩
  · rw [tinyfsReaddir_eq hd, Option.map_eq_some_iff] at hm
    obtain ⟨i, hi, rfl⟩ := hm
    rw [nodeOf_name]
    exact ⟨_, tinyfsFinddir_of_distinct hd hn (List.mem_of_getElem? hi), rfl, rfl, rfl⟩
  · rw [tinyfsFinddir_isSome hd]
    constructor
    · rintro ⟨i, hi, rfl⟩
      obtain ⟨k, hk, hki⟩ := List.getElem_of_mem hi
      have hle := length_dirEntries_le d node.inode
      have hkn : (UInt32.ofNat k).toNat = k := by
        rw [UInt32.toNat_ofNat']
        omega
      refine ⟨UInt32.ofNat k, nodeOf d i, ?_, nodeOf_name d i⟩
      rw [tinyfsReaddir_eq hd, hkn, List.getElem?_eq_getElem hk, hki]
      rfl
    · rintro ⟨index, m, hm, rfl⟩
      rw [tinyfsReaddir_eq hd, Option.map_eq_some_iff] at hm
      obtain ⟨i, hi, rfl⟩ := hm
      exact ⟨i, List.mem_of_getElem? hi, (nodeOf_name d i).symm⟩

end Entries

/-- The root has the entries 1 and 3. -/
theorem nestedData_root {i : Fin 256} (hi : i ∈ dirEntries nestedData rootNode.inode) :
    i = 1 ∧ (nestedData.dirents.get i).cname = nameA ∨ i = 3 ∧ (nestedData.dirents.get i).cname = nameB := by
  obtain ⟨hu, hp⟩ := mem_dirEntries.mp hi
  rw [usedEntry, nestedData_get] at hu
  rw [nestedData_get] at hp ⊢
  by_cases h1 : 1 = i.val
  · rw [if_pos h1]
    exact .inl ⟨Fin.ext h1.symm, by decide⟩
  · rw [if_neg h1] at hu hp ⊢
    by_cases h2 : 2 = i.val
    · rw [if_pos h2] at hp
      exact absurd hp (by decide)
    · rw [if_neg h2] at hu ⊢
      by_cases h3 : 3 = i.val
      · rw [if_pos h3]
        exact .inr ⟨Fin.ext h3.symm, by decide⟩
      · rw [if_neg h3] at hu
        exact absurd rfl hu

theorem readdir_finddir_agree_nested :
    ∃ es : List (Fin 256), es.Nodup ∧
      (∀ i, i ∈ es ↔ usedEntry nestedData i ∧ (nestedData.dirents.get i).parentInode = rootNode.inode) ∧
      (∀ index, tinyfsReaddir true nestedData rootNode index = es[index.toNat]?.map (nodeOf nestedData)) ∧
      (∀ index m, tinyfsReaddir true nestedData rootNode index = some m →
        ∃ m', tinyfsFinddir true nestedData rootNode m.name = some m' ∧ m'.inode = m.inode ∧ m'.type = m.type ∧
          m'.size = m.size) ∧
      ∀ name, (tinyfsFinddir true nestedData rootNode name).isSome ↔
        ∃ index m, tinyfsReaddir true nestedData rootNode index = some m ∧ m.name = name := by
  refine readdir_finddir_agree rfl fun i hi j hj hname => ?_
  rcases nestedData_root hi with ⟨rfl, hi'⟩ | ⟨rfl, hi'⟩ <;> rcases nestedData_root hj with ⟨rfl, hj'⟩ | ⟨rfl, hj'⟩
  · rfl
  · exact absurd (hi'.symm.trans (hname.trans hj')) (by decide)
  · exact absurd (hi'.symm.trans (hname.trans hj')) (by decide)
  · rfl

end AmqOs.Vfs
