import AmqOs.Vfs.VfsNames

/-!
# The directory tree

The tree is in the `parent_inode` fields of a flat table whose slots are used again. `Tree d` says that parents are
used directories and that following them from a used entry leads to the root; `Lineage` is a record, kept beside the
state, of which entry a slot held when its children were created.

- `Tree.resolve`: in a tree with unique names every used entry is reached by a path;
- `create_tree`, `unlink_tree`: a create keeps the tree when the name it stores is new, an unlink when the entry it
  removes has no children (`TreeSafe`);
- `tree_run` is the run lemma.
-/

set_option autoImplicit false

namespace AmqOs.Vfs

open AmqOs.Lib

/-- The entry above entry `i`, or 0 for the root. -/
def parentNext (d : TinyfsData) (i : Nat) : Option Nat :=
  if h : i < 256 then some (d.dirents.get ⟨i, h⟩).parentInode.toNat else none

/-- The entries from `i` up to the root. -/
abbrev Ancestry (d : TinyfsData) (i : Nat) (l : List Nat) : Prop := ChainTo (parentNext d) 0 i l

structure Tree (d : TinyfsData) : Prop where
  zero : ¬ usedEntry d 0
  parent : ∀ i, usedEntry d i → (d.dirents.get i).parentInode = 0 ∨
    ∃ j : Fin 256, (d.dirents.get i).parentInode = UInt32.ofNat j ∧ usedEntry d j ∧ (d.dirents.get j).isDirectory = 1
  ancestry : ∀ i : Fin 256, usedEntry d i → ∃ l, Ancestry d i l ∧ l.length ≤ 32
  names : UniqueNames d
  noSlash : ∀ i, usedEntry d i → slash ∉ (d.dirents.get i).cname
  kind : ∀ i, usedEntry d i → (d.dirents.get i).isDirectory = 0 ∨ (d.dirents.get i).isDirectory = 1

theorem toNat_ofNat_fin (j : Fin 256) : (UInt32.ofNat j).toNat = j.val := by
  rw [UInt32.toNat_ofNat']
  have hj := j.isLt
  omega

theorem inode_inj {i j : Fin 256} (h : UInt32.ofNat i = UInt32.ofNat j) : i = j :=
  Fin.ext (by rw [← toNat_ofNat_fin i, h, toNat_ofNat_fin])

theorem parentNext_fin (d : TinyfsData) (i : Fin 256) :
    parentNext d i = some (d.dirents.get i).parentInode.toNat := by
  simp [parentNext]

section Tree

variable {d d' : TinyfsData} {i : Fin 256}

/-- The entries above a used entry are used. -/
theorem Tree.ancestry_used (h : Tree d) {l : List Nat} (hi : usedEntry d i) (hl : Ancestry d i l) :
    ∀ x ∈ l, ∃ j : Fin 256, x = j.val ∧ usedEntry d j ∧
      (j = i ∨ ∃ k : Fin 256, usedEntry d k ∧ (d.dirents.get k).parentInode = UInt32.ofNat j) := by
  induction l generalizing i with
  | nil => simp
  | cons y l ih =>
    obtain ⟨rfl, hne, b, hb, hl'⟩ := ChainTo.cons_iff.mp hl
    rw [parentNext_fin] at hb
    obtain rfl := Option.some.inj hb
    intro x hx
    rcases List.mem_cons.mp hx with rfl | hx
    · exact ⟨i, rfl, hi, .inl rfl⟩
    · rcases h.parent i hi with h0 | ⟨j, hj, huj, -⟩
      · rw [h0] at hl'
        cases hl' with
        | nil => simp at hx
        | cons hne _ _ => exact absurd rfl hne
      · rw [hj, toNat_ofNat_fin] at hl'
        obtain ⟨k, rfl, huk, hk⟩ := ih huj hl' x hx
        refine ⟨k, rfl, huk, .inr ?_⟩
        rcases hk with rfl | hk
        · exact ⟨i, hi, hj⟩
        · exact hk

/-! ## Reaching entries -/

/-- The path with the given components. -/
def pathOf (cs : List CString) : CString := cs.flatMap fun c => slash :: c

theorem components_pathOf {cs : List CString} (h : ∀ c ∈ cs, c ≠ [] ∧ slash ∉ c) : components (pathOf cs) = cs := by
  induction cs using List.reverseRecOn with
  | nil => rfl
  | append_singleton cs c ih =>
    have hc := h c (by simp)
    have hsplit : pathOf (cs ++ [c]) = pathOf cs ++ slash :: c := by simp [pathOf]
    rw [hsplit, components_append hc.2, ih fun x hx => h x (by simp [hx]), component, if_neg hc.1]

/-- An entry with a unique name is found in its directory. -/
theorem UniqueNames.finddir (hn : UniqueNames d) (hi : usedEntry d i) {node : Node} (hd : node.type = .directory)
    (hp : (d.dirents.get i).parentInode = node.inode) :
    vfsFinddir true d node (d.dirents.get i).cname = some (nodeOf d i) := by
  refine vfsFinddir_eq_some.mpr ⟨rfl, hd, i, firstFin_of_unique (Nat.zero_le _) (isEntry_iff.mpr ⟨hi, hp, rfl⟩)
    fun j hj => ?_, rfl⟩
  obtain ⟨huj, hpj, hcj⟩ := isEntry_iff.mp hj
  exact hn.unique j i huj hi (hpj.trans hp.symm) hcj

theorem nodeOf_directory (h : (d.dirents.get i).isDirectory = 1) : (nodeOf d i).type = .directory := by
  simp [nodeOf, h]

/-- The names from the root down to a used entry lead to it. -/
theorem Tree.names_resolve (h : Tree d) {l : List Nat} (hi : usedEntry d i) (hl : Ancestry d i l) :
    ∃ cs, cs.length = l.length ∧ (∀ c ∈ cs, c ≠ [] ∧ slash ∉ c ∧ c.length ≤ 32) ∧
      resolveLoop (fun _ => true) d 0 cs rootNode = some (nodeOf d i) := by
  induction l generalizing i with
  | nil =>
    have h0 : i = 0 := Fin.ext (ChainTo.nil_iff.mp hl)
    exact absurd (h0 ▸ hi) h.zero
  | cons y l ih =>
    obtain ⟨-, -, b, hb, hl'⟩ := ChainTo.cons_iff.mp hl
    rw [ChainTo.cons_iff.mp hl |>.1.symm, parentNext_fin] at hb
    obtain rfl := Option.some.inj hb
    have hname := And.intro (h.names.nonempty i hi) (And.intro (h.noSlash i hi) (cname_length_le (d.dirents.get i)))
    rcases h.parent i hi with h0 | ⟨j, hj, huj, hdir⟩
    · rw [h0] at hl'
      have hnil : l = [] := hl'.unique ChainTo.nil
      subst hnil
      refine ⟨[] ++ [(d.dirents.get i).cname], rfl, by simpa using hname, ?_⟩
      exact resolveLoop_snoc.mpr ⟨rootNode, rfl, h.names.finddir hi rfl h0⟩
    · rw [hj, toNat_ofNat_fin] at hl'
      obtain ⟨cs, hlen, hcs, hres⟩ := ih huj hl'
      refine ⟨cs ++ [(d.dirents.get i).cname], by simp [hlen], fun c hc => ?_, ?_⟩
      · rcases List.mem_append.mp hc with hc | hc
        · exact hcs c hc
        · rw [List.mem_singleton.mp hc]
          exact hname
      · exact resolveLoop_snoc.mpr ⟨nodeOf d j, hres, h.names.finddir hi (nodeOf_directory hdir) hj⟩

/-- **Every used entry is reached by a path.** -/
theorem Tree.resolve {v : VfsState} (hv : v.rootNode = some rootNode) (h : Tree v.fs.data)
    (hi : usedEntry v.fs.data i) :
    ∃ path, vfsResolvePath (fun _ => true) v path = .ok (some (nodeOf v.fs.data i)) := by
  obtain ⟨l, hl, hlen⟩ := h.ancestry i hi
  obtain ⟨cs, hcl, hcs, hres⟩ := h.names_resolve hi hl
  have hcomp : components (pathOf cs) = cs := components_pathOf fun c hc => ⟨(hcs c hc).1, (hcs c hc).2.1⟩
  have hhead : (pathOf cs).head? = some slash := by
    cases cs with
    | nil =>
      have h0 : i = 0 := Fin.ext (ChainTo.nil_iff.mp (by simpa [List.length_eq_zero_iff.mp hcl.symm] using hl))
      exact absurd (h0 ▸ hi) h.zero
    | cons c cs => rfl
  have hcut : cs.map (·.take 255) = cs := by
    conv_rhs => rw [← List.map_id cs]
    refine List.map_congr_left fun c hc => List.take_of_length_le ?_
    have := (hcs c hc).2.2
    omega
  refine ⟨pathOf cs, ?_⟩
  rw [vfsResolvePath_eq hv _ hhead (by rw [hcomp]; omega), hcomp, hcut, hres]

/-- The directory that a path leads to is as deep as the path has components. -/
theorem Tree.depth (h : Tree d) {mem : Nat → Bool} {n : Nat} {ts : List CString} {m : Node}
    (hres : resolveLoop mem d n ts rootNode = some m) :
    (ts = [] ∧ m = rootNode) ∨
      ∃ j l, m = nodeOf d j ∧ usedEntry d j ∧ Ancestry d j.val l ∧ l.length = ts.length := by
  induction ts using List.reverseRecOn generalizing m with
  | nil => exact .inl ⟨rfl, (Option.some.inj hres).symm⟩
  | append_singleton ts t ih =>
    right
    obtain ⟨parent, h1, h2⟩ := resolveLoop_snoc.mp hres
    obtain ⟨-, -, j, hj, rfl⟩ := vfsFinddir_eq_some.mp h2
    obtain ⟨huj, hpj, -⟩ := isEntry_iff.mp (firstFin_eq_some.mp hj).2.1
    have hj0 : j.val ≠ 0 := fun e => h.zero ((show j = 0 from Fin.ext e) ▸ huj)
    have hnext : parentNext d j = some parent.inode.toNat := by rw [parentNext_fin, hpj]
    rcases ih h1 with ⟨rfl, rfl⟩ | ⟨k, l, rfl, -, hl, hlen⟩
    · exact ⟨j, [j.val], rfl, huj, .cons hj0 hnext .nil, rfl⟩
    · refine ⟨j, j.val :: l, rfl, huj, .cons hj0 hnext ?_, by simp [hlen]⟩
      have hk : (nodeOf d k).inode.toNat = k.val := toNat_ofNat_fin k
      rw [hk]
      exact hl

end Tree

/-! ## What the calls do to the tree -/

section Steps

variable {s s' : Tinyfs} {i : Fin 256}

/-- A create in the directory that a path leads to keeps the tree. -/
theorem create_tree {parent : Node} {q : CString} {type : FileType} (h : Tree s.data)
    (hc : Created s parent q type i s') {mem : Nat → Bool} {ts : List CString}
    (hres : resolveLoop mem s.data 0 ts rootNode = some parent) (hts : ts.length < 32) (hne : q ≠ [])
    (hslash : slash ∉ q) (habs : ∀ j, isEntry s.data parent.inode (q.take 31) j = false) : Tree s'.data := by
  have hi : (1 : Nat) ≤ i.val := (findFreeDirent_some hc.slot).1
  have hold : ∀ j, j ≠ i → usedEntry s'.data j → usedEntry s.data j := fun j hj hu =>
    ((hc.used_iff j).mp hu).resolve_left hj
  have hkeep : ∀ j, usedEntry s.data j → j ≠ i ∧ usedEntry s'.data j ∧
      s'.data.dirents.get j = s.data.dirents.get j := fun j hj => by
    have hji : j ≠ i := by
      rintro rfl
      exact hc.not_used hj
    exact ⟨hji, (hc.used_iff j).mpr (.inr hj), hc.other hji⟩
  have hancestry : ∀ j : Fin 256, usedEntry s.data j → ∀ l, Ancestry s.data j l → Ancestry s'.data j l :=
    fun j hj l hl => hl.congr fun x hx => by
      obtain ⟨k, rfl, huk, -⟩ := h.ancestry_used hj hl x hx
      rw [parentNext_fin, parentNext_fin, (hkeep k huk).2.2]
  -- the new entry is below its directory
  have hself := And.intro hc.parentInode (h.depth hres)
  refine ⟨fun h0 => ?_, fun j hj => ?_, fun j hj => ?_, hc.uniqueNames h.names hne habs, fun j hj => ?_,
    fun j hj => ?_⟩
  · have h0i : (0 : Fin 256) ≠ i := fun e => by rw [← e] at hi; simp at hi
    exact h.zero (hold 0 h0i h0)
  · by_cases hji : j = i
    · subst hji
      rw [hself.1]
      rcases hself.2 with ⟨-, rfl⟩ | ⟨k, l, rfl, huk, -, -⟩
      · exact .inl rfl
      · obtain ⟨-, hu', hd'⟩ := hkeep k huk
        refine .inr ⟨k, rfl, hu', ?_⟩
        rw [hd']
        have htype := hc.isDir
        rcases h.kind k huk with h0 | h1
        · simp [nodeOf, h0] at htype
        · exact h1
    · rw [hc.other hji]
      rcases h.parent j (hold j hji hj) with h0 | ⟨k, hk, huk, hdk⟩
      · exact .inl h0
      · obtain ⟨-, hu', hd'⟩ := hkeep k huk
        exact .inr ⟨k, hk, hu', by rw [hd']; exact hdk⟩
  · by_cases hji : j = i
    · subst hji
      have hnext : parentNext s'.data j = some parent.inode.toNat := by rw [parentNext_fin, hself.1]
      rcases hself.2 with ⟨-, rfl⟩ | ⟨k, l, rfl, huk, hl, hlen⟩
      · exact ⟨[j.val], .cons (by omega) hnext .nil, by simp⟩
      · refine ⟨j.val :: l, .cons (by omega) hnext ?_, by simp; omega⟩
        have hk : (nodeOf s.data k).inode.toNat = k.val := toNat_ofNat_fin k
        rw [hk]
        exact hancestry k huk l hl
    · obtain ⟨l, hl, hlen⟩ := h.ancestry j (hold j hji hj)
      exact ⟨l, hancestry j (hold j hji hj) l hl, hlen⟩
  · by_cases hji : j = i
    · subst hji
      rw [hc.cname]
      exact fun hm => hslash (List.mem_of_mem_take hm)
    · rw [hc.other hji]
      exact h.noSlash j (hold j hji hj)
  · by_cases hji : j = i
    · subst hji
      rw [hc.self]
      by_cases ht : type = .directory
      · exact .inr (by simp [createDirent, ht])
      · exact .inl (by simp [createDirent, ht])
    · rw [hc.other hji]
      exact h.kind j (hold j hji hj)

/-- Removing an entry without children keeps the tree. -/
theorem unlink_tree {live : Fin 256 → Prop} {ch : Fin 256 → List Nat} (h : Tree s.data)
    (hrm : Removed s live ch i s')
    (hleaf : ∀ j, usedEntry s.data j → (s.data.dirents.get j).parentInode ≠ UInt32.ofNat i) : Tree s'.data := by
  have hold : ∀ j, usedEntry s'.data j → j ≠ i ∧ usedEntry s.data j ∧
      s'.data.dirents.get j = s.data.dirents.get j := fun j hj => by
    obtain ⟨hji, hu⟩ := (hrm.used_iff j).mp hj
    exact ⟨hji, hu, hrm.freed.other j hji⟩
  refine ⟨fun h0 => h.zero (hold 0 h0).2.1, fun j hj => ?_, fun j hj => ?_, hrm.uniqueNames h.names, fun j hj => ?_,
    fun j hj => ?_⟩
  · obtain ⟨-, hu, hd⟩ := hold j hj
    rw [hd]
    rcases h.parent j hu with h0 | ⟨k, hk, huk, hdk⟩
    · exact .inl h0
    · have hki : k ≠ i := by
        rintro rfl
        exact hleaf j hu hk
      exact .inr ⟨k, hk, (hrm.used_iff k).mpr ⟨hki, huk⟩, by rw [hrm.freed.other k hki]; exact hdk⟩
  · obtain ⟨hji, hu, -⟩ := hold j hj
    obtain ⟨l, hl, hlen⟩ := h.ancestry j hu
    refine ⟨l, hl.congr fun x hx => ?_, hlen⟩
    obtain ⟨k, rfl, -, hk⟩ := h.ancestry_used hu hl x hx
    have hki : k ≠ i := by
      rintro rfl
      rcases hk with rfl | ⟨c, huc, hc⟩
      · exact hji rfl
      · exact hleaf c huc hc
    rw [parentNext_fin, parentNext_fin, hrm.freed.other k hki]
  · obtain ⟨-, hu, hd⟩ := hold j hj
    rw [hd]
    exact h.noSlash j hu
  · obtain ⟨-, hu, hd⟩ := hold j hj
    rw [hd]
    exact h.kind j hu

end Steps

/-! ## Where entries were created -/

/-- A record of the occupants of the slots: `born i` is the number of the call that made the entry now in slot `i`,
and `home i` the number of the call that made the directory in which that entry was created (0 for the root). -/
structure Lineage where
  clock : Nat
  born : Fin 256 → Nat
  home : Fin 256 → Nat

/-- The number of the directory that is in slot `inode` now. -/
def Lineage.at (g : Lineage) (inode : UInt32) : Nat :=
  if inode = 0 then 0 else if h : inode.toNat < 256 then g.born ⟨inode.toNat, h⟩ else 0

/-- The record after a call that took the tables from `d` to `d'`: an entry that is used now and was not used before
is new. -/
def Lineage.next (g : Lineage) (d d' : TinyfsData) : Lineage where
  clock := g.clock + 1
  born i := if usedEntry d' i ∧ ¬ usedEntry d i then g.clock + 1 else g.born i
  home i := if usedEntry d' i ∧ ¬ usedEntry d i then g.at (d'.dirents.get i).parentInode else g.home i

/-- Every used entry is in the directory in which it was created, not in a later one in the same slot. -/
def AtHome (g : Lineage) (d : TinyfsData) : Prop :=
  ∀ i, usedEntry d i → g.home i = g.at (d.dirents.get i).parentInode

/-- A call after which every parent is an entry that was used before keeps entries at home. -/
theorem AtHome.next {g : Lineage} {d d' : TinyfsData} (h : AtHome g d)
    (hold : ∀ i, usedEntry d' i → usedEntry d i →
      (d'.dirents.get i).parentInode = (d.dirents.get i).parentInode)
    (hpar : ∀ i, usedEntry d' i → (d'.dirents.get i).parentInode = 0 ∨
      ∃ j : Fin 256, (d'.dirents.get i).parentInode = UInt32.ofNat j ∧ usedEntry d j) :
    AtHome (g.next d d') d' := by
  intro i hi
  have hat : (g.next d d').at (d'.dirents.get i).parentInode = g.at (d'.dirents.get i).parentInode := by
    rcases hpar i hi with h0 | ⟨j, hj, huj⟩
    · simp [Lineage.at, h0]
    · simp only [Lineage.at, Lineage.next, hj, toNat_ofNat_fin, Fin.is_lt, dite_true, Fin.eta, huj, not_true_eq_false,
        and_false, if_false]
  rw [hat]
  by_cases hnew : usedEntry d i
  · rw [hold i hi hnew, ← h i hnew]
    simp [Lineage.next, hnew]
  · simp [Lineage.next, hi, hnew]

/-- A directory call with the record kept beside it. -/
def tracedStep (s : VfsState × Lineage) (op : DirOp) : Except Fault (Int × (VfsState × Lineage)) :=
  match dirStep s.1 op with
  | .error e => .error e
  | .ok (r, v) => .ok (r, (v, s.2.next s.1.fs.data v.fs.data))

/-! ## Runs -/

/-- A create: the table is full, or the name is not empty and, cut to 31 characters, is new in the directory. An
unlink: the entry it removes has no children. -/
def TreeSafe (s : VfsState × Lineage) : DirOp → Prop
  | .create mem path | .mkdir mem path => ∀ p q parent, InDir mem s.1 path.val p q parent →
      findFreeDirent s.1.fs.data = none ∨
        q ≠ [] ∧ (31 < q.length → ∀ j, isEntry s.1.fs.data parent.inode (q.take 31) j = false)
  | .unlink mem path => ∀ p q parent, InDir mem s.1 path.val p q parent →
      ∀ i, firstFin 0 (isNamed s.1.fs.data q) = some i →
        ∀ j, usedEntry s.1.fs.data j → (s.1.fs.data.dirents.get j).parentInode ≠ UInt32.ofNat i

structure TreeInv (s : VfsState × Lineage) : Prop where
  mount : MountInv s.1
  tree : Tree s.1.fs.data
  home : AtHome s.2 s.1.fs.data

theorem Tree.parent_used {d : TinyfsData} (h : Tree d) (i : Fin 256) (hi : usedEntry d i) :
    (d.dirents.get i).parentInode = 0 ∨ ∃ j : Fin 256, (d.dirents.get i).parentInode = UInt32.ofNat j ∧ usedEntry d j :=
  (h.parent i hi).imp id fun ⟨j, hj, huj, _⟩ => ⟨j, hj, huj⟩

/-- One create by path. -/
theorem create_traced {v : VfsState} {g : Lineage} (h : TreeInv (v, g)) (type : FileType) (mem : Nat → Bool)
    (path : ShortPath) (hsafe : ∀ p q parent, InDir mem v path.val p q parent → findFreeDirent v.fs.data = none ∨
      q ≠ [] ∧ (31 < q.length → ∀ j, isEntry v.fs.data parent.inode (q.take 31) j = false)) :
    ∃ r v', vfsCreateNode type mem v path.val = .ok (r, v') ∧ TreeInv (v', g.next v.fs.data v'.fs.data) := by
  obtain ⟨hm, ht, hh⟩ := h
  rcases dirStep_create hm.root hm.placed hm.reliable type mem path with he | ⟨p, q, parent, i, fs, hin, hc, hpar, he⟩
  · exact ⟨-1, v, he, hm, ht, hh.next (fun _ _ _ => rfl) ht.parent_used⟩
  · obtain ⟨hne, hcut⟩ := (hsafe p q parent hin).resolve_left fun hfull => by
      rw [hc.slot] at hfull
      cases hfull
    have habs : ∀ j, isEntry v.fs.data parent.inode (q.take 31) j = false := by
      by_cases hlen : 31 < q.length
      · exact hcut hlen
      · rw [List.take_of_length_le (by omega)]
        exact hc.absent
    have hts : (components p).length < 32 := by
      obtain ⟨-, hlen, -⟩ := ShortPath.parts hin.eq hin.name
      simp only [component, hne, if_false, List.length_singleton] at hlen
      omega
    refine ⟨0, { v with fs }, he, hm.created hc, create_tree ht hc hpar hts hne hin.name habs, hh.next ?_ ?_⟩
    · intro j _ hj
      have hji : j ≠ i := by
        rintro rfl
        exact hc.not_used hj
      rw [hc.other hji]
    · intro j hj
      by_cases hji : j = i
      · subst hji
        rw [hc.parentInode]
        rcases ht.depth hpar with ⟨-, rfl⟩ | ⟨k, l, rfl, huk, -, -⟩
        · exact .inl rfl
        · exact .inr ⟨k, rfl, huk⟩
      · rw [hc.other hji]
        exact ht.parent_used j (((hc.used_iff j).mp hj).resolve_left hji)

/-- **A directory call** that is safe keeps the tree. -/
theorem tracedStep_tree {s : VfsState × Lineage} (h : TreeInv s) {op : DirOp} (hsafe : TreeSafe s op) :
    ∃ r s', tracedStep s op = .ok (r, s') ∧ TreeInv s' := by
  obtain ⟨v, g⟩ := s
  cases op with
  | create mem path =>
    obtain ⟨r, v', he, h'⟩ := create_traced h .regular mem path hsafe
    exact ⟨r, _, by simp only [tracedStep, dirStep, vfsCreate, he], h'⟩
  | mkdir mem path =>
    obtain ⟨r, v', he, h'⟩ := create_traced h .directory mem path hsafe
    exact ⟨r, _, by simp only [tracedStep, dirStep, vfsMkdir, he], h'⟩
  | unlink mem path =>
    obtain ⟨hm, ht, hh⟩ := h
    obtain ⟨ch, hinv⟩ := hm.wellFormed
    rcases dirStep_unlink hm.root hinv (fun _ hi => hi) hm.reliable mem path with
      he | ⟨p, q, parent, i, fs, hin, hi, hrm, he⟩
    · exact ⟨-1, (v, g.next v.fs.data v.fs.data), by simp only [tracedStep, dirStep, he], hm, ht,
        hh.next (fun _ _ _ => rfl) ht.parent_used⟩
    · have hleaf := hsafe p q parent hin i hi
      refine ⟨0, ({ v with fs }, g.next v.fs.data fs.data), by simp only [tracedStep, dirStep, he], hm.removed hrm,
        unlink_tree ht hrm hleaf, hh.next ?_ ?_⟩
      · intro j hj _
        rw [hrm.freed.other j ((hrm.used_iff j).mp hj).1]
      · intro j hj
        obtain ⟨hji, hu⟩ := (hrm.used_iff j).mp hj
        rw [hrm.freed.other j hji]
        exact ht.parent_used j hu

theorem Fresh.tree {fs : Tinyfs} (h : Fresh fs) : Tree fs.data :=
  ⟨h.not_used 0, fun i hi => absurd hi (h.not_used i), fun i hi => absurd hi (h.not_used i), h.uniqueNames,
    fun i hi => absurd hi (h.not_used i), fun i hi => absurd hi (h.not_used i)⟩

/-- **The tree along a run** of safe directory calls on a fresh filesystem: parents are used directories, the parents
of a used entry lead to the root without a repetition, every used entry is reached by a path, and every used entry is
in the directory in which it was created. -/
theorem tree_run {disk : Disk} (hr : disk.Reliable) (raw : TinyfsData) (device : CString) {fs : Tinyfs}
    (hfs : formatAndMount raw device disk = some fs) {ops : List DirOp} {g : Lineage}
    (hops : Along tracedStep TreeSafe (vfsMounted fs, g) ops) :
    ∃ rs v g', runFrom tracedStep (vfsMounted fs, g) ops = .ok (rs, (v, g')) ∧ AtHome g' v.fs.data ∧
      ∀ i, usedEntry v.fs.data i →
        ((v.fs.data.dirents.get i).parentInode = 0 ∨ ∃ j : Fin 256,
          (v.fs.data.dirents.get i).parentInode = UInt32.ofNat j ∧ usedEntry v.fs.data j ∧
          (v.fs.data.dirents.get j).isDirectory = 1) ∧
        (∃ l, Ancestry v.fs.data i l ∧ l.Nodup) ∧
        ∃ path, vfsResolvePath (fun _ => true) v path = .ok (some (nodeOf v.fs.data i)) := by
  obtain ⟨fs', hfs', hfresh, -⟩ := formatAndMount_fresh hr raw device
  obtain rfl : fs' = fs := Option.some.inj (hfs'.symm.trans hfs)
  have hstart : TreeInv (vfsMounted fs', g) :=
    ⟨hfresh.mountInv, hfresh.tree, fun i hi => absurd hi (hfresh.not_used i)⟩
  obtain ⟨rs, ⟨v, g'⟩, hrun, hm, ht, hh⟩ := runFrom_inv TreeInv (fun s op h hs => tracedStep_tree h hs) hstart hops
  refine ⟨rs, v, g', hrun, hh, fun i hi => ⟨ht.parent i hi, ?_, ht.resolve hm.root hi⟩⟩
  obtain ⟨l, hl, -⟩ := ht.ancestry i hi
  exact ⟨l, hl, hl.nodup⟩

/-! ## A directory removed with a file in it -/

def nameD : CString := [⟨100, by decide⟩]

/-- The path `/d/a`. -/
def pathDA : ShortPath := ⟨slash :: nameD ++ slash :: nameA, by decide, by decide⟩

/-- `/d` is made on a fresh filesystem, and `/d/a` in it. -/
structure Nested (fs fs₁ fs₂ : Tinyfs) (i j : Fin 256) : Prop where
  dir : Created fs rootNode nameD .directory i fs₁
  file : Created fs₁ (nodeOf fs₁.data i) nameA .regular j fs₂
  ne : i ≠ j
  used : ∀ l, usedEntry fs₂.data l → l = i ∨ l = j
  mount : MountInv { vfsMounted fs with fs := fs₂ }
  mkdir : dirStep (vfsMounted fs) (.mkdir (fun _ => true) (rootPath nameD (by decide))) =
    .ok (0, { vfsMounted fs with fs := fs₁ })
  create : dirStep { vfsMounted fs with fs := fs₁ } (.create (fun _ => true) pathDA) =
    .ok (0, { vfsMounted fs with fs := fs₂ })

theorem Fresh.nested {fs : Tinyfs} (h : Fresh fs) : ∃ fs₁ fs₂ i j, Nested fs fs₁ fs₂ i j := by
  have hm := h.mountInv
  obtain ⟨i, fs₁, he₁, hc₁⟩ := (rootPath_inDir hm.root (fun _ => true) nameD (by decide)).create_ok hm.placed
    hm.reliable .directory (fun j hj => absurd hj (h.not_used j)) (k := 1) (by decide) (h.not_used 1)
  have hm₁ := hm.created hc₁
  have hused₁ : ∀ j, usedEntry fs₁.data j → j = i := fun j hj =>
    ((hc₁.used_iff j).mp hj).resolve_right (h.not_used j)
  -- the file in the directory
  have hin : InDir (fun _ => true) { vfsMounted fs with fs := fs₁ } pathDA.val (slash :: nameD) nameA
      (nodeOf fs₁.data i) := by
    refine ⟨rfl, by decide, fun _ => rfl, ?_, by rw [nodeOf, hc₁.self]; rfl⟩
    rw [resolve_parent hm₁.root _ (fun _ => rfl) (by decide) (by decide)]
    exact congrArg _ (resolveLoop_snoc.mpr ⟨rootNode, rfl, hc₁.found (by decide)⟩)
  obtain ⟨k, hk, hki⟩ : ∃ k : Fin 256, 1 ≤ k.val ∧ k ≠ i := by
    by_cases h1 : i = 1
    · exact ⟨2, by decide, by rw [h1]; decide⟩
    · exact ⟨1, by decide, Ne.symm h1⟩
  obtain ⟨j, fs₂, he₂, hc₂⟩ := hin.create_ok hm₁.placed hm₁.reliable .regular
    (fun j hj => by
      rw [hused₁ j hj, hc₁.cname]
      decide) hk fun hu => hki (hused₁ k hu)
  have hij : i ≠ j := by
    rintro rfl
    exact hc₂.not_used ((hc₁.used_iff i).mpr (.inl rfl))
  refine ⟨fs₁, fs₂, i, j, hc₁, hc₂, hij, fun l hl => ?_, hm₁.created hc₂, he₁, he₂⟩
  rcases (hc₂.used_iff l).mp hl with hlj | hl₁
  · exact .inr hlj
  · exact .inl (hused₁ l hl₁)

namespace Nested

variable {fs fs₁ fs₂ : Tinyfs} {i j l : Fin 256}

theorem dir_used (h : Nested fs fs₁ fs₂ i j) : usedEntry fs₂.data i :=
  (h.file.used_iff i).mpr (.inr ((h.dir.used_iff i).mpr (.inl rfl)))

theorem file_used (h : Nested fs fs₁ fs₂ i j) : usedEntry fs₂.data j := (h.file.used_iff j).mpr (.inl rfl)

theorem dir_ne_zero (h : Nested fs fs₁ fs₂ i j) : i ≠ 0 := by
  rintro rfl
  exact absurd (findFreeDirent_some h.dir.slot).1 (by decide)

theorem dir_name (h : Nested fs fs₁ fs₂ i j) : (fs₂.data.dirents.get i).cname = nameD := by
  rw [h.file.other h.ne, h.dir.cname]
  rfl

theorem dir_parent (h : Nested fs fs₁ fs₂ i j) : (fs₂.data.dirents.get i).parentInode = 0 := by
  rw [h.file.other h.ne, h.dir.parentInode]
  rfl

theorem file_parent (h : Nested fs fs₁ fs₂ i j) : (fs₂.data.dirents.get j).parentInode = UInt32.ofNat i :=
  h.file.parentInode

end Nested

/-- Make `/d`, create `/d/a`, unlink `/d`. -/
def orphanOps : List DirOp :=
  [.mkdir (fun _ => true) (rootPath nameD (by decide)), .create (fun _ => true) pathDA,
    .unlink (fun _ => true) (rootPath nameD (by decide))]

/-- All three calls return 0, and the parent of the file is a slot that is no longer used. -/
theorem orphanOps_orphan : ∃ fs v, ∃ i j : Fin 256, formatAndMount blankData [] blankDisk = some fs ∧
    runFrom dirStep (vfsMounted fs) orphanOps = .ok ([0, 0, 0], v) ∧ usedEntry v.fs.data j ∧
    (v.fs.data.dirents.get j).parentInode = UInt32.ofNat i ∧ i ≠ 0 ∧ ¬ usedEntry v.fs.data i := by
  obtain ⟨fs, hfs, hfresh, -⟩ := formatAndMount_fresh blankDisk_reliable blankData []
  obtain ⟨fs₁, fs₂, i, j, h⟩ := hfresh.nested
  -- the directory is the first entry with its name
  have hfirst : firstFin 0 (isNamed fs₂.data nameD) = some i := by
    refine firstFin_of_unique (Nat.zero_le _) (isNamed_iff.mpr ⟨h.dir_used, h.dir_name⟩) fun l hl => ?_
    obtain ⟨hul, hcl⟩ := isNamed_iff.mp hl
    rcases h.used l hul with rfl | rfl
    · rfl
    · rw [h.file.cname] at hcl
      exact absurd hcl (by decide)
  obtain ⟨ch, hinv⟩ := h.mount.wellFormed
  obtain ⟨fs₃, he₃, hrm⟩ := (rootPath_inDir h.mount.root (fun _ => true) nameD (by decide)).unlink_ok hinv
    (fun _ hu => hu) h.mount.reliable hfirst
  refine ⟨fs, ⟨fs₃, some rootNode, closedTable⟩, i, j, hfs, ?_, (hrm.used_iff j).mpr ⟨Ne.symm h.ne, h.file_used⟩, ?_,
    h.dir_ne_zero, fun hu => ((hrm.used_iff i).mp hu).1 rfl⟩
  · exact runFrom_cons h.mkdir (runFrom_cons h.create (runFrom_cons he₃ runFrom_nil))
  · rw [hrm.freed.other j (Ne.symm h.ne), h.file_parent]

/-- Make `/d`, create `/d/a`, unlink `/d/a`. -/
def leafOps : List DirOp :=
  [.mkdir (fun _ => true) (rootPath nameD (by decide)), .create (fun _ => true) pathDA,
    .unlink (fun _ => true) pathDA]

/-- The calls are safe: only the file is removed. -/
theorem Nested.safe {fs fs₁ fs₂ : Tinyfs} {i j : Fin 256} (h : Nested fs fs₁ fs₂ i j) (g : Lineage) :
    Along tracedStep TreeSafe (vfsMounted fs, g) leafOps := by
  have hname : ∀ {path p q : CString}, path = p ++ slash :: q → slash ∉ q → ∀ {p' q' : CString},
      path = p' ++ slash :: q' → slash ∉ q' → q' = q := by
    intro path p q hpath hq p' q' hpath' hq'
    exact (split_unique (hpath'.symm.trans hpath) hq' hq).2
  have htraced : ∀ {v v' : VfsState} {op : DirOp} {r : Int} (g : Lineage), dirStep v op = .ok (r, v') →
      tracedStep (v, g) op = .ok (r, (v', g.next v.fs.data v'.fs.data)) := by
    intro v v' op r g he
    simp only [tracedStep, he]
  refine (along_cons_ok (htraced g h.mkdir)).mp ⟨fun p q parent hin => .inr ?_,
    (along_cons_ok (htraced _ h.create)).mp ⟨fun p q parent hin => .inr ?_, fun p q parent hin l hl k hk => ?_,
      fun _ _ _ => trivial⟩⟩
  · obtain rfl := hname (show (rootPath nameD (by decide)).val = [] ++ slash :: nameD from rfl) (by decide) hin.eq hin.name
    exact ⟨by decide, fun hlong => absurd hlong (by decide)⟩
  · obtain rfl := hname (show pathDA.val = (slash :: nameD) ++ slash :: nameA from rfl) (by decide) hin.eq hin.name
    exact ⟨by decide, fun hlong => absurd hlong (by decide)⟩
  · obtain rfl := hname (show pathDA.val = (slash :: nameD) ++ slash :: nameA from rfl) (by decide) hin.eq hin.name
    -- the entry with the name of the file is the file, and no entry has it as its parent
    obtain ⟨hul, hcl⟩ := isNamed_iff.mp (firstFin_eq_some.mp hl).2.1
    obtain rfl : l = j := (h.used l hul).resolve_left fun hli => by
      rw [hli, h.dir_name] at hcl
      exact absurd hcl (by decide)
    have hl0 : l ≠ 0 := by
      rintro rfl
      exact absurd (findFreeDirent_some h.file.slot).1 (by decide)
    rcases h.used k hk with rfl | rfl
    · rw [h.dir_parent]
      exact fun h0 => hl0 (inode_inj (show UInt32.ofNat _ = UInt32.ofNat (0 : Fin 256) from h0.symm))
    · rw [h.file_parent]
      exact fun heq => h.ne (inode_inj heq)

theorem tree_run_blank : ∃ fs rs v g', formatAndMount blankData [] blankDisk = some fs ∧
    runFrom tracedStep (vfsMounted fs, ⟨0, fun _ => 0, fun _ => 0⟩) leafOps = .ok (rs, (v, g')) ∧ AtHome g' v.fs.data ∧
    ∀ i, usedEntry v.fs.data i →
      ((v.fs.data.dirents.get i).parentInode = 0 ∨ ∃ j : Fin 256,
        (v.fs.data.dirents.get i).parentInode = UInt32.ofNat j ∧ usedEntry v.fs.data j ∧
        (v.fs.data.dirents.get j).isDirectory = 1) ∧
      (∃ l, Ancestry v.fs.data i l ∧ l.Nodup) ∧
      ∃ path, vfsResolvePath (fun _ => true) v path = .ok (some (nodeOf v.fs.data i)) := by
  obtain ⟨fs, hfs, hfresh, -⟩ := formatAndMount_fresh blankDisk_reliable blankData []
  obtain ⟨fs₁, fs₂, i, j, h⟩ := hfresh.nested
  obtain ⟨rs, v, g', hrun, hh, hall⟩ := tree_run blankDisk_reliable blankData [] hfs
    (h.safe ⟨0, fun _ => 0, fun _ => 0⟩)
  exact ⟨fs, rs, v, g', hfs, hrun, hh, hall⟩

end AmqOs.Vfs
