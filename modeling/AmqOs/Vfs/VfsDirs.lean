import AmqOs.Vfs.TinyfsRun
import AmqOs.Vfs.VfsPaths

/-!
# Directory calls

What `vfs_create`, `vfs_mkdir` and `vfs_unlink` do on a mounted filesystem when the directory part of the path fits
the fixed buffers (`SplitFits`): the call is refused, or one entry is created in the directory the path leads to
(`vfsCreateNode_spec`), or one entry is removed (`vfsUnlink_spec`).

`DirOp` is a call on a path that fits as a whole, and `dirStep` performs it.
-/

set_option autoImplicit false

namespace AmqOs.Vfs

open AmqOs.Lib

/-- The part before the last slash fits `parent_path` and has at most 32 components. -/
def SplitFits (path : CString) : Prop :=
  ∀ p q, path = p ++ slash :: q → slash ∉ q → p.length < 256 ∧ (components p).length ≤ 32

/-- The path is `p/q`, and `p` leads to the directory `parent`. -/
structure InDir (mem : Nat → Bool) (v : VfsState) (path p q : CString) (parent : Node) : Prop where
  eq : path = p ++ slash :: q
  name : slash ∉ q
  head : p ≠ [] → p.head? = some slash
  resolves : vfsResolvePath mem v (parentOf p) = .ok (some parent)
  isDir : parent.type = .directory

section Calls

variable {v : VfsState} {mem : Nat → Bool} {path p q : CString}

theorem map_take_components (h : p.length ≤ 255) : (components p).map (·.take 255) = components p := by
  conv_rhs => rw [← List.map_id (components p)]
  refine List.map_congr_left fun c hc => ?_
  have hlen := length_componentsFrom_le [] p c hc
  exact List.take_of_length_le (by simpa using le_trans hlen (by simpa using h))

/-- Resolving the directory part of a path. -/
theorem resolve_parent (hv : v.rootNode = some rootNode) (mem : Nat → Bool) (hp : p ≠ [] → p.head? = some slash)
    (hlen : p.length < 256) (hc : (components p).length ≤ 32) :
    vfsResolvePath mem v (parentOf p) = .ok (resolveLoop mem v.fs.data 0 (components p) rootNode) := by
  rw [vfsResolvePath_eq hv mem (parentOf_head hp) (by rw [components_parentOf]; omega), components_parentOf,
    map_take_components (by omega)]

/-- **Creating** by path: refused, or one entry more in the directory of the path. -/
theorem vfsCreateNode_spec (hv : v.rootNode = some rootNode) (hp : Placed v.fs.data.sb) (hr : v.fs.disk.Reliable)
    (type : FileType) (mem : Nat → Bool) (hfit : SplitFits path) :
    vfsCreateNode type mem v path = .ok (-1, v) ∨
      ∃ p q parent i fs, InDir mem v path p q parent ∧ Created v.fs parent (q.take 255) type i fs ∧
        resolveLoop mem v.fs.data 0 (components p) rootNode = some parent ∧
        vfsCreateNode type mem v path = .ok (0, { v with fs }) := by
  by_cases hh : path.head? = some slash
  · obtain ⟨p, q, he, hq, hhead⟩ := exists_split hh
    obtain ⟨hlen, hc⟩ := hfit p q he hq
    have hsplit : splitPath path = .ok (some (parentOf p, q.take 255)) := by
      rw [he, splitPath_eq hq hhead, if_pos hlen]
    have hres := resolve_parent hv mem hhead hlen hc
    cases hpar : resolveLoop mem v.fs.data 0 (components p) rootNode with
    | none => exact .inl (by simp [vfsCreateNode, hsplit, hres, hpar])
    | some parent =>
      rw [hpar] at hres
      by_cases hd : parent.type = .directory
      · rcases tinyfsCreateNode_spec hp hr parent (q.take 255) type with ⟨-, hc⟩ | ⟨i, fs, hc, hcr⟩
        · exact .inl (by simp [vfsCreateNode, hsplit, hres, hd, hc])
        · exact .inr ⟨p, q, parent, i, fs, ⟨he, hq, hhead, hres, hd⟩, hcr, hpar,
            by simp [vfsCreateNode, hsplit, hres, hd, hc]⟩
      · exact .inl (by simp [vfsCreateNode, hsplit, hres, hd])
  · exact .inl (by simp [vfsCreateNode, splitPath_relative hh])

/-- **Removing** by path: refused, or the first entry with the name goes. -/
theorem vfsUnlink_spec (hv : v.rootNode = some rootNode) {live : Fin 256 → Prop} {ch : Fin 256 → List Nat}
    (h : Inv v.fs.data live ch) (hl : ∀ i, usedEntry v.fs.data i → live i) (hr : v.fs.disk.Reliable)
    (mem : Nat → Bool) (hfit : SplitFits path) :
    vfsUnlink mem v path = .ok (-1, v) ∨
      ∃ p q parent i fs, InDir mem v path p q parent ∧ firstFin 0 (isNamed v.fs.data (q.take 255)) = some i ∧
        Removed v.fs live ch i fs ∧ vfsUnlink mem v path = .ok (0, { v with fs }) := by
  by_cases hh : path.head? = some slash
  · obtain ⟨p, q, he, hq, hhead⟩ := exists_split hh
    obtain ⟨hlen, hc⟩ := hfit p q he hq
    have hsplit : splitPath path = .ok (some (parentOf p, q.take 255)) := by
      rw [he, splitPath_eq hq hhead, if_pos hlen]
    have hres := resolve_parent hv mem hhead hlen hc
    cases hpar : resolveLoop mem v.fs.data 0 (components p) rootNode with
    | none => exact .inl (by simp [vfsUnlink, hsplit, hres, hpar])
    | some parent =>
      rw [hpar] at hres
      by_cases hd : parent.type = .directory
      · rcases tinyfsUnlink_spec h hr parent (q.take 255) fun i hi => hl i (isNamed_iff.mp hi).1 with
          ⟨-, hu⟩ | ⟨-, i, fs, hi, hu, hrm⟩
        · exact .inl (by simp [vfsUnlink, hsplit, hres, hd, hu])
        · exact .inr ⟨p, q, parent, i, fs, ⟨he, hq, hhead, hres, hd⟩, hi, hrm,
            by simp [vfsUnlink, hsplit, hres, hd, hu]⟩
      · exact .inl (by simp [vfsUnlink, hsplit, hres, hd])
  · exact .inl (by simp [vfsUnlink, splitPath_relative hh])

end Calls

/-! ## Calls on short paths -/

/-- A path of at most 255 characters and 32 components. -/
structure ShortPath where
  val : CString
  length_le : val.length ≤ 255
  components_le : (components val).length ≤ 32

/-- A directory call. -/
inductive DirOp
  | create (mem : Nat → Bool) (path : ShortPath)
  | mkdir (mem : Nat → Bool) (path : ShortPath)
  | unlink (mem : Nat → Bool) (path : ShortPath)

def dirStep (v : VfsState) : DirOp → Except Fault (Int × VfsState)
  | .create mem path => vfsCreate mem v path.val
  | .mkdir mem path => vfsMkdir mem v path.val
  | .unlink mem path => vfsUnlink mem v path.val

section Short

variable {v : VfsState} {mem : Nat → Bool} {path : ShortPath} {p q : CString}

/-- The parts of a short path fit too. -/
theorem ShortPath.parts (he : path.val = p ++ slash :: q) (hq : slash ∉ q) :
    p.length < 256 ∧ (components p).length + (component q).length ≤ 32 ∧ q.take 255 = q := by
  have hlen := path.length_le
  have hc := path.components_le
  rw [he, components_append hq, List.length_append] at hc
  rw [he, List.length_append, List.length_cons] at hlen
  exact ⟨by omega, hc, List.take_of_length_le (by omega)⟩

theorem ShortPath.splitFits (path : ShortPath) : SplitFits path.val := fun p q he hq => by
  obtain ⟨h1, h2, -⟩ := ShortPath.parts he hq
  exact ⟨h1, by omega⟩

/-- Resolving a short path with a name. -/
theorem ShortPath.resolve (hv : v.rootNode = some rootNode) (mem : Nat → Bool)
    (he : path.val = p ++ slash :: q) (hq : slash ∉ q) (hp : p ≠ [] → p.head? = some slash) (hne : q ≠ []) :
    vfsResolvePath mem v path.val = .ok (resolveLoop mem v.fs.data 0 (components p ++ [q]) rootNode) := by
  have hh : path.val.head? = some slash := by
    rw [he]
    cases p with
    | nil => rfl
    | cons c p => simpa using hp (by simp)
  have hcomp : components path.val = components p ++ [q] := by
    rw [he, components_append hq, component, if_neg hne]
  rw [vfsResolvePath_eq hv mem hh path.components_le, map_take_components path.length_le, hcomp]

theorem dirStep_create (hv : v.rootNode = some rootNode) (hp : Placed v.fs.data.sb) (hr : v.fs.disk.Reliable)
    (type : FileType) (mem : Nat → Bool) (path : ShortPath) :
    vfsCreateNode type mem v path.val = .ok (-1, v) ∨
      ∃ p q parent i fs, InDir mem v path.val p q parent ∧ Created v.fs parent q type i fs ∧
        resolveLoop mem v.fs.data 0 (components p) rootNode = some parent ∧
        vfsCreateNode type mem v path.val = .ok (0, { v with fs }) := by
  rcases vfsCreateNode_spec hv hp hr type mem path.splitFits with he | ⟨p, q, parent, i, fs, hin, hc, hpar, he⟩
  · exact .inl he
  · rw [(ShortPath.parts hin.eq hin.name).2.2] at hc
    exact .inr ⟨p, q, parent, i, fs, hin, hc, hpar, he⟩

theorem dirStep_unlink (hv : v.rootNode = some rootNode) {live : Fin 256 → Prop} {ch : Fin 256 → List Nat}
    (h : Inv v.fs.data live ch) (hl : ∀ i, usedEntry v.fs.data i → live i) (hr : v.fs.disk.Reliable)
    (mem : Nat → Bool) (path : ShortPath) :
    vfsUnlink mem v path.val = .ok (-1, v) ∨
      ∃ p q parent i fs, InDir mem v path.val p q parent ∧ firstFin 0 (isNamed v.fs.data q) = some i ∧
        Removed v.fs live ch i fs ∧ vfsUnlink mem v path.val = .ok (0, { v with fs }) := by
  rcases vfsUnlink_spec hv h hl hr mem path.splitFits with he | ⟨p, q, parent, i, fs, hin, hi, hrm, he⟩
  · exact .inl he
  · rw [(ShortPath.parts hin.eq hin.name).2.2] at hi
    exact .inr ⟨p, q, parent, i, fs, hin, hi, hrm, he⟩

/-- A create with a new name succeeds while there is a free entry. -/
theorem InDir.create_ok {parent : Node} (h : InDir mem v path.val p q parent) (hp : Placed v.fs.data.sb)
    (hr : v.fs.disk.Reliable) (type : FileType)
    (hn : ∀ j, usedEntry v.fs.data j → (v.fs.data.dirents.get j).cname ≠ q) {k : Fin 256} (hk : 1 ≤ k.val)
    (hfree : ¬ usedEntry v.fs.data k) :
    ∃ i fs, vfsCreateNode type mem v path.val = .ok (0, { v with fs }) ∧ Created v.fs parent q type i fs := by
  obtain ⟨hlen, -, hcut⟩ := ShortPath.parts h.eq h.name
  have hsplit : splitPath path.val = .ok (some (parentOf p, q)) := by
    rw [h.eq, splitPath_eq h.name h.head, if_pos hlen, hcut]
  obtain ⟨i, fs, he, hc⟩ := tinyfsCreateNode_ok hp hr h.isDir q type hn hk hfree
  exact ⟨i, fs, by simp [vfsCreateNode, hsplit, h.resolves, h.isDir, he], hc⟩

/-- An unlink with a name that some entry has succeeds. -/
theorem InDir.unlink_ok {parent : Node} {live : Fin 256 → Prop} {ch : Fin 256 → List Nat} {i : Fin 256}
    (h : InDir mem v path.val p q parent) (hinv : Inv v.fs.data live ch) (hl : ∀ i, usedEntry v.fs.data i → live i)
    (hr : v.fs.disk.Reliable) (hi : firstFin 0 (isNamed v.fs.data q) = some i) :
    ∃ fs, vfsUnlink mem v path.val = .ok (0, { v with fs }) ∧ Removed v.fs live ch i fs := by
  obtain ⟨hlen, -, hcut⟩ := ShortPath.parts h.eq h.name
  have hsplit : splitPath path.val = .ok (some (parentOf p, q)) := by
    rw [h.eq, splitPath_eq h.name h.head, if_pos hlen, hcut]
  rcases tinyfsUnlink_spec hinv hr parent q fun i hi => hl i (isNamed_iff.mp hi).1 with
    ⟨hno, -⟩ | ⟨-, j, fs, hj, hu, hrm⟩
  · rcases hno with hno | hno
    · exact absurd h.isDir hno
    · rw [hi] at hno
      cases hno
  · obtain rfl : i = j := Option.some.inj (hi.symm.trans hj)
    exact ⟨fs, by simp [vfsUnlink, hsplit, h.resolves, h.isDir, hu], hrm⟩

end Short

theorem rootPath_length {q : CString} (h : slash ∉ q ∧ q.length ≤ 254) : (slash :: q).length ≤ 255 := by
  rw [List.length_cons]
  omega

theorem rootPath_components {q : CString} (h : slash ∉ q ∧ q.length ≤ 254) :
    (components (slash :: q)).length ≤ 32 := by
  rw [components_slash, components, componentsFrom_of_no_slash h.1]
  exact le_trans (length_component_le _) (by omega)

/-- The path of a name in the root directory. -/
def rootPath (q : CString) (h : slash ∉ q ∧ q.length ≤ 254) : ShortPath :=
  ⟨slash :: q, rootPath_length h, rootPath_components h⟩

theorem rootPath_inDir {v : VfsState} (hv : v.rootNode = some rootNode) (mem : Nat → Bool) (q : CString)
    (h : slash ∉ q ∧ q.length ≤ 254) : InDir mem v (rootPath q h).val [] q rootNode :=
  ⟨rfl, h.1, fun hne => absurd rfl hne, by simp [parentOf, vfsResolvePath, hv], rfl⟩

end AmqOs.Vfs
