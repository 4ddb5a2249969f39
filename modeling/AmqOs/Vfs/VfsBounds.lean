import AmqOs.Vfs.TinyfsRun
import AmqOs.Vfs.VfsPaths
import AmqOs.Vfs.VfsCwdDefs

/-!
# The fixed arrays of the path functions

Which paths stay inside `tokens[32][256]`, `parent_path[256]`, the name of 256 bytes and `full_path[256]`.
`parentLookup` is what `vfs_create`, `vfs_mkdir` and `vfs_unlink` do with their path before they turn to the
filesystem (`vfsCreateNode_eq`, `vfsUnlink_eq`). `indicesInside_iff` says exactly when all the accesses are in bounds.
-/

set_option autoImplicit false

namespace AmqOs.Vfs

open AmqOs.Lib

/-- The parent directory of a path and the name in it; `none` is the return of `-1`. -/
def parentLookup (mem : Nat → Bool) (v : VfsState) (path : CString) : Except Fault (Option (Node × CString)) := do
  match ← splitPath path with
  | none => .ok none
  | some (parentPath, name) =>
    match ← vfsResolvePath mem v parentPath with
    | none => .ok none
    | some parent => if parent.type ≠ .directory then .ok none else .ok (some (parent, name))

section Lookup

variable {mem : Nat → Bool} {v : VfsState} {path : CString}

theorem vfsCreateNode_eq (type : FileType) (mem : Nat → Bool) (v : VfsState) (path : CString) :
    vfsCreateNode type mem v path = parentLookup mem v path >>= fun r => match r with
      | none => .ok (-1, v)
      | some (parent, name) =>
        .ok ((tinyfsCreateNode v.fs parent name type).1, { v with fs := (tinyfsCreateNode v.fs parent name type).2 }) := by
  unfold vfsCreateNode parentLookup
  cases hs : splitPath path with
  | error f => rfl
  | ok r =>
    cases r with
    | none => rfl
    | some pn =>
      simp only [ok_bind]
      cases hr : vfsResolvePath mem v pn.1 with
      | error f => rfl
      | ok r =>
        cases r with
        | none => rfl
        | some parent =>
          simp only [ok_bind]
          split <;> rfl

theorem vfsUnlink_eq_lookup (mem : Nat → Bool) (v : VfsState) (path : CString) :
    vfsUnlink mem v path = parentLookup mem v path >>= fun r => match r with
      | none => .ok (-1, v)
      | some (parent, name) => tinyfsUnlink v.fs parent name >>= fun r => .ok (r.1, { v with fs := r.2 }) := by
  unfold vfsUnlink parentLookup
  cases hs : splitPath path with
  | error f => rfl
  | ok r =>
    cases r with
    | none => rfl
    | some pn =>
      simp only [ok_bind]
      cases hr : vfsResolvePath mem v pn.1 with
      | error f => rfl
      | ok r =>
        cases r with
        | none => rfl
        | some parent =>
          simp only [ok_bind]
          split <;> rfl

/-- A path whose components fit the tokens, or that is not cut into tokens. -/
def TokensFit (v : VfsState) (path : CString) : Prop :=
  v.rootNode ≠ none → path.head? = some slash → (components path).length ≤ 32

/-- **Resolving** leaves its array exactly for an absolute path of more than 32 components. -/
theorem vfsResolvePath_fault_iff (mem : Nat → Bool) (v : VfsState) (path : CString) :
    (∃ f, vfsResolvePath mem v path = .error f) ↔ ¬ TokensFit v path := by
  cases hv : v.rootNode with
  | none => simp [vfsResolvePath, TokensFit, hv]
  | some root =>
    by_cases h1 : path = [slash]
    · subst h1
      simp [vfsResolvePath, TokensFit, hv, components, componentsFrom, component]
    · by_cases hp : path.head? = some slash
      · by_cases hc : (components path).length ≤ 32
        · simp [vfsResolvePath, TokensFit, hv, h1, hp, tokenizePath_eq, hc]
        · simp [vfsResolvePath, TokensFit, hv, h1, hp, tokenizePath_eq, hc]
      · simp [vfsResolvePath, TokensFit, hv, h1, hp]

/-- The part before the last slash fits `parent_path`, and its components fit the tokens. -/
def ParentFits (v : VfsState) (path : CString) : Prop :=
  path.head? = some slash → ∀ p q, path = p ++ slash :: q → slash ∉ q → p.length < 256 ∧ TokensFit v p

theorem tokensFit_parentOf (v : VfsState) {p : CString} (hp : p ≠ [] → p.head? = some slash) :
    TokensFit v (parentOf p) ↔ TokensFit v p := by
  by_cases hnil : p = []
  · subst hnil
    simp [TokensFit, parentOf, components, componentsFrom, component]
  · rw [parentOf, if_neg hnil]

/-- **Finding the parent** leaves its arrays exactly for paths whose directory part does not fit. -/
theorem parentLookup_fault_iff (mem : Nat → Bool) (v : VfsState) (path : CString) :
    (∃ f, parentLookup mem v path = .error f) ↔ ¬ ParentFits v path := by
  by_cases hh : path.head? = some slash
  · obtain ⟨p, q, he, hq, hhead⟩ := exists_split hh
    have hfits : ParentFits v path ↔ p.length < 256 ∧ TokensFit v p := by
      refine ⟨fun h => h hh p q he hq, fun h _ p' q' he' hq' => ?_⟩
      obtain ⟨rfl, rfl⟩ := split_unique (he.symm.trans he') hq hq'
      exact h
    rw [hfits]
    by_cases hlen : p.length < 256
    · have hsplit : splitPath path = .ok (some (parentOf p, q.take 255)) := by
        rw [he, splitPath_eq hq hhead, if_pos hlen]
      have hres := vfsResolvePath_fault_iff mem v (parentOf p)
      rw [tokensFit_parentOf v hhead] at hres
      rw [and_iff_right hlen, ← hres]
      simp only [parentLookup, hsplit, ok_bind]
      cases hr : vfsResolvePath mem v (parentOf p) with
      | error f => exact iff_of_true ⟨f, rfl⟩ ⟨f, rfl⟩
      | ok r =>
        refine iff_of_false ?_ (by simp)
        rintro ⟨f, hf⟩
        cases r with
        | none => simp at hf
        | some parent => by_cases hd : parent.type = .directory <;> simp [hd] at hf
    · have hsplit : splitPath path = .error .outOfBounds := by rw [he, splitPath_eq hq hhead, if_neg hlen]
      exact iff_of_true ⟨.outOfBounds, by simp [parentLookup, hsplit]⟩ fun h => hlen h.1
  · refine iff_of_false ?_ (by simp [ParentFits, hh])
    rintro ⟨f, hf⟩
    simp [parentLookup, splitPath_relative hh] at hf

end Lookup

/-! ## All the path functions -/

/-- Every access of the path functions to their arrays is in bounds. A fault of `vfs_unlink` is then one of the
filesystem, after the path has been dealt with. -/
structure IndicesInside (mem : Nat → Bool) (c : CwdState) (path : CString) : Prop where
  resolve : ∃ r, vfsResolvePath mem c.vfs path = .ok r
  create : ∃ r, vfsCreate mem c.vfs path = .ok r
  mkdir : ∃ r, vfsMkdir mem c.vfs path = .ok r
  unlink : ∀ f, vfsUnlink mem c.vfs path = .error f → ∃ parent name,
    parentLookup mem c.vfs path = .ok (some (parent, name)) ∧ tinyfsUnlink c.vfs.fs parent name = .error f
  chdir : ∃ r, vfsChdir mem c path = .ok r

/-- The paths that fit: an absolute one has at most 32 components and a directory part of at most 255 characters; for a
relative one the path of the current directory leaves room for a slash and the two together have at most 32
components. -/
structure PathFits (c : CwdState) (path : CString) : Prop where
  tokens : TokensFit c.vfs path
  parent : path.head? = some slash → ∀ p q, path = p ++ slash :: q → slash ∉ q → p.length < 256
  relative : path.head? ≠ some slash → c.currentPath.withSlash.length < 256 ∧ TokensFit c.vfs (fullPath c.currentPath path)

theorem exists_ok_iff {α ε : Type} (x : Except ε α) : (∃ r, x = .ok r) ↔ ¬ ∃ f, x = .error f := by
  cases x <;> simp

section Bounds

variable {mem : Nat → Bool} {c : CwdState} {path : CString}

theorem length_fullPath_lt (cwd : CwdPath) (path : CString) :
    (fullPath cwd path).length < 256 ↔ path.head? = some slash ∨ cwd.withSlash.length < 256 := by
  unfold fullPath
  split
  · rename_i h
    refine iff_of_true ?_ (.inl h)
    rw [List.length_take]
    omega
  · rename_i h
    rw [or_iff_right h, List.length_append, List.length_take]
    omega

/-- **Changing the directory** leaves its arrays when the current directory leaves no room for the slash, or when the
path that is resolved has too many components. -/
theorem vfsChdir_ok_iff (mem : Nat → Bool) (c : CwdState) (path : CString) :
    (∃ r, vfsChdir mem c path = .ok r) ↔ (fullPath c.currentPath path).length < 256 ∧
      TokensFit c.vfs (if path.head? = some slash then path else fullPath c.currentPath path) := by
  by_cases hlen : (fullPath c.currentPath path).length < 256
  · rw [and_iff_right hlen, ← not_not (a := TokensFit _ _), ← vfsResolvePath_fault_iff mem, ← exists_ok_iff]
    simp only [vfsChdir, hlen, if_true]
    cases vfsResolvePath mem c.vfs (if path.head? = some slash then path else fullPath c.currentPath path) with
    | error f => simp
    | ok r =>
      refine iff_of_true ?_ ⟨r, rfl⟩
      cases r with
      | none => exact ⟨_, rfl⟩
      | some target =>
        by_cases hd : target.type = .directory
        · exact ⟨_, by simp [hd]; rfl⟩
        · exact ⟨_, by simp [hd]; rfl⟩
  · refine iff_of_false ?_ fun h => hlen h.1
    simp [vfsChdir, hlen]

/-- The directory part of a path that fits has no more components than the path. -/
theorem PathFits.parentFits (h : PathFits c path) : ParentFits c.vfs path := by
  intro hh p q he hq
  refine ⟨h.parent hh p q he hq, fun hv _ => ?_⟩
  have hcomp := h.tokens hv hh
  rw [he, components_append hq, List.length_append] at hcomp
  omega

/-- **The arrays of the path functions**: all accesses are in bounds if and only if the path fits. -/
theorem indicesInside_iff (mem : Nat → Bool) (c : CwdState) (path : CString) :
    IndicesInside mem c path ↔ PathFits c path := by
  have hlookup : ∀ type, (∃ r, vfsCreateNode type mem c.vfs path = .ok r) ↔ ParentFits c.vfs path := fun type => by
    rw [← not_not (a := ParentFits _ _), ← parentLookup_fault_iff mem, ← exists_ok_iff, vfsCreateNode_eq]
    cases parentLookup mem c.vfs path with
    | error f => simp
    | ok r =>
      refine iff_of_true ?_ ⟨r, rfl⟩
      cases r with
      | none => exact ⟨_, rfl⟩
      | some pn => exact ⟨_, rfl⟩
  constructor
  · intro h
    refine ⟨?_, fun hh p q he hq => ?_, fun hh => ?_⟩
    · exact not_not.mp fun hno => (exists_ok_iff _).mp h.resolve ((vfsResolvePath_fault_iff mem _ _).mpr hno)
    · exact ((hlookup .regular).mp h.create hh p q he hq).1
    · obtain ⟨hlen, htok⟩ := (vfsChdir_ok_iff mem c path).mp h.chdir
      rw [if_neg hh] at htok
      exact ⟨((length_fullPath_lt _ _).mp hlen).resolve_left hh, htok⟩
  · intro h
    have hparent := h.parentFits
    refine ⟨?_, (hlookup .regular).mpr hparent, (hlookup .directory).mpr hparent, fun f hf => ?_, ?_⟩
    · exact (exists_ok_iff _).mpr fun hno => (vfsResolvePath_fault_iff mem _ _).mp hno h.tokens
    · rw [vfsUnlink_eq_lookup] at hf
      cases hl : parentLookup mem c.vfs path with
      | error f => exact absurd hparent ((parentLookup_fault_iff mem _ _).mp ⟨f, hl⟩)
      | ok r =>
        rw [hl] at hf
        cases r with
        | none => simp at hf
        | some pn =>
          refine ⟨pn.1, pn.2, rfl, ?_⟩
          simp only [ok_bind] at hf
          cases hu : tinyfsUnlink c.vfs.fs pn.1 pn.2 with
          | error g =>
            rw [hu] at hf
            simpa using hf
          | ok r =>
            rw [hu] at hf
            simp at hf
    · rw [vfsChdir_ok_iff, length_fullPath_lt]
      by_cases hh : path.head? = some slash
      · rw [if_pos hh]
        exact ⟨.inl hh, h.tokens⟩
      · rw [if_neg hh]
        exact ⟨.inr (h.relative hh).1, (h.relative hh).2⟩

end Bounds

/-- A path of 33 components. -/
def deepPath : CString := (List.replicate 33 [slash, charA]).flatten

/-- A path whose last slash has index 256. -/
def widePath : CString := List.replicate 256 slash ++ slash :: [charA]

/-- A current directory whose path has 255 characters and does not end with a slash. -/
def fullCwd : CwdState where
  vfs := vfsMounted ⟨blankData, blankDisk⟩
  currentDir := some rootNode
  currentPath := ⟨List.replicate 254 slash ++ [charA], by rw [List.length_append, List.length_replicate]; decide, rfl⟩

/-- The 33rd component of a path, the slash with index 256 and a slash after a full current path are written past the
ends of `tokens`, `parent_path` and `full_path`. -/
theorem arrays_overrun : vfsResolvePath (fun _ => true) fullCwd.vfs deepPath = .error .outOfBounds ∧
    vfsCreate (fun _ => true) fullCwd.vfs widePath = .error .outOfBounds ∧
    vfsChdir (fun _ => true) fullCwd [] = .error .outOfBounds ∧
    ¬ IndicesInside (fun _ => true) fullCwd deepPath := by
  have hdeep : vfsResolvePath (fun _ => true) fullCwd.vfs deepPath = .error .outOfBounds :=
    vfsResolvePath_fault rfl _ rfl (by decide)
  refine ⟨hdeep, ?_, ?_, fun h => ?_⟩
  · have hsplit : splitPath widePath = .error .outOfBounds := by
      rw [widePath, splitPath_eq (by decide) fun _ => rfl, if_neg (by rw [List.length_replicate]; omega)]
    simp [vfsCreate, vfsCreateNode, hsplit]
  · have hlen : ¬ (fullPath fullCwd.currentPath []).length < 256 := by decide +kernel
    simp [vfsChdir, hlen]
  · obtain ⟨r, hr⟩ := h.resolve
    rw [hdeep] at hr
    cases hr

end AmqOs.Vfs
