import AmqOs.Vfs.TinyfsOps
import AmqOs.Vfs.VfsDefs

/-!
# Paths

`components path` are the non-empty parts of a path between slashes.

- `tokenizePath_eq`: the tokenizer returns the components, each cut to 255 characters, or leaves its buffer when
  there are more than 32;
- `splitPath_eq`: an absolute path is cut at its last slash, and its components are those of the part before it and
  the name, when that is not empty (`components_append`);
- `vfsResolvePath_eq`: resolving a path is following `finddir` along its components.
-/

set_option autoImplicit false

namespace AmqOs.Vfs

open AmqOs.Lib

/-! ## Components -/

/-- A part of a path counts as a component when it is not empty. -/
def component (part : CString) : List CString := if part = [] then [] else [part]

/-- The components of a path of which `part` is already read. -/
def componentsFrom : CString → CString → List CString
  | part, [] => component part
  | part, c :: path => if c = slash then component part ++ componentsFrom [] path else componentsFrom (part ++ [c]) path

/-- The non-empty parts of a path between slashes. -/
def components (path : CString) : List CString := componentsFrom [] path

theorem length_component_le (part : CString) : (component part).length ≤ 1 := by
  unfold component
  split <;> simp

theorem componentsFrom_ne_nil {part path : CString} : ∀ c ∈ componentsFrom part path, c ≠ [] := by
  induction path generalizing part with
  | nil =>
    intro c hc
    simp only [componentsFrom, component] at hc
    split at hc
    · simp at hc
    · rw [List.mem_singleton.mp hc]
      assumption
  | cons x path ih =>
    intro c hc
    simp only [componentsFrom] at hc
    split at hc
    · rcases List.mem_append.mp hc with hc | hc
      · simp only [component] at hc
        split at hc
        · simp at hc
        · rw [List.mem_singleton.mp hc]
          assumption
      · exact ih c hc
    · exact ih c hc

/-- After a slash the components start anew. -/
theorem componentsFrom_append (part p q : CString) :
    componentsFrom part (p ++ slash :: q) = componentsFrom part p ++ components q := by
  induction p generalizing part with
  | nil => simp [componentsFrom, components]
  | cons x p ih =>
    simp only [List.cons_append, componentsFrom, ih]
    split
    · rw [List.append_assoc]
    · rfl

theorem componentsFrom_of_no_slash {part q : CString} (h : slash ∉ q) :
    componentsFrom part q = component (part ++ q) := by
  induction q generalizing part with
  | nil => simp [componentsFrom]
  | cons x q ih =>
    have hx : x ≠ slash := fun e => h (by simp [e])
    rw [componentsFrom, if_neg hx, ih fun hm => h (List.mem_cons_of_mem _ hm)]
    simp

@[simp] theorem components_slash (path : CString) : components (slash :: path) = components path := by
  simp [components, componentsFrom, component]

/-- The components of a path that ends with the part `q`. -/
theorem components_append {p q : CString} (h : slash ∉ q) :
    components (p ++ slash :: q) = components p ++ component q := by
  rw [components, componentsFrom_append, components, componentsFrom_of_no_slash h]
  rfl

/-- No component is longer than the path. -/
theorem length_componentsFrom_le (part path : CString) :
    ∀ c ∈ componentsFrom part path, c.length ≤ part.length + path.length := by
  induction path generalizing part with
  | nil =>
    intro c hc
    simp only [componentsFrom, component] at hc
    split at hc
    · simp at hc
    · rw [List.mem_singleton.mp hc]
      simp
  | cons x path ih =>
    intro c hc
    simp only [componentsFrom] at hc
    split at hc
    · rcases List.mem_append.mp hc with hc | hc
      · simp only [component] at hc
        split at hc
        · simp at hc
        · rw [List.mem_singleton.mp hc]
          omega
      · have := ih [] c hc
        simp only [List.length_nil, List.length_cons] at this ⊢
        omega
    · have := ih (part ++ [x]) c hc
      simp only [List.length_append, List.length_cons, List.length_nil] at this ⊢
      omega

/-! ## The tokenizer -/

theorem componentsFrom_pos {part : CString} (h : part ≠ []) (path : CString) :
    0 < (componentsFrom part path).length := by
  induction path generalizing part with
  | nil => simp [componentsFrom, component, h]
  | cons c path ih =>
    simp only [componentsFrom]
    split
    · simp [component, h]
    · exact ih (by simp)

theorem take_append_singleton_of_le {part : CString} (c : CChar) (h : 255 ≤ part.length) :
    (part ++ [c]).take 255 = part.take 255 :=
  List.take_append_of_le_length h

/-- The loop with room for the components that are left. -/
theorem tokenizeLoop_ok (path part : CString) (tokens : List CString)
    (h : tokens.length + (componentsFrom part path).length ≤ 32) :
    tokenizeLoop path tokens (part.take 255) = .ok (tokens ++ (componentsFrom part path).map (·.take 255)) := by
  induction path generalizing part tokens with
  | nil =>
    by_cases hp : part = []
    · simp [tokenizeLoop, componentsFrom, component, hp]
    · have hpos : 0 < part.length := List.length_pos_iff.mpr hp
      simp [tokenizeLoop, componentsFrom, component, hp, hpos]
  | cons c path ih =>
    simp only [componentsFrom] at h ⊢
    by_cases hc : c = slash
    · simp only [hc, if_true, List.length_append] at h ⊢
      by_cases hp : part = []
      · simp only [hp, component, if_true, List.length_nil, List.nil_append] at h ⊢
        simpa [tokenizeLoop] using ih [] tokens (by omega)
      · have hpos : 0 < part.length := List.length_pos_iff.mpr hp
        simp only [component, hp, if_false, List.length_singleton] at h ⊢
        have hrest := ih [] (tokens ++ [part.take 255])
          (by simp only [List.length_append, List.length_singleton]; omega)
        simpa [tokenizeLoop, hpos] using hrest
    · simp only [hc, if_false] at h ⊢
      have hpos := componentsFrom_pos (show part ++ [c] ≠ [] by simp) path
      have hroom : tokens.length < 32 := by omega
      by_cases hlen : part.length < 255
      · have hcut : part.take 255 ++ [c] = (part ++ [c]).take 255 := by
          rw [List.take_of_length_le (by omega), List.take_of_length_le (by simp; omega)]
        have hlen' : (part.take 255).length < 255 := by simp; omega
        simp only [tokenizeLoop, hc, if_false, hlen', if_true, hroom, hcut]
        exact ih _ _ h
      · have hlen' : ¬ (part.take 255).length < 255 := by simp; omega
        simp only [tokenizeLoop, hc, if_false, hlen']
        rw [← take_append_singleton_of_le c (by omega)]
        exact ih _ _ h

/-- The loop with more components than the buffer has rows. -/
theorem tokenizeLoop_fault (path part : CString) (tokens : List CString)
    (h : 32 < tokens.length + (componentsFrom part path).length)
    (hp : tokens.length + (component part).length ≤ 32) :
    tokenizeLoop path tokens (part.take 255) = .error .outOfBounds := by
  induction path generalizing part tokens with
  | nil =>
    simp only [componentsFrom] at h
    omega
  | cons c path ih =>
    simp only [componentsFrom] at h
    by_cases hc : c = slash
    · simp only [hc, if_true, List.length_append] at h ⊢
      by_cases hnil : part = []
      · simp only [hnil, component, if_true, List.length_nil] at h hp ⊢
        simpa [tokenizeLoop] using ih [] tokens (by omega) (by simp [component]; omega)
      · have hpos : 0 < part.length := List.length_pos_iff.mpr hnil
        simp only [component, hnil, if_false, List.length_singleton] at h hp ⊢
        have hrest := ih [] (tokens ++ [part.take 255])
          (by simp only [List.length_append, List.length_singleton]; omega)
          (by simp only [component, if_true, List.length_append, List.length_singleton, List.length_nil]; omega)
        simpa [tokenizeLoop, hpos] using hrest
    · simp only [hc, if_false] at h
      have hone : (component (part ++ [c])).length = 1 := by simp [component]
      by_cases hlen : part.length < 255
      · have hcut : part.take 255 ++ [c] = (part ++ [c]).take 255 := by
          rw [List.take_of_length_le (by omega), List.take_of_length_le (by simp; omega)]
        have hlen' : (part.take 255).length < 255 := by simp; omega
        by_cases hroom : tokens.length < 32
        · simp only [tokenizeLoop, hc, if_false, hlen', if_true, hroom, hcut]
          exact ih _ _ h (by omega)
        · simp only [tokenizeLoop, hc, if_false, hlen', if_true, hroom]
      · have hlen' : ¬ (part.take 255).length < 255 := by simp; omega
        have hnil : part ≠ [] := by
          rintro rfl
          simp at hlen
        simp only [component, hnil, if_false, List.length_singleton] at hp
        simp only [tokenizeLoop, hc, if_false, hlen']
        rw [← take_append_singleton_of_le c (by omega)]
        exact ih _ _ h (by omega)

/-- The leading slash makes no difference. -/
theorem tokenizePath_loop (path : CString) : tokenizePath path = tokenizeLoop path [] [] := by
  unfold tokenizePath
  split
  · rename_i h
    cases path with
    | nil => simp at h
    | cons c path =>
      have hc : c = slash := by simpa using h
      simp [tokenizeLoop, hc]
  · rfl

/-- **The tokenizer.** -/
theorem tokenizePath_eq (path : CString) : tokenizePath path =
    if (components path).length ≤ 32 then .ok ((components path).map (·.take 255)) else .error .outOfBounds := by
  rw [tokenizePath_loop]
  split
  · rename_i h
    simpa [components] using tokenizeLoop_ok path [] [] (by simpa [components] using h)
  · rename_i h
    have hlt : 32 < (components path).length := by omega
    simpa using tokenizeLoop_fault path [] [] (by simpa [components] using hlt) (by simp [component])

/-! ## Splitting -/

theorem lastSlash_spec (path : CString) :
    (lastSlash path = none ∧ slash ∉ path) ∨
      ∃ p q, lastSlash path = some p.length ∧ path = p ++ slash :: q ∧ slash ∉ q := by
  have hinv := forUpTo_inv (f := fun i last => if path[i]? = some slash then some i else last) (n := path.length)
    (s := none) (fun i last => (last = none ∧ slash ∉ path.take i) ∨
      ∃ p q, last = some p.length ∧ path.take i = p ++ slash :: q ∧ slash ∉ q) (.inl ⟨rfl, by simp⟩) ?_
  · simpa [lastSlash] using hinv
  · intro i last hi hlast
    have htake : path.take (i + 1) = path.take i ++ [path[i]] := (List.take_append_getElem hi).symm
    rw [List.getElem?_eq_getElem hi, htake]
    by_cases hs : path[i] = slash
    · refine .inr ⟨path.take i, [], ?_, by rw [hs], by simp⟩
      simp [hs]
      omega
    · have hne : ¬ some path[i] = some slash := fun e => hs (Option.some.inj e)
      simp only [hne, if_false]
      rcases hlast with ⟨rfl, hno⟩ | ⟨p, q, rfl, heq, hno⟩
      · refine .inl ⟨rfl, ?_⟩
        rw [List.mem_append, not_or]
        exact ⟨hno, by simpa using Ne.symm hs⟩
      · exact .inr ⟨p, q ++ [path[i]], rfl, by simp [heq], by simp [hno, Ne.symm hs]⟩

/-- The path of the parent as it is resolved: the root for a path with one slash. -/
def parentOf (p : CString) : CString := if p = [] then [slash] else p

/-- A path is cut at its last slash in one way. -/
theorem split_unique {p q p' q' : CString} (h : p ++ slash :: q = p' ++ slash :: q') (hq : slash ∉ q)
    (hq' : slash ∉ q') : p = p' ∧ q = q' := by
  rcases List.append_eq_append_iff.mp h with ⟨r, h1, h2⟩ | ⟨r, h1, h2⟩
  · cases r with
    | nil => simpa using And.intro h1.symm h2
    | cons c r =>
      obtain ⟨rfl, hr⟩ := List.cons_eq_cons.mp h2
      exact absurd (hr ▸ by simp) hq
  · cases r with
    | nil => simpa using And.intro h1 h2.symm
    | cons c r =>
      obtain ⟨rfl, hr⟩ := List.cons_eq_cons.mp h2
      exact absurd (hr ▸ by simp) hq'

/-- Every absolute path has a last slash. -/
theorem exists_split {path : CString} (hp : path.head? = some slash) :
    ∃ p q, path = p ++ slash :: q ∧ slash ∉ q ∧ (p ≠ [] → p.head? = some slash) := by
  rcases lastSlash_spec path with ⟨-, hno⟩ | ⟨p, q, -, rfl, hno⟩
  · exact absurd (List.mem_of_mem_head? hp) hno
  · exact ⟨p, q, rfl, hno, fun hne => by rwa [List.head?_append_of_ne_nil p hne] at hp⟩

/-- **Splitting** cuts an absolute path at its last slash, unless the part before it is too long for its buffer. -/
theorem splitPath_eq {p q : CString} (hq : slash ∉ q) (hp : p ≠ [] → p.head? = some slash) :
    splitPath (p ++ slash :: q) =
      if p.length < 256 then .ok (some (parentOf p, q.take 255)) else .error .outOfBounds := by
  have hlast : lastSlash (p ++ slash :: q) = some p.length := by
    rcases lastSlash_spec (p ++ slash :: q) with ⟨-, hno⟩ | ⟨p', q', hl, he, hq'⟩
    · exact absurd (by simp) hno
    · rw [hl, (split_unique he hq hq').1]
  have hdrop : (p ++ slash :: q).drop (p.length + 1) = q := by
    rw [List.append_cons, List.drop_left' (by simp)]
  by_cases hnil : p = []
  · subst hnil
    have hh : ([] ++ slash :: q : CString).head? = some slash := rfl
    simp only [splitPath, hh, ne_eq, not_true_eq_false, if_false, hlast, parentOf, List.length_nil, if_true,
      show 0 < 256 by omega]
    rfl
  · have hpos : p.length ≠ 0 := fun e => hnil (List.length_eq_zero_iff.mp e)
    have hh : (p ++ slash :: q).head? = some slash := by
      rw [List.head?_append_of_ne_nil p hnil]
      exact hp hnil
    simp only [splitPath, hh, ne_eq, not_true_eq_false, if_false, hlast, hpos, hdrop, List.take_left, parentOf, hnil]

theorem splitPath_relative {path : CString} (hp : path.head? ≠ some slash) : splitPath path = .ok none := by
  simp [splitPath, hp]

theorem components_parentOf (p : CString) : components (parentOf p) = components p := by
  unfold parentOf
  split
  · rename_i h
    rw [h, components_slash]
  · rfl

/-! ## Resolving -/

/-- **Resolving** an absolute path in a mounted filesystem. -/
theorem vfsResolvePath_eq {v : VfsState} (hv : v.rootNode = some rootNode) (mem : Nat → Bool) {path : CString}
    (hp : path.head? = some slash) (hc : (components path).length ≤ 32) :
    vfsResolvePath mem v path =
      .ok (resolveLoop mem v.fs.data 0 ((components path).map (·.take 255)) rootNode) := by
  by_cases h1 : path = [slash]
  · subst h1
    simp [vfsResolvePath, hv, components, componentsFrom, component, resolveLoop]
  · simp [vfsResolvePath, hv, h1, hp, tokenizePath_eq, hc]

theorem vfsResolvePath_fault {v : VfsState} (hv : v.rootNode = some rootNode) (mem : Nat → Bool) {path : CString}
    (hp : path.head? = some slash) (hc : ¬ (components path).length ≤ 32) :
    vfsResolvePath mem v path = .error .outOfBounds := by
  have h1 : path ≠ [slash] := by
    rintro rfl
    simp [components, componentsFrom, component] at hc
  simp [vfsResolvePath, hv, h1, hp, tokenizePath_eq, hc]

theorem parentOf_head {p : CString} (h : p ≠ [] → p.head? = some slash) : (parentOf p).head? = some slash := by
  unfold parentOf
  split
  · rfl
  · rename_i hp
    exact h hp

/-- Resolving depends on the directory table only. -/
theorem resolveLoop_dirents {d d' : TinyfsData} (h : d'.dirents = d.dirents) (mem : Nat → Bool) (n : Nat)
    (ts : List CString) (node : Node) : resolveLoop mem d' n ts node = resolveLoop mem d n ts node := by
  have hfind : ∀ m node t, vfsFinddir m d' node t = vfsFinddir m d node t := fun m node t => by
    have hentry : isEntry d' node.inode t = isEntry d node.inode t := by
      funext i
      simp only [isEntry, h]
    have hnode : nodeOf d' = nodeOf d := by
      funext i
      simp only [nodeOf, h]
    simp only [vfsFinddir, tinyfsFinddir, hentry, hnode]
  induction ts generalizing n node with
  | nil => rfl
  | cons t ts ih => simp only [resolveLoop, hfind, ih]

theorem vfsResolvePath_dirents {v w : VfsState} (hroot : w.rootNode = v.rootNode)
    (h : w.fs.data.dirents = v.fs.data.dirents) (mem : Nat → Bool) (path : CString) :
    vfsResolvePath mem w path = vfsResolvePath mem v path := by
  simp only [vfsResolvePath, hroot, resolveLoop_dirents h]

/-- Resolving more components. -/
theorem resolveLoop_append (mem : Nat → Bool) (d : TinyfsData) (n : Nat) (ts us : List CString) (node : Node) :
    resolveLoop mem d n (ts ++ us) node =
      (resolveLoop mem d n ts node).bind (resolveLoop mem d (n + ts.length) us) := by
  induction ts generalizing n node with
  | nil => simp [resolveLoop]
  | cons t ts ih =>
    simp only [List.cons_append, resolveLoop]
    split
    · rfl
    · split
      · rfl
      · rw [ih]
        simp only [List.length_cons]
        congr 2
        omega

theorem vfsFinddir_eq_some {mem : Bool} {d : TinyfsData} {node m : Node} {name : CString} :
    vfsFinddir mem d node name = some m ↔ mem = true ∧ node.type = .directory ∧
      ∃ i, firstFin 0 (isEntry d node.inode name) = some i ∧ m = nodeOf d i := by
  unfold vfsFinddir tinyfsFinddir
  by_cases hd : node.type = .directory
  · cases hf : firstFin 0 (isEntry d node.inode name) with
    | none => simp [hd]
    | some i =>
      cases mem <;> simp [hd, eq_comm]
  · simp [hd]

/-- The last component is looked up in the directory the others lead to. -/
theorem resolveLoop_snoc {mem : Nat → Bool} {d : TinyfsData} {n : Nat} {ts : List CString} {t : CString}
    {node m : Node} : resolveLoop mem d n (ts ++ [t]) node = some m ↔
      ∃ parent, resolveLoop mem d n ts node = some parent ∧ vfsFinddir (mem (n + ts.length)) d parent t = some m := by
  rw [resolveLoop_append, Option.bind_eq_some_iff]
  refine exists_congr fun parent => and_congr_right fun _ => ?_
  by_cases hd : parent.type = .directory
  · cases hf : vfsFinddir (mem (n + ts.length)) d parent t with
    | none => simp [resolveLoop, hd, hf]
    | some node => simp [resolveLoop, hd, hf]
  · simp [resolveLoop, vfsFinddir, hd]

/-- What is found with failing allocations is found without. -/
theorem resolveLoop_mem {mem : Nat → Bool} {d : TinyfsData} {n : Nat} {ts : List CString} {node m : Node}
    (h : resolveLoop mem d n ts node = some m) : resolveLoop (fun _ => true) d n ts node = some m := by
  induction ts using List.reverseRecOn generalizing m with
  | nil => exact h
  | append_singleton ts t ih =>
    obtain ⟨parent, h1, h2⟩ := resolveLoop_snoc.mp h
    obtain ⟨-, h3⟩ := vfsFinddir_eq_some.mp h2
    exact resolveLoop_snoc.mpr ⟨parent, ih h1, vfsFinddir_eq_some.mpr ⟨rfl, h3⟩⟩

/-- A resolved path of components is the root, or an entry with the name of the last one. -/
theorem resolveLoop_some {mem : Nat → Bool} {d : TinyfsData} {n : Nat} {ts : List CString} {m : Node}
    (h : resolveLoop mem d n ts rootNode = some m) :
    (ts = [] ∧ m = rootNode) ∨ ∃ us t i, ts = us ++ [t] ∧ m = nodeOf d i ∧ usedEntry d i ∧
      (d.dirents.get i).cname = t := by
  induction ts using List.reverseRecOn with
  | nil => exact .inl ⟨rfl, (Option.some.inj h).symm⟩
  | append_singleton us t _ =>
    obtain ⟨parent, -, h2⟩ := resolveLoop_snoc.mp h
    obtain ⟨-, -, i, hi, hm⟩ := vfsFinddir_eq_some.mp h2
    obtain ⟨h3, -, h5⟩ := isEntry_iff.mp (firstFin_eq_some.mp hi).2.1
    exact .inr ⟨us, t, i, rfl, hm, h3, h5⟩

/-- A path that resolves leads to the root or to a used entry. -/
theorem vfsResolvePath_some {v : VfsState} (hv : v.rootNode = some rootNode) {mem : Nat → Bool} {path : CString}
    {node : Node} (h : vfsResolvePath mem v path = .ok (some node)) :
    node = rootNode ∨ ∃ k, node = nodeOf v.fs.data k ∧ usedEntry v.fs.data k := by
  simp only [vfsResolvePath, hv] at h
  split at h
  · exact .inl (Option.some.inj (Except.ok.inj h)).symm
  · split at h
    · cases h
    · obtain ⟨tokens, -, hloop⟩ := bind_eq_ok.mp h
      rcases resolveLoop_some (Except.ok.inj hloop) with ⟨-, he⟩ | ⟨us, t, k, -, he, hu, -⟩
      · exact .inl he
      · exact .inr ⟨k, he, hu⟩

/-! ## Resolving as a fold -/

/-- The parts of a string between slashes that are not empty. -/
theorem componentsFrom_eq_split (part path : CString) :
    componentsFrom part path = (path.splitOnPPrepend (· == slash) part.reverse).filter (· ≠ []) := by
  induction path generalizing part with
  | nil =>
    by_cases hp : part = [] <;> simp [componentsFrom, component, hp]
  | cons c path ih =>
    rw [componentsFrom, List.splitOnPPrepend_cons_eq_if]
    by_cases hc : c = slash
    · rw [if_pos hc, if_pos (beq_iff_eq.mpr hc), ih []]
      by_cases hp : part = [] <;> simp [component, hp]
    · rw [if_neg hc, if_neg (mt beq_iff_eq.mp hc), ih, List.reverse_append]
      rfl

/-- Splitting and filtering. -/
theorem components_eq_splitOn (path : CString) : components path = (path.splitOn slash).filter (· ≠ []) := by
  rw [components, componentsFrom_eq_split, List.splitOn_eq_splitOnP, List.splitOnP_eq_splitOnPPrepend]
  rfl

/-- The loop is a fold that ends at the first component that is not found. -/
theorem resolveLoop_eq_foldlM (mem : Nat → Bool) (d : TinyfsData) (n : Nat) (ts : List CString) (node : Node) :
    resolveLoop mem d n ts node =
      (ts.zipIdx n).foldlM (fun node t => vfsFinddir (mem t.2) d node t.1) node := by
  induction ts generalizing n node with
  | nil => rfl
  | cons t ts ih =>
    simp only [resolveLoop, List.zipIdx_cons, List.foldlM_cons]
    by_cases hd : node.type = .directory
    · cases hf : vfsFinddir (mem n) d node t with
      | none => simp [hd]
      | some m => simpa [hd] using ih (n + 1) m
    · simp [vfsFinddir, hd]

/-- **Resolving** an absolute path of at most 32 components in a mounted filesystem is the left fold of `finddir` from
the root along the components, each cut to 255 characters; so another path with the same components resolves to
the same node, or fails as well. -/
theorem vfsResolvePath_fold {v : VfsState} (hv : v.rootNode = some rootNode) (mem : Nat → Bool) {path : CString}
    (hp : path.head? = some slash) (hc : ((path.splitOn slash).filter (· ≠ [])).length ≤ 32) :
    vfsResolvePath mem v path =
        .ok (((((path.splitOn slash).filter (· ≠ [])).map (·.take 255)).zipIdx).foldlM
          (fun node t => vfsFinddir (mem t.2) v.fs.data node t.1) rootNode) ∧
      ∀ path' : CString, path'.head? = some slash →
        (path'.splitOn slash).filter (· ≠ []) = (path.splitOn slash).filter (· ≠ []) →
        vfsResolvePath mem v path' = vfsResolvePath mem v path := by
  rw [← components_eq_splitOn] at hc ⊢
  refine ⟨by rw [vfsResolvePath_eq hv mem hp hc, resolveLoop_eq_foldlM], fun path' hp' he => ?_⟩
  rw [← components_eq_splitOn] at he
  rw [vfsResolvePath_eq hv mem hp hc, vfsResolvePath_eq hv mem hp' (by rw [he]; exact hc), he]

/-- The path `//a/b/`. -/
def pathSlashes : CString := [slash, slash, charA, slash, charB, slash]

/-- The file `b` in the directory `a`, by the fold. -/
theorem vfsResolvePath_fold_slashes :
    vfsResolvePath (fun _ => true) (vfsMounted ⟨nestedData, blankDisk⟩) pathSlashes = .ok (some (nodeOf nestedData 2)) ∧
    vfsResolvePath (fun _ => true) (vfsMounted ⟨nestedData, blankDisk⟩) pathSlashes =
        .ok (((((pathSlashes.splitOn slash).filter (· ≠ [])).map (·.take 255)).zipIdx).foldlM
          (fun node t => vfsFinddir true nestedData node t.1) rootNode) ∧
      ∀ path' : CString, path'.head? = some slash →
        (path'.splitOn slash).filter (· ≠ []) = (pathSlashes.splitOn slash).filter (· ≠ []) →
        vfsResolvePath (fun _ => true) (vfsMounted ⟨nestedData, blankDisk⟩) path' =
          vfsResolvePath (fun _ => true) (vfsMounted ⟨nestedData, blankDisk⟩) pathSlashes := by
  refine ⟨?_, vfsResolvePath_fold rfl (fun _ => true) rfl (by decide)⟩
  rw [vfsResolvePath_eq rfl _ rfl (by decide)]
  exact congrArg _ (by decide +kernel)

end AmqOs.Vfs
