import AmqOs.Editor.EditorFileDefs
import AmqOs.Editor.EditorRefine
import AmqOs.Vfs.VfsRecreate

/-!
# What `text_editor_save` leaves in the file

`text_editor_save` writes the lines from the start of the file on, and nothing shortens the file: what it held behind the new
end stays there. `saveWrites_iff` says for which files the result is the text of the buffer.
-/

set_option autoImplicit false

namespace AmqOs.Editor

open AmqOs.Lib AmqOs.Vfs

/-- The bytes of the lines, with a newline between two of them. -/
def joinLines (ls : List CString) : List UInt8 := [newline].intercalate (ls.map (List.map Subtype.val))

theorem joinLines_cons {s : CString} {ls : List CString} (h : ls ≠ []) :
    joinLines (s :: ls) = s.map Subtype.val ++ ([newline] ++ joinLines ls) := by
  rw [joinLines, List.map_cons, List.intercalate_cons_of_ne_nil (by simpa using h), List.append_assoc]
  rfl

theorem joinLines_singleton (s : CString) : joinLines [s] = s.map Subtype.val := List.intercalate_singleton

theorem lineBytes_eq {n w k : Nat} {lines : Rows n w} {s : CString} (h : RowAt lines k s) :
    lineBytes lines k = some (s.map Subtype.val) := by
  obtain ⟨r, hr, hh⟩ := h
  have hw := hh.1
  simp only [lineBytes, hr, hh.strlen, Option.bind_eq_bind, Option.bind_some]
  refine congrArg some (List.ext_getElem (by simp; omega) fun x hx hx' => ?_)
  rw [List.length_map] at hx'
  have hb := hh.2 x (le_of_lt hx')
  rw [← Vector.getElem?_toList, byte, List.getElem?_eq_getElem hx'] at hb
  simpa using (List.getElem?_eq_some_iff.mp hb).2

section Save

variable {v w : VfsState} {live : Fin 256 → Prop} {ch : Fin 256 → List Nat} {i j : Fin 256} {B : List UInt8}
  {new : List Nat}

/-- The loop over the lines that are left. -/
theorem saveLoop_spec (buf : EditorBuffer) {ls rest : List CString} {k : Nat} (hs : Shows buf.lines ls)
    (hcount : buf.lineCount = ls.length) (hrest : ls.drop k = rest) (h : Overwritten v live ch j i B new w) (hi : live i)
    (hroom : B.length + (joinLines rest).length ≤ 512 * ((ch i).length + (freeSet v.fs.data.fat).card)) :
    ∃ new' w', saveLoop buf j.val k rest.length w = .ok w' ∧ Overwritten v live ch j i (B ++ joinLines rest) new' w' := by
  induction rest generalizing k B new w with
  | nil => exact ⟨new, w, rfl, by rwa [joinLines, List.map_nil, List.intercalate_nil, List.append_nil]⟩
  | cons s rest ih =>
    have hlen := congrArg List.length hrest
    rw [List.length_drop, List.length_cons] at hlen
    have hk : ls[k]? = some s := by rw [← List.head?_drop, hrest]; rfl
    have htail : ls.drop (k + 1) = rest := by rw [← List.tail_drop, hrest]; rfl
    simp only [List.length_cons, saveLoop, lineBytes_eq (hs k s hk), checked, ok_bind]
    by_cases hlast : rest = []
    · subst hlast
      rw [joinLines_singleton] at hroom ⊢
      obtain ⟨r, new', w', he, h'⟩ := h.writeAll hi _ hroom
      rw [he]
      simp only [ok_bind]
      rw [if_neg (by rw [hcount]; simp only [List.length_nil] at hlen; omega)]
      exact ⟨_, w', rfl, h'⟩
    · have hpos := List.length_pos_iff.mpr hlast
      rw [joinLines_cons hlast, List.length_append, List.length_append] at hroom
      obtain ⟨r₁, new₁, w₁, he₁, h₁⟩ := h.writeAll hi (s.map Subtype.val) (by omega)
      obtain ⟨r₂, new₂, w₂, he₂, h₂⟩ := h₁.writeAll hi [newline] (by rw [List.length_append]; omega)
      obtain ⟨new', w', he, h'⟩ := ih htail h₂ (by simp only [List.length_append]; omega)
      rw [he₁]
      simp only [ok_bind]
      rw [if_pos (by rw [hcount]; omega), he₂]
      refine ⟨new', w', he, ?_⟩
      rw [joinLines_cons hlast]
      simpa only [List.append_assoc] using h'

end Save

/-! ## The whole call -/

/-- After the save the file reads as the lines of the buffer joined by newlines. -/
def TextEditor.SaveWrites (mem : Nat → Bool) (e : TextEditor) (v : VfsState) : Prop :=
  ∃ e' v', textEditorSave mem e v = .ok (e', v') ∧ ReadsBack v' e.buffer.filepath (joinLines e.doc.lines)

/-- `vfs_open` gives a descriptor. -/
def Opens (mem : Nat → Bool) (v : VfsState) (path : CString) : Prop := ∃ fd v', vfsOpen mem v path = .ok (fd, v') ∧ 0 ≤ fd

section Call

variable {mem : Nat → Bool} {e : TextEditor} {v : VfsState} {i : Fin 256} {path : CString} {node : Node}

theorem resolves_ne_nil (hv : v.rootNode = some rootNode) (h : vfsResolvePath mem v path = .ok (some node)) : path ≠ [] := by
  rintro rfl
  simp [vfsResolvePath, hv] at h

/-- The lines are written, and the file is as long as the longer of what it was and what they are. -/
theorem saveWrites_opened (he : e.Valid) (hm : MountInv v) {fd : Fin 256} (hfd : allocateFd v = some fd)
    (hres : vfsResolvePath mem v e.buffer.filepath = .ok (some node)) (hn : node.dirent = some i)
    (hroom : (joinLines e.doc.lines).length ≤ 512 * ((entryChain v.fs.data i).length + (freeSet v.fs.data.fat).card)) :
    e.SaveWrites mem v ↔ (v.fs.data.dirents.get i).size.toNat ≤ (joinLines e.doc.lines).length := by
  obtain ⟨ch, hinv⟩ := hm.wellFormed
  have hi : usedEntry v.fs.data i := by
    rcases vfsResolvePath_some hm.root hres with rfl | ⟨k, rfl, hk⟩
    · cases hn
    · obtain rfl : k = i := Option.some.inj hn
      exact hk
  rw [hinv.entryChain_eq hi] at hroom
  have hstart := Overwritten.start (v := v.setFd fd ⟨true, some node, 0⟩) hinv hm.reliable (opened_openOn v fd hn)
    (by rw [opened_get])
  have hdoc := he.shows
  obtain ⟨new, w, hloop, hw⟩ := saveLoop_spec e.buffer (k := 0) hdoc.shows hdoc.count_eq rfl hstart hi
    (by rw [List.length_nil, Nat.zero_add]; exact hroom)
  have hcall : textEditorSave mem e v =
      .ok ({ e with buffer := { e.buffer with modified := false } }, (vfsClose w fd.val).2) := by
    have hpos : ¬ (fd.val : Int) < 0 := by omega
    rw [List.drop_zero, ← hdoc.count_eq] at hloop
    simp only [textEditorSave, if_neg (resolves_ne_nil hm.root hres), vfsOpen_ok hres hfd, ok_bind, if_neg hpos, hloop]
  have hresw : vfsResolvePath mem (v.setFd fd ⟨true, some node, 0⟩) e.buffer.filepath = .ok (some node) :=
    (vfsResolvePath_dirents rfl rfl mem _).trans hres
  have hlen : (joinLines e.doc.lines).length < 2 ^ 31 := by
    have hchain := hinv.length_le hi
    have hfree : (freeSet v.fs.data.fat).card ≤ 923 := card_freeSet_le
    omega
  rw [List.drop_zero, List.nil_append] at hw
  have hback := hw.readsBack_iff hi hm.root hresw hn (firstFin_eq_some.mp hfd).1 hlen
  constructor
  · rintro ⟨e', v', hcall', hread⟩
    obtain ⟨-, rfl⟩ := Prod.mk.inj (Except.ok.inj (hcall.symm.trans hcall'))
    have hmax := (hback.mp hread).1
    exact hmax ▸ le_max_left _ _
  · exact fun hsize => ⟨_, _, hcall, hback.mpr ⟨max_eq_right hsize, hw.bytes⟩⟩

/-- **When a save writes the document**: when the file was not longer than the text. A save that gets no descriptor writes
nothing. -/
theorem saveWrites_iff (mem : Nat → Bool) (he : e.Valid) (hm : MountInv v) (hi : Names v e.buffer.filepath i)
    (hroom : (joinLines e.doc.lines).length ≤ 512 * ((entryChain v.fs.data i).length + (freeSet v.fs.data.fat).card)) :
    e.SaveWrites mem v ↔
      (Opens mem v e.buffer.filepath → (v.fs.data.dirents.get i).size.toNat ≤ (joinLines e.doc.lines).length) ∧
      (¬ Opens mem v e.buffer.filepath → ReadsBack v e.buffer.filepath (joinLines e.doc.lines)) := by
  have hres := hi.node hm.root
  obtain ⟨hp, hc⟩ := hi.fits hm.root
  have hfit : OpenFits e.buffer.filepath := fun _ => hc
  rcases vfsOpen_spec hm.root mem hfit with hno | ⟨fd, node', hres', hfd, hopen⟩
  · have hclosed : ¬ Opens mem v e.buffer.filepath := by
      rintro ⟨fd, v', hopen, h0⟩
      obtain ⟨rfl, -⟩ := Prod.mk.inj (Except.ok.inj (hno.symm.trans hopen))
      exact absurd h0 (by decide)
    have hcall : textEditorSave mem e v = .ok (e, v) := by
      simp only [textEditorSave, if_neg (resolves_ne_nil hm.root hres), hno, ok_bind]
      rfl
    refine ⟨fun ⟨e', v', hcall', hread⟩ => ⟨fun h => absurd h hclosed, fun _ => ?_⟩, fun h => ⟨e, v, hcall, h.2 hclosed⟩⟩
    obtain ⟨-, rfl⟩ := Prod.mk.inj (Except.ok.inj (hcall.symm.trans hcall'))
    exact hread
  · have hopened : Opens mem v e.buffer.filepath := ⟨_, _, hopen, Int.natCast_nonneg _⟩
    have hsame : node' = nodeOf v.fs.data i := by
      rw [vfsResolvePath_eq hm.root _ hp hc] at hres hres'
      have hmem := resolveLoop_mem (Except.ok.inj hres')
      exact Option.some.inj (hmem.symm.trans (Except.ok.inj hres))
    subst hsame
    rw [saveWrites_opened he hm hfd hres' rfl hroom]
    exact ⟨fun h => ⟨fun _ => h, fun hno => absurd hopened hno⟩, fun h => h.1 hopened⟩

end Call

/-! ### A shorter document -/

/-- The only line is `a`, and the file is `/a`. -/
def editorA : TextEditor :=
  { height := 500, buffer := { (TextEditor.ofDoc 500 0 ⟨[nameA], 0, 0⟩).buffer with filepath := pathA.val } }

theorem editorA_shows : editorA.Shows ⟨[nameA], 0, 0⟩ := by
  have h : (TextEditor.ofDoc 500 0 ⟨[nameA], 0, 0⟩).Shows ⟨[nameA], 0, 0⟩ :=
    TextEditor.shows_ofDoc ⟨by decide, Nat.one_pos, Nat.zero_le _, by simp [nameA]⟩
  exact h

theorem editorA_text : joinLines editorA.doc.lines = [97] := by
  rw [show editorA.doc = _ from editorA_shows.docOf_eq]
  rfl

theorem fileA_names (bytes : List UInt8) : Names (vfsMounted (fileA bytes)) pathA.val 1 := ⟨_, fileA_resolves bytes, rfl⟩

theorem editorA_room {bytes : List UInt8} (h : bytes.length ≤ 512) : (joinLines editorA.doc.lines).length ≤
    512 * ((entryChain (vfsMounted (fileA bytes)).fs.data 1).length +
      (freeSet (vfsMounted (fileA bytes)).fs.data.fat).card) := by
  rw [editorA_text, show entryChain (vfsMounted (fileA bytes)).fs.data 1 = [101] from fileA_chain h]
  simp only [List.length_singleton]
  omega

/-- A file of two bytes is not shortened to the one byte that is saved. -/
theorem shorter_not_written : editorA.Valid ∧ MountInv (vfsMounted (fileA [97, 98])) ∧
    Names (vfsMounted (fileA [97, 98])) editorA.buffer.filepath 1 ∧ (nodeOf (fileA [97, 98]).data 1).type = .regular ∧
    (joinLines editorA.doc.lines).length ≤
      512 * ((entryChain (vfsMounted (fileA [97, 98])).fs.data 1).length +
        (freeSet (vfsMounted (fileA [97, 98])).fs.data.fat).card) ∧
    ¬ editorA.SaveWrites (fun _ => true) (vfsMounted (fileA [97, 98])) := by
  have hlen : ([97, 98] : List UInt8).length ≤ 512 := by decide
  refine ⟨editorA_shows.valid, fileA_mountInv hlen, fileA_names _, ?_, editorA_room hlen, fun h => ?_⟩
  · simp only [nodeOf, fileA_entry]
    rfl
  · rw [saveWrites_opened editorA_shows.valid (fileA_mountInv hlen) (allocateFd_closed rfl) (fileA_resolves _) rfl
      (editorA_room hlen), editorA_text] at h
    rw [show ((vfsMounted (fileA [97, 98])).fs.data.dirents.get 1).size.toNat = 2 from fileA_size hlen] at h
    exact absurd h (by decide)

theorem saveWrites_iff_editorA : editorA.Valid ∧ MountInv (vfsMounted (fileA [98])) ∧
    (editorA.SaveWrites (fun _ => true) (vfsMounted (fileA [98])) ↔
      (Opens (fun _ => true) (vfsMounted (fileA [98])) editorA.buffer.filepath →
        ((vfsMounted (fileA [98])).fs.data.dirents.get 1).size.toNat ≤ (joinLines editorA.doc.lines).length) ∧
      (¬ Opens (fun _ => true) (vfsMounted (fileA [98])) editorA.buffer.filepath →
        ReadsBack (vfsMounted (fileA [98])) editorA.buffer.filepath (joinLines editorA.doc.lines))) := by
  have hlen : ([98] : List UInt8).length ≤ 512 := by decide
  exact ⟨editorA_shows.valid, fileA_mountInv hlen, saveWrites_iff (fun _ => true) editorA_shows.valid (fileA_mountInv hlen)
    (fileA_names _) (editorA_room hlen)⟩

end AmqOs.Editor
