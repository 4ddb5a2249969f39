import AmqOs.Lib.CString
import AmqOs.Lib.Loop

/-!
# The command history

A ring of 50 commands, and the place in it that the arrow keys have reached. `Holds l` says that the ring holds the commands
`l`, newest first, and `goTo i` puts the arrow keys at command `i`, counted from 1; the shell's prompt is 0. How far back
the place is, `history_prev` finds by walking from there to `write_pos`. In a full ring the oldest command lies at
`write_pos`, at distance 0: from there `history_prev` goes on to the newest one.

So the arrow keys walk through the list if and only if fewer than 50 commands are retained, each of which fits in its slot
(`history_walks_iff`).
-/

set_option autoImplicit false

namespace AmqOs.Shell

open AmqOs.Lib

/-- `CMD_MAX_LENGTH` -/
abbrev cmdMaxLength : Nat := 256

/-- `HISTORY_SIZE` -/
def historySize : Nat := 50

instance : NeZero historySize := ⟨by decide⟩

/-- `current` is `none` where the source has -1. -/
structure CommandHistory where
  commands : Vector (Vector UInt8 cmdMaxLength) historySize
  count : Nat
  current : Option (Fin historySize)
  writePos : Fin historySize

/-- `cmd_history` as it is initialised. -/
def cmdHistory : CommandHistory where
  commands := Vector.replicate _ (Vector.replicate _ 0)
  count := 0
  current := none
  writePos := 0

/-- The string in a slot. -/
def CommandHistory.text (h : CommandHistory) (pos : Fin historySize) : CString := .ofBytes (h.commands.get pos).toList

def stringsEqual : CString → CString → Bool
  | a :: s, b :: t => if a ≠ b then false else stringsEqual s t
  | [], [] => true
  | [], _ :: _ => false
  | _ :: _, [] => false

def historyAdd (h : CommandHistory) (cmd : CString) : CommandHistory :=
  if cmd = [] then h
  else if h.count > 0 ∧ stringsEqual (h.text (h.writePos - 1)) cmd then h
  else {
    commands := setAt h.commands h.writePos (CString.strcpy (n := 255) (h.commands.get h.writePos) cmd)
    writePos := h.writePos + 1
    count := if h.count < historySize then h.count + 1 else h.count
    current := none }

/-- The loop that counts the steps from `pos` on to `write_pos`. -/
def stepsBack (writePos pos : Fin historySize) (steps : Nat) : Nat :=
  if pos = writePos then steps else stepsBack writePos (pos + 1) (steps + 1)
termination_by (writePos - pos).val
decreasing_by
  rename_i hne
  have hs : historySize = 50 := rfl
  have h1 : (1 : Fin historySize).val = 1 := rfl
  have hp := pos.isLt
  have hw := writePos.isLt
  rw [Fin.ext_iff] at hne
  simp only [Fin.sub_def, Fin.add_def, h1, hs] at hp hw ⊢
  omega

def historyPrev (h : CommandHistory) : Option CString × CommandHistory :=
  if h.count = 0 then (none, h)
  else
    let current := match h.current with
      | none => h.writePos - 1
      | some current => if stepsBack h.writePos current 0 < h.count then current - 1 else current
    (some (h.text current), { h with current := some current })

def historyNext (h : CommandHistory) : Option CString × CommandHistory :=
  match h.current with
  | none => (none, h)
  | some current =>
    let nextPos := current + 1
    if nextPos = h.writePos then (some [], { h with current := none })
    else (some (h.text nextPos), { h with current := some nextPos })

/-! ## The list of commands -/

/-- A command is entered, unless it is empty or repeats the last one. -/
def remember (l : List CString) (cmd : CString) : List CString :=
  if cmd = [] ∨ l.head? = some cmd then l else cmd :: l

/-- The commands that are retained, newest first. -/
def retained (cmds : List CString) : List CString := (cmds.foldl remember []).take historySize

/-- `k` calls of `history_prev`. -/
def prevs (k : Nat) (h : CommandHistory) : CommandHistory := (fun h => (historyPrev h).2)^[k] h

/-- `k` calls of `history_next`. -/
def nexts (k : Nat) (h : CommandHistory) : CommandHistory := (fun h => (historyNext h).2)^[k] h

/-- The arrow keys walk through the commands `l`, newest first: `history_prev` from one to the next and no further than the
oldest, `history_next` back to the newest one and then to the empty line. -/
structure Walks (h : CommandHistory) (l : List CString) : Prop where
  prev : ∀ k, l ≠ [] → (historyPrev (prevs k h)).1 = l[min k (l.length - 1)]?
  next : ∀ k j, j + 1 < min k l.length → (historyNext (nexts j (prevs k h))).1 = l[min k l.length - (j + 2)]?
  empty : ∀ k j, j + 1 = min k l.length → (historyNext (nexts j (prevs k h))).1 = some []
  undo : ∀ k < l.length, (historyNext (historyPrev (prevs k h)).2).2 = prevs k h

/-! ## The ring -/

theorem stringsEqual_iff {s t : CString} : stringsEqual s t = true ↔ s = t := by
  induction s, t using stringsEqual.induct with
  | case1 a s b t hab => simp_all [stringsEqual]
  | case2 a s b t hab ih =>
    have hab : a = b := not_not.mp hab
    simp [stringsEqual, hab, ih]
  | case3 => simp [stringsEqual]
  | case4 => simp [stringsEqual]
  | case5 => simp [stringsEqual]

namespace CommandHistory

/-- The slot of command `i`. -/
def slot (h : CommandHistory) (i : Nat) : Fin historySize := h.writePos - Fin.ofNat historySize i

/-- The ring holds the commands `l`, newest first. -/
structure Holds (h : CommandHistory) (l : List CString) : Prop where
  count : h.count = l.length
  le : l.length ≤ historySize
  text : ∀ (i : Nat) (hi : i < l.length), h.text (h.slot (i + 1)) = l[i]

/-- The history when the arrow keys are at command `i`. -/
def goTo (h : CommandHistory) (i : Nat) : CommandHistory :=
  { h with current := if i = 0 then none else some (h.slot i) }

variable {h : CommandHistory} {l : List CString} {i : Nat}

theorem slot_sub_one : h.slot i - 1 = h.slot (i + 1) := by
  have hs : historySize = 50 := rfl
  have h1 : (1 : Fin historySize).val = 1 := rfl
  apply Fin.ext
  simp only [slot, Fin.sub_def, Fin.ofNat, h1, hs]
  omega

theorem slot_succ_add_one : h.slot (i + 1) + 1 = h.slot i := by
  have hs : historySize = 50 := rfl
  have h1 : (1 : Fin historySize).val = 1 := rfl
  apply Fin.ext
  simp only [slot, Fin.sub_def, Fin.add_def, Fin.ofNat, h1, hs]
  omega

theorem slot_eq_writePos_iff : h.slot i = h.writePos ↔ i % historySize = 0 := by
  have hs : historySize = 50 := rfl
  rw [Fin.ext_iff]
  simp only [slot, Fin.sub_def, Fin.ofNat, hs]
  have := h.writePos.isLt
  omega

theorem slot_mod : h.slot (i % historySize) = h.slot i := by
  unfold slot Fin.ofNat
  simp only [Nat.mod_mod]

theorem slot_zero : h.slot 0 = h.writePos := slot_eq_writePos_iff.mpr rfl

/-- The walk from a command to `write_pos`. -/
theorem stepsBack_slot (hi : i < historySize) (steps : Nat) : stepsBack h.writePos (h.slot i) steps = steps + i := by
  induction i generalizing steps with
  | zero => rw [stepsBack, if_pos slot_zero, Nat.add_zero]
  | succ i ih =>
    have hne : ¬ h.slot (i + 1) = h.writePos := by
      rw [slot_eq_writePos_iff, Nat.mod_eq_of_lt hi]
      omega
    rw [stepsBack, if_neg hne, slot_succ_add_one, ih (by omega)]
    omega

@[simp] theorem writePos_goTo : (h.goTo i).writePos = h.writePos := rfl

@[simp] theorem slot_goTo {j : Nat} : (h.goTo i).slot j = h.slot j := rfl

@[simp] theorem text_goTo {pos : Fin historySize} : (h.goTo i).text pos = h.text pos := rfl

theorem current_goTo (hi : i ≠ 0) : (h.goTo i).current = some (h.slot i) := if_neg hi

theorem holds_cmdHistory : cmdHistory.Holds [] :=
  ⟨rfl, Nat.zero_le _, fun _ hi => absurd hi (Nat.not_lt_zero _)⟩

/-! ## Adding -/

/-- What the ring holds after `history_add`. -/
def store (l : List CString) (cmd : CString) : List CString :=
  if cmd = [] ∨ l.head? = some cmd then l else (cmd.take (cmdMaxLength - 1) :: l).take historySize

theorem text_last (hl : h.Holds l) {cmd : CString} :
    h.count > 0 ∧ stringsEqual (h.text (h.writePos - 1)) cmd ↔ l.head? = some cmd := by
  rw [stringsEqual_iff, hl.count, ← slot_zero, slot_sub_one]
  cases l with
  | nil => simp
  | cons c l =>
    have h0 := hl.text 0 (Nat.succ_pos _)
    rw [List.getElem_cons_zero] at h0
    simp [h0]

theorem historyAdd_holds (hl : h.Holds l) (cmd : CString) : (historyAdd h cmd).Holds (store l cmd) := by
  unfold historyAdd store
  by_cases hskip : cmd = [] ∨ l.head? = some cmd
  · rw [if_pos hskip]
    rcases hskip with h0 | hlast
    · rwa [if_pos h0]
    · split
      · exact hl
      · rwa [if_pos ((text_last hl).mpr hlast)]
  · obtain ⟨h0, hlast⟩ := not_or.mp hskip
    rw [if_neg hskip, if_neg h0, if_neg fun h => hlast ((text_last hl).mp h)]
    have hle := hl.le
    refine ⟨?_, by simp, ?_⟩
    · simp only [hl.count, List.length_take, List.length_cons]
      split <;> omega
    · -- Command `i + 1` lies where command `i` was, and the new one at the old `write_pos`.
      intro i hi
      have hi' : i < historySize := lt_of_lt_of_le hi (by simp)
      have hshift : h.writePos + 1 - Fin.ofNat historySize (i + 1) = h.slot i := by
        have hs : historySize = 50 := rfl
        have h1 : (1 : Fin historySize).val = 1 := rfl
        apply Fin.ext
        simp only [slot, Fin.sub_def, Fin.add_def, Fin.ofNat, h1, hs]
        omega
      show CString.ofBytes (Vector.toList (Vector.get _ (h.writePos + 1 - Fin.ofNat historySize (i + 1)))) = _
      rw [hshift, get_setAt, List.getElem_take]
      cases i with
      | zero =>
        rw [if_pos slot_zero.symm]
        exact CString.ofBytes_strcpy _ _
      | succ i =>
        have hne : ¬ h.writePos = h.slot (i + 1) := by
          intro he
          have := slot_eq_writePos_iff.mp he.symm
          rw [Nat.mod_eq_of_lt hi'] at this
          omega
        rw [if_neg hne, List.getElem_cons_succ]
        exact hl.text i _

/-- The prompt stays the prompt. -/
theorem historyAdd_goTo_zero (cmd : CString) : (historyAdd (h.goTo 0) cmd).goTo 0 = historyAdd (h.goTo 0) cmd := by
  unfold historyAdd
  split
  · rfl
  · split <;> rfl

theorem foldl_historyAdd (cmds : List CString) : (cmds.foldl historyAdd cmdHistory).Holds (cmds.foldl store []) ∧
    (cmds.foldl historyAdd cmdHistory).goTo 0 = cmds.foldl historyAdd cmdHistory := by
  induction cmds using List.reverseRecOn with
  | nil => exact ⟨holds_cmdHistory, rfl⟩
  | append_singleton cmds cmd ih =>
    rw [List.foldl_append, List.foldl_append]
    refine ⟨historyAdd_holds ih.1 cmd, ?_⟩
    rw [List.foldl_cons, List.foldl_nil, ← ih.2]
    exact historyAdd_goTo_zero cmd

/-! ## The arrow keys -/

theorem historyPrev_goTo (hl : h.Holds l) (hne : l ≠ []) (hi : i ≤ l.length) :
    historyPrev (h.goTo i) =
      (l[(if i < historySize then min (i + 1) l.length else 1) - 1]?,
        h.goTo (if i < historySize then min (i + 1) l.length else 1)) := by
  have hpos := List.length_pos_iff.mpr hne
  have hle := hl.le
  -- The place that is found lies in the list.
  have hread : ∀ j, 0 < j → j ≤ l.length →
      (some (h.text (h.slot j)), { h with current := some (h.slot j) }) = (l[j - 1]?, h.goTo j) := by
    intro j hj hjl
    obtain ⟨j, rfl⟩ := Nat.exists_eq_succ_of_ne_zero (by omega : j ≠ 0)
    have hlt : j < l.length := by omega
    rw [Nat.succ_eq_add_one, hl.text j hlt, Nat.add_sub_cancel, List.getElem?_eq_getElem hlt]
    rfl
  have hcount : ¬ (h.goTo i).count = 0 := by
    show ¬ h.count = 0
    rw [hl.count]
    omega
  rw [historyPrev, if_neg hcount]
  by_cases h0 : i = 0
  · subst h0
    rw [if_pos (by decide), min_eq_left (by omega)]
    have hnewest : h.writePos - 1 = h.slot 1 := by rw [← slot_zero, slot_sub_one]
    show (some (h.text (h.writePos - 1)), { h with current := some (h.writePos - 1) }) = _
    rw [hnewest]
    exact hread 1 (by omega) (by omega)
  · rw [goTo, if_neg h0]
    show (some (h.text (if stepsBack h.writePos (h.slot i) 0 < h.count then h.slot i - 1 else h.slot i)),
      { h with current := some (if stepsBack h.writePos (h.slot i) 0 < h.count then h.slot i - 1 else h.slot i) }) = _
    have hcnt := hl.count
    rcases Nat.lt_or_ge i historySize with hlt | hge
    · rw [stepsBack_slot hlt, Nat.zero_add, if_pos hlt]
      by_cases hold : i < h.count
      · rw [if_pos hold, min_eq_left (by omega), slot_sub_one]
        exact hread (i + 1) (by omega) (by omega)
      · rw [if_neg hold, min_eq_right (by omega)]
        obtain rfl : i = l.length := by omega
        exact hread l.length (by omega) (by omega)
    · -- The oldest command of a full ring.
      obtain rfl : i = historySize := by omega
      have hstart : h.slot historySize = h.slot 0 := by rw [← slot_mod, Nat.mod_self]
      rw [hstart, stepsBack_slot (by decide), if_pos (by omega), if_neg (lt_irrefl _), slot_sub_one]
      exact hread 1 (by omega) (by omega)

theorem historyNext_goTo_zero : historyNext (h.goTo 0) = (none, h.goTo 0) := rfl

theorem historyNext_goTo (hl : h.Holds l) (hi0 : 0 < i) (hi : i ≤ l.length) :
    historyNext (h.goTo i) = (if i = 1 then some [] else l[i - 2]?, h.goTo (i - 1)) := by
  obtain ⟨i, rfl⟩ := Nat.exists_eq_succ_of_ne_zero (by omega : i ≠ 0)
  have hle := hl.le
  have hcur : (h.goTo (i + 1)).current = some (h.slot (i + 1)) := current_goTo (Nat.succ_ne_zero i)
  rw [Nat.succ_eq_add_one, historyNext]
  simp only [hcur, slot_succ_add_one, writePos_goTo, text_goTo, slot_eq_writePos_iff, Nat.add_sub_cancel,
    Nat.mod_eq_of_lt (show i < historySize by omega)]
  cases i with
  | zero => rfl
  | succ i =>
    have hlt : i < l.length := by omega
    rw [if_neg (by omega), if_neg (by omega), hl.text i hlt, show i + 1 + 1 - 2 = i by omega,
      List.getElem?_eq_getElem hlt]
    rfl

theorem nexts_goTo (hl : h.Holds l) (hi : i ≤ l.length) (j : Nat) : nexts j (h.goTo i) = h.goTo (i - j) := by
  induction j with
  | zero => rfl
  | succ j ih =>
    rw [nexts, Function.iterate_succ_apply', ← nexts, ih]
    rcases Nat.eq_zero_or_pos (i - j) with h0 | hpos
    · rw [h0, historyNext_goTo_zero, show i - (j + 1) = 0 by omega]
    · rw [historyNext_goTo hl hpos (by omega), show i - j - 1 = i - (j + 1) by omega]

/-- Before the oldest command of a full ring is passed, `history_prev` goes to the oldest command and stays. -/
theorem prevs_goTo (hl : h.Holds l) {k : Nat} (hk : l.length < historySize ∨ k ≤ historySize) :
    prevs k (h.goTo 0) = h.goTo (min k l.length) := by
  by_cases hne : l = []
  · subst hne
    have hstay : ∀ k, prevs k (h.goTo 0) = h.goTo 0 := by
      intro k
      induction k with
      | zero => rfl
      | succ k ih =>
        rw [prevs, Function.iterate_succ_apply', ← prevs, ih, historyPrev]
        exact congrArg Prod.snd (if_pos hl.count)
    rw [hstay, List.length_nil, Nat.min_zero]
  · have hle := hl.le
    induction k with
    | zero => rw [Nat.zero_min]; rfl
    | succ k ih =>
      rw [prevs, Function.iterate_succ_apply', ← prevs, ih (by omega), historyPrev_goTo hl hne (by omega)]
      show h.goTo _ = _
      rw [if_pos (by omega), show min (min k l.length + 1) l.length = min (k + 1) l.length by omega]

end CommandHistory

open CommandHistory

variable {h : CommandHistory} {l : List CString}

theorem walks_of_length_lt (hl : h.Holds l) (hlt : l.length < historySize) : Walks (h.goTo 0) l where
  prev k hne := by
    have hpos := List.length_pos_iff.mpr hne
    rw [prevs_goTo hl (.inl hlt), historyPrev_goTo hl hne (by omega), if_pos (by omega)]
    show l[_]? = l[_]?
    congr 1
    omega
  next k j hj := by
    rw [prevs_goTo hl (.inl hlt), nexts_goTo hl (by omega), historyNext_goTo hl (by omega) (by omega)]
    show (if _ then _ else l[_]?) = _
    rw [if_neg (by omega), Nat.sub_sub]
  empty k j hj := by
    rw [prevs_goTo hl (.inl hlt), nexts_goTo hl (by omega), historyNext_goTo hl (by omega) (by omega)]
    show (if _ then _ else l[_]?) = _
    rw [if_pos (by omega)]
  undo k hk := by
    have hne : l ≠ [] := List.length_pos_iff.mp (by omega)
    rw [prevs_goTo hl (.inl hlt), historyPrev_goTo hl hne (by omega), if_pos (by omega),
      historyNext_goTo hl (by omega) (by omega)]
    show h.goTo _ = _
    congr 1
    omega

/-- Every place that the arrow keys reach from the prompt is a command of the list or the prompt. -/
theorem exists_prevs_goTo (hl : h.Holds l) (hne : l ≠ []) (k : Nat) : ∃ i ≤ l.length, prevs k (h.goTo 0) = h.goTo i := by
  have hpos := List.length_pos_iff.mpr hne
  induction k with
  | zero => exact ⟨0, Nat.zero_le _, rfl⟩
  | succ k ih =>
    obtain ⟨i, hi, hk⟩ := ih
    refine ⟨if i < historySize then min (i + 1) l.length else 1, by split <;> omega, ?_⟩
    rw [prevs, Function.iterate_succ_apply', ← prevs, hk, historyPrev_goTo hl hne hi]

/-- What `history_prev` returns is a command of the ring. -/
theorem mem_of_historyPrev (hl : h.Holds l) {k : Nat} {c : CString} (hc : (historyPrev (prevs k (h.goTo 0))).1 = some c) :
    c ∈ l := by
  by_cases hne : l = []
  · subst hne
    rw [prevs_goTo hl (.inl (by decide)), historyPrev, if_pos (show (h.goTo _).count = 0 from hl.count)] at hc
    cases hc
  · obtain ⟨i, hi, hk⟩ := exists_prevs_goTo hl hne k
    rw [hk, historyPrev_goTo hl hne hi] at hc
    exact List.mem_of_getElem? hc

/-- A ring that holds fewer commands than the list: the empty line comes too early on the way back. -/
theorem length_le_of_walks {m : List CString} (hm : h.Holds m) (hempty : [] ∉ l) (hl : l.length ≤ historySize)
    (hw : Walks (h.goTo 0) l) : l.length ≤ m.length := by
  by_contra hlt
  have hpos : 0 < m.length := by
    have hne : l ≠ [] := List.length_pos_iff.mp (by omega)
    have h0 := hw.prev 0 hne
    rw [Nat.zero_min, List.getElem?_eq_getElem (by omega)] at h0
    exact List.length_pos_of_mem (mem_of_historyPrev hm h0)
  have hnext := hw.next l.length (m.length - 1) (by omega)
  rw [prevs_goTo hm (.inr hl), min_eq_right (by omega), nexts_goTo hm le_rfl, historyNext_goTo hm (by omega) (by omega),
    if_pos (by omega)] at hnext
  exact hempty (List.mem_of_getElem? hnext.symm)

/-- In a full ring the key goes on from the oldest command to the newest, and the key for the way back ends at the prompt. -/
theorem not_walks_of_full {m : List CString} (hm : h.Holds m) (hfull : m.length = historySize) (hempty : [] ∉ l)
    (hl : l.length = historySize) : ¬ Walks (h.goTo 0) l := by
  intro hw
  have hne : m ≠ [] := by
    rintro rfl
    cases hfull
  have hwrap : prevs (historySize + 1) (h.goTo 0) = h.goTo 1 := by
    rw [prevs, Function.iterate_succ_apply', ← prevs, prevs_goTo hm (.inr le_rfl), hfull, min_self,
      historyPrev_goTo hm hne hfull.ge, if_neg (lt_irrefl _)]
  have hnext := hw.next (historySize + 1) 0 (by rw [hl]; decide)
  have hone : 1 ≤ m.length := by rw [hfull]; decide
  rw [hwrap, nexts_goTo hm hone, Nat.sub_zero, historyNext_goTo hm (by omega) hone, if_pos rfl] at hnext
  exact hempty (List.mem_of_getElem? hnext.symm)

/-! ## The retained commands -/

theorem suffix_remember (l : List CString) (cmd : CString) : l <:+ remember l cmd := by
  unfold remember
  split
  · exact List.suffix_rfl
  · exact List.suffix_cons _ _

theorem nil_notMem_remember (cmds : List CString) : [] ∉ cmds.foldl remember [] := by
  induction cmds using List.reverseRecOn with
  | nil => exact List.not_mem_nil
  | append_singleton cmds cmd ih =>
    rw [List.foldl_append, List.foldl_cons, List.foldl_nil, remember]
    split
    · exact ih
    · rename_i hne
      rw [List.mem_cons, not_or]
      exact ⟨fun h => hne (.inl h.symm), ih⟩

theorem length_lt_of_mem_store {cmds : List CString} {c : CString} (hc : c ∈ cmds.foldl store []) :
    c.length < cmdMaxLength := by
  induction cmds using List.reverseRecOn with
  | nil => exact absurd hc List.not_mem_nil
  | append_singleton cmds cmd ih =>
    rw [List.foldl_append, List.foldl_cons, List.foldl_nil, store] at hc
    split at hc
    · exact ih hc
    · rcases List.mem_cons.mp (List.mem_of_mem_take hc) with rfl | hc
      · exact lt_of_le_of_lt (List.length_take_le _ _) (by decide)
      · exact ih hc

/-- With short commands and room for all of them, the ring holds what is to be retained. -/
theorem foldl_store_eq {cmds : List CString} (hlen : (cmds.foldl remember []).length ≤ historySize)
    (hshort : ∀ c ∈ cmds.foldl remember [], c.length < cmdMaxLength) : cmds.foldl store [] = cmds.foldl remember [] := by
  induction cmds using List.reverseRecOn with
  | nil => rfl
  | append_singleton cmds cmd ih =>
    rw [List.foldl_append, List.foldl_cons, List.foldl_nil] at hlen hshort ⊢
    have hsuf := suffix_remember (cmds.foldl remember []) cmd
    rw [List.foldl_append, List.foldl_cons, List.foldl_nil,
      ih (hsuf.length_le.trans hlen) fun c hc => hshort c (hsuf.subset hc)]
    unfold store remember at *
    split
    · rfl
    · rename_i hnew
      rw [if_neg hnew] at hlen hshort
      have hcmd := hshort cmd List.mem_cons_self
      rw [List.take_of_length_le (show cmd.length ≤ cmdMaxLength - 1 by omega), List.take_of_length_le hlen]

/-- The arrow keys walk through the retained commands if and only if the ring is not full (and no command is longer than
its slot, which the lines of the shell are not). -/
theorem history_walks_iff (cmds : List CString) : Walks (cmds.foldl historyAdd cmdHistory) (retained cmds) ↔
    (retained cmds).length < historySize ∧ ∀ c ∈ retained cmds, c.length < cmdMaxLength := by
  obtain ⟨hholds, hprompt⟩ := foldl_historyAdd cmds
  have hempty : [] ∉ retained cmds := fun h => nil_notMem_remember cmds (List.mem_of_mem_take h)
  have hle : (retained cmds).length ≤ historySize := List.length_take_le _ _
  rw [← hprompt]
  constructor
  · intro hw
    refine ⟨?_, ?_⟩
    · by_contra hfull
      have hlen := length_le_of_walks hholds hempty hle hw
      have := hholds.le
      exact not_walks_of_full hholds (by omega) hempty (by omega) hw
    · intro c hc
      obtain ⟨i, hi, rfl⟩ := List.getElem_of_mem hc
      have hprev := hw.prev i (List.ne_nil_of_mem hc)
      rw [min_eq_left (by omega), List.getElem?_eq_getElem hi] at hprev
      exact length_lt_of_mem_store (mem_of_historyPrev hholds hprev)
  · rintro ⟨hlt, hshort⟩
    have hall : retained cmds = cmds.foldl remember [] := by
      apply List.take_of_length_le
      rw [retained, List.length_take] at hlt
      omega
    rw [hall] at hlt hshort ⊢
    rw [foldl_store_eq hlt.le hshort] at hholds
    exact walks_of_length_lt hholds hlt

/-- Fifty commands, `!` to `R`. -/
def fiftyCommands : List CString := (List.range 50).map fun i => CString.ofBytes [33 + UInt8.ofNat i]

set_option maxRecDepth 8000 in
theorem fiftyCommands_not_walks : ¬ Walks (fiftyCommands.foldl historyAdd cmdHistory) (retained fiftyCommands) := by
  obtain ⟨hholds, hprompt⟩ := foldl_historyAdd fiftyCommands
  have hstored : (fiftyCommands.foldl store []).length = historySize := by decide
  rw [← hprompt]
  exact not_walks_of_full hholds hstored (by decide) (by decide)

end AmqOs.Shell
