import AmqOs.Lib.Run

/-!
# The receive ring of the E1000

The device completes the descriptors in ring order and `e1000_interrupt_handler` passes the completed ones to
`net_receive_packet`, which may call the handler again (a send asks `arp_resolve`, which polls). The index that the handler
advances is a local variable, written back to `rx_cur` when it is done, and a descriptor is given back only when its frame
has been processed: a handler called from inside the first packet of another finds the same frame once more.

As long as no poll is made from inside packet processing, every frame is passed on once and in order; `rx_cur` designates the
first descriptor not yet processed in every state as long as, besides, no call goes on to a second frame (`rx_run`). The
invariant `RxInv` counts the frames: frame `k` lies in descriptor `k % 32`.
-/

set_option autoImplicit false

namespace AmqOs.Network

open Lib

/-! ## The device and the handler -/

/-- A receive descriptor: bit 0 of `status`, and the first `length` bytes of its buffer. -/
structure RxDesc where
  done : Bool
  data : List UInt8

/-- The ring and its registers, the local `idx` of the calls inside `net_receive_packet` (the innermost first), and two logs:
the frames that the device has stored, and those passed to `net_receive_packet`. -/
structure Rx where
  descs : Nat → RxDesc
  rxCur : Nat
  rdh : Nat
  rdt : Nat
  calls : List Nat
  received : List (List UInt8)
  passed : List (List UInt8)

inductive RxEvent where
  /-- A frame arrives at the device. -/
  | frame (data : List UInt8)
  /-- `e1000_interrupt_handler` is called. -/
  | poll
  /-- `net_receive_packet` returns to the innermost call. -/
  | go
  deriving DecidableEq

/-- The device stores a frame in the descriptor at the head, when the head has not reached the tail. -/
def rxFrame (s : Rx) (data : List UInt8) : Rx :=
  if s.rdh = s.rdt then s
  else { s with
    descs := Function.update s.descs s.rdh ⟨true, data⟩
    rdh := (s.rdh + 1) % 32
    received := s.received ++ [data] }

/-- The test of the loop, with the call of `net_receive_packet` behind it or the end of the handler. -/
def rxTest (s : Rx) (idx : Nat) (calls : List Nat) : Rx :=
  if (s.descs idx).done then { s with calls := idx :: calls, passed := s.passed ++ [(s.descs idx).data] }
  else { s with calls := calls, rxCur := idx, rdt := if idx = 0 then 31 else idx - 1 }

/-- The handler from its start. A call can come from outside, or from inside a packet. -/
def rxPoll (s : Rx) : Rx := rxTest s s.rxCur s.calls

/-- The handler behind `net_receive_packet`: it gives the descriptor back and comes to its test again. -/
def rxGo (s : Rx) : Rx :=
  match s.calls with
  | [] => s
  | idx :: calls =>
    rxTest { s with descs := Function.update s.descs idx { s.descs idx with done := false } } ((idx + 1) % 32) calls

def rxEvent (s : Rx) : RxEvent → Rx
  | .frame data => rxFrame s data
  | .poll => rxPoll s
  | .go => rxGo s

def rxStep (s : Rx) (e : RxEvent) : Except Empty (Unit × Rx) := .ok ((), rxEvent s e)

/-- After `e1000_init`. -/
def rxInit : Rx where
  descs _ := ⟨false, []⟩
  rxCur := 0
  rdh := 0
  rdt := 31
  calls := []
  received := []
  passed := []

/-! ## What the ring is for -/

/-- The frames passed on are the first of those received, the others lie in their descriptors, and a poll from outside passes
them on. -/
structure RxOk (s : Rx) : Prop where
  inOrder : s.passed <+: s.received
  waiting : ∀ k data, s.passed.length ≤ k → s.received[k]? = some data → s.descs (k % 32) = ⟨true, data⟩
  all : s.calls = [] → ∃ n, ((.poll :: List.replicate n .go).foldl rxEvent s).passed = s.received ∧
    ((.poll :: List.replicate n .go).foldl rxEvent s).calls = []

/-- `rx_cur` designates the first descriptor not yet processed. Of the frames passed on, the one that a call is inside
`net_receive_packet` with is not. -/
def CurFirst (s : Rx) : Prop := s.rxCur = (s.passed.length - s.calls.length) % 32

instance (s : Rx) : Decidable (CurFirst s) := inferInstanceAs (Decidable (_ = _))

/-- No poll from inside packet processing. -/
def NotNested (s : Rx) (e : RxEvent) : Prop := e = .poll → s.calls = []

instance (s : Rx) (e : RxEvent) : Decidable (NotNested s e) := inferInstanceAs (Decidable (_ → _))

/-- When the processing of a packet ends, no further frame lies in the next descriptor: the call does not go on to it. -/
def OneFrame (s : Rx) (e : RxEvent) : Prop := e = .go → ∀ idx ∈ s.calls.head?, (s.descs ((idx + 1) % 32)).done = false

instance (s : Rx) (e : RxEvent) : Decidable (OneFrame s e) := inferInstanceAs (Decidable (_ → _))

/-! ## The invariant -/

/-- The descriptors in use. The frames below `q` are done with; `c` of them were when `rx_cur` and the tail were last
written. -/
structure RxRing (c q : Nat) (s : Rx) : Prop where
  head : s.rdh = s.received.length % 32
  cur : s.rxCur = c % 32
  tail : s.rdt = (c + 31) % 32
  le : c ≤ q
  handled : q ≤ s.received.length
  room : s.received.length ≤ c + 31
  full : ∀ k data, q ≤ k → s.received[k]? = some data → s.descs (k % 32) = ⟨true, data⟩
  free : ∀ k, s.received.length ≤ k → k < q + 32 → (s.descs (k % 32)).done = false

/-- The calls under way, with the frames they have passed on. -/
inductive RxCalls (c q : Nat) (s : Rx) : Prop
  | idle (hcalls : s.calls = []) (hc : c = q) (hpassed : s.passed = s.received.take q)
  | packet (hcalls : s.calls = [q % 32]) (hlt : q < s.received.length) (hpassed : s.passed = s.received.take (q + 1))

def RxInv (s : Rx) : Prop := ∃ c q, RxRing c q s ∧ RxCalls c q s

section Steps

variable {s : Rx} {c q : Nat}

theorem rxInv_init : RxInv rxInit := by
  refine ⟨0, 0, ?_, .idle rfl rfl rfl⟩
  constructor <;> simp [rxInit]

theorem RxRing.frame (h : RxRing c q s) (data : List UInt8) (hne : s.rdh ≠ s.rdt) : RxRing c q (rxFrame s data) := by
  have hhead := h.head
  have htail := h.tail
  have hle := h.le
  have hq := h.handled
  have hroom := h.room
  rw [rxFrame, if_neg hne]
  have hlen : (s.received ++ [data]).length = s.received.length + 1 := by
    rw [List.length_append, List.length_singleton]
  refine ⟨?_, h.cur, h.tail, hle, ?_, ?_, ?_, ?_⟩ <;> simp only [hlen]
  · omega
  · omega
  · omega
  · intro k d hk hd
    by_cases hlast : k < s.received.length
    · rw [Function.update_of_ne (by omega)]
      rw [List.getElem?_append_left hlast] at hd
      exact h.full k d hk hd
    · rw [List.getElem?_append_right (by omega)] at hd
      obtain ⟨hlt, hd⟩ := List.getElem?_eq_some_iff.mp hd
      have hkr : k = s.received.length := by
        simp only [List.length_singleton] at hlt
        omega
      subst hkr
      simp only [List.getElem_singleton] at hd
      rw [hhead, Function.update_self, hd]
  · intro k hk hk'
    rw [Function.update_of_ne (by omega)]
    exact h.free k (by omega) hk'

theorem RxCalls.frame (h : RxCalls c q s) (hr : RxRing c q s) (data : List UInt8) (hne : s.rdh ≠ s.rdt) :
    RxCalls c q (rxFrame s data) := by
  have hq := hr.handled
  rw [rxFrame, if_neg hne]
  cases h with
  | idle hcalls hc hpassed => exact .idle hcalls hc (by rw [List.take_append_of_le_length hq]; exact hpassed)
  | packet hcalls hlt hpassed =>
    refine .packet hcalls ?_ (by rw [List.take_append_of_le_length hlt]; exact hpassed)
    simp only [List.length_append, List.length_singleton]
    omega

theorem take_succ_of_lt {α : Type} {l : List α} {n : Nat} {a : α} (h : l[n]? = some a) : l.take (n + 1) = l.take n ++ [a] := by
  rw [List.take_add_one, h]
  rfl

/-- The next frame is passed on. -/
theorem RxRing.test_pass (h : RxRing c q s) (hpassed : s.passed = s.received.take q) (hlt : q < s.received.length) :
    RxRing c q (rxTest s (q % 32) []) ∧ RxCalls c q (rxTest s (q % 32) []) := by
  obtain ⟨data, hdata⟩ : ∃ data, s.received[q]? = some data := ⟨_, List.getElem?_eq_getElem hlt⟩
  have hdesc := h.full q data le_rfl hdata
  have htest : rxTest s (q % 32) [] = { s with calls := [q % 32], passed := s.passed ++ [data] } := by
    simp [rxTest, hdesc]
  rw [htest]
  refine ⟨⟨h.head, h.cur, h.tail, h.le, h.handled, h.room, h.full, h.free⟩, .packet rfl hlt ?_⟩
  rw [take_succ_of_lt hdata, hpassed]

/-- There is no frame left, and the call returns. -/
theorem RxRing.test_return (h : RxRing c q s) (hpassed : s.passed = s.received.take q) (hend : s.received.length ≤ q) :
    RxRing q q (rxTest s (q % 32) []) ∧ RxCalls q q (rxTest s (q % 32) []) := by
  have hfree := h.free q hend (by omega)
  have hq := h.handled
  have htest : rxTest s (q % 32) [] =
      { s with calls := [], rxCur := q % 32, rdt := if q % 32 = 0 then 31 else q % 32 - 1 } := by
    simp [rxTest, hfree]
  rw [htest]
  have hroom : s.received.length ≤ q + 31 := by omega
  refine ⟨⟨h.head, rfl, ?_, le_rfl, hq, hroom, h.full, h.free⟩, .idle rfl rfl hpassed⟩
  simp only
  split_ifs <;> omega

/-- The descriptor of a frame that was processed is given back. -/
theorem RxRing.clear (h : RxRing c q s) (hlt : q < s.received.length) :
    RxRing c (q + 1) { s with descs := Function.update s.descs (q % 32) { s.descs (q % 32) with done := false } } := by
  have hle := h.le
  have hroom := h.room
  refine ⟨h.head, h.cur, h.tail, by omega, hlt, hroom, ?_, ?_⟩
  · intro k data hk hdata
    have hkr : k < s.received.length := (List.getElem?_eq_some_iff.mp hdata).1
    simp only
    rw [Function.update_of_ne (by omega)]
    exact h.full k data (by omega) hdata
  · intro k hk hk'
    by_cases hkq : k % 32 = q % 32
    · simp only [hkq, Function.update_self]
    · simp only
      rw [Function.update_of_ne hkq]
      exact h.free k hk (by omega)

/-- A poll from outside starts at the next frame. -/
theorem rxPoll_idle (h : RxRing c c s) (hcalls : s.calls = []) : rxPoll s = rxTest s (c % 32) [] := by
  rw [rxPoll, h.cur, hcalls]

/-- A call goes on behind its packet. -/
theorem rxGo_packet (hcalls : s.calls = [q % 32]) : rxGo s =
    rxTest { s with descs := Function.update s.descs (q % 32) { s.descs (q % 32) with done := false } } ((q + 1) % 32) [] := by
  simp [rxGo, hcalls]

theorem RxInv.frame (h : RxInv s) (data : List UInt8) : RxInv (rxFrame s data) := by
  obtain ⟨c, q, hr, hcalls⟩ := h
  by_cases heq : s.rdh = s.rdt
  · rw [rxFrame, if_pos heq]
    exact ⟨c, q, hr, hcalls⟩
  · exact ⟨c, q, hr.frame data heq, hcalls.frame hr data heq⟩

theorem RxRing.test (h : RxRing c q s) (hpassed : s.passed = s.received.take q) : RxInv (rxTest s (q % 32) []) := by
  by_cases hlt : q < s.received.length
  · exact ⟨c, q, h.test_pass hpassed hlt⟩
  · exact ⟨q, q, h.test_return hpassed (by omega)⟩

theorem RxInv.event (h : RxInv s) {e : RxEvent} (he : NotNested s e) : RxInv (rxEvent s e) := by
  cases e with
  | frame data => exact h.frame data
  | poll =>
    obtain ⟨c, q, hr, hcalls⟩ := h
    cases hcalls with
    | idle hcalls hc hpassed =>
      subst hc
      rw [rxEvent, rxPoll_idle hr hcalls]
      exact hr.test hpassed
    | packet hcalls => exact absurd (he rfl) (by simp [hcalls])
  | go =>
    obtain ⟨c, q, hr, hcalls⟩ := h
    cases hcalls with
    | idle hcalls hc hpassed =>
      have hgo : rxGo s = s := by rw [rxGo, hcalls]
      rw [rxEvent, hgo]
      exact ⟨c, q, hr, .idle hcalls hc hpassed⟩
    | packet hcalls hlt hpassed =>
      rw [rxEvent, rxGo_packet hcalls]
      exact (hr.clear hlt).test hpassed

/-! ## A poll passes on what is there -/

/-- The rest of a call, when no more frames arrive: a step a frame. -/
theorem RxRing.drain (h : RxRing c q s) (hpassed : s.passed = s.received.take q) :
    ∃ n, ((List.replicate n RxEvent.go).foldl rxEvent (rxTest s (q % 32) [])).passed = s.received ∧
      ((List.replicate n RxEvent.go).foldl rxEvent (rxTest s (q % 32) [])).calls = [] := by
  have hq := h.handled
  obtain ⟨left, hleft⟩ := Nat.exists_eq_add_of_le hq
  induction left generalizing s q with
  | zero =>
    have hfree := h.free q (by omega) (by omega)
    refine ⟨0, ?_, ?_⟩
    · simp [rxTest, hfree, hpassed, hleft]
    · simp [rxTest, hfree]
  | succ left ih =>
    have hlt : q < s.received.length := by omega
    obtain ⟨data, hdata⟩ : ∃ data, s.received[q]? = some data := ⟨_, List.getElem?_eq_getElem hlt⟩
    have hdesc := h.full q data le_rfl hdata
    have htest : rxTest s (q % 32) [] = { s with calls := [q % 32], passed := s.passed ++ [data] } := by
      simp [rxTest, hdesc]
    obtain ⟨hr, -⟩ := h.test_pass hpassed hlt
    rw [htest] at hr ⊢
    have hpassed' : s.passed ++ [data] = s.received.take (q + 1) := by rw [take_succ_of_lt hdata, hpassed]
    obtain ⟨n, hall, hret⟩ := ih (hr.clear hlt) hpassed' (hr.clear hlt).handled (by simp only; omega)
    refine ⟨n + 1, ?_⟩
    simp only [List.replicate_succ, List.foldl_cons, rxEvent]
    rw [rxGo_packet rfl]
    exact ⟨hall, hret⟩

theorem RxInv.ok (h : RxInv s) : RxOk s := by
  obtain ⟨c, q, hr, hcalls⟩ := h
  have hq := hr.handled
  cases hcalls with
  | idle hcalls hc hpassed =>
    subst hc
    have hlen : s.passed.length = c := by
      rw [hpassed, List.length_take]
      omega
    refine ⟨by rw [hpassed]; exact List.take_prefix c _, fun k data hk => hr.full k data (by omega), fun _ => ?_⟩
    simp only [List.foldl_cons, rxEvent]
    rw [rxPoll_idle hr hcalls]
    exact hr.drain hpassed
  | packet hcalls hlt hpassed =>
    have hlen : s.passed.length = q + 1 := by
      rw [hpassed, List.length_take]
      omega
    have hbusy : s.calls ≠ [] := by simp [hcalls]
    exact ⟨by rw [hpassed]; exact List.take_prefix _ _, fun k data hk => hr.full k data (by omega), fun h => absurd h hbusy⟩

/-! ## Where `rx_cur` is -/

/-- As many frames are done with as when `rx_cur` was written. -/
theorem curFirst_iff (hr : RxRing c q s) (hcalls : RxCalls c q s) : CurFirst s ↔ c = q := by
  have hle := hr.le
  have hq := hr.handled
  have hroom := hr.room
  have hprocessed : s.passed.length - s.calls.length = q := by
    cases hcalls with
    | idle hcalls hc hpassed =>
      rw [hpassed, hcalls, List.length_take, List.length_nil]
      omega
    | packet hcalls hlt hpassed =>
      rw [hpassed, hcalls, List.length_take, List.length_singleton]
      omega
  rw [CurFirst, hprocessed, hr.cur]
  omega

/-- `rx_cur` stays right as long as the call does not go on to a further frame. -/
theorem curFirst_event_iff (h : RxInv s) (hcur : CurFirst s) {e : RxEvent} (he : NotNested s e) :
    CurFirst (rxEvent s e) ↔ OneFrame s e := by
  obtain ⟨c, q, hr, hcalls⟩ := h
  obtain rfl := (curFirst_iff hr hcalls).mp hcur
  cases e with
  | frame data =>
    have hone : OneFrame s (.frame data) := nofun
    refine iff_of_true ?_ hone
    rw [rxEvent]
    by_cases heq : s.rdh = s.rdt
    · rw [rxFrame, if_pos heq]
      exact hcur
    · exact (curFirst_iff (hr.frame data heq) (hcalls.frame hr data heq)).mpr rfl
  | poll =>
    have hone : OneFrame s .poll := nofun
    refine iff_of_true ?_ hone
    cases hcalls with
    | idle hcalls hc hpassed =>
      rw [rxEvent, rxPoll_idle hr hcalls]
      by_cases hlt : c < s.received.length
      · obtain ⟨hr', hcalls'⟩ := hr.test_pass hpassed hlt
        exact (curFirst_iff hr' hcalls').mpr rfl
      · obtain ⟨hr', hcalls'⟩ := hr.test_return hpassed (by omega)
        exact (curFirst_iff hr' hcalls').mpr rfl
    | packet hcalls => exact absurd (he rfl) (by simp [hcalls])
  | go =>
    cases hcalls with
    | idle hcalls hc hpassed =>
      have hgo : rxGo s = s := by rw [rxGo, hcalls]
      have hone : OneFrame s .go := by simp [OneFrame, hcalls]
      rw [rxEvent, hgo]
      exact iff_of_true hcur hone
    | packet hcalls hlt hpassed =>
      have hnext : OneFrame s .go ↔ (s.descs ((c + 1) % 32)).done = false := by simp [OneFrame, hcalls]
      rw [hnext, rxEvent, rxGo_packet hcalls]
      by_cases hlast : c + 1 < s.received.length
      · obtain ⟨data, hdata⟩ : ∃ data, s.received[c + 1]? = some data := ⟨_, List.getElem?_eq_getElem hlast⟩
        obtain ⟨hr', hcalls'⟩ := (hr.clear hlt).test_pass hpassed hlast
        rw [curFirst_iff hr' hcalls', hr.full (c + 1) data (by omega) hdata]
        simp
      · obtain ⟨hr', hcalls'⟩ := (hr.clear hlt).test_return hpassed (by simp only; omega)
        rw [curFirst_iff hr' hcalls']
        exact iff_of_true rfl (hr.free (c + 1) (by omega) (by omega))

end Steps

/-! ## Runs -/

/-- **Every frame once and in order**, in every run in which no poll comes from inside packet processing; and `rx_cur`
designates the first descriptor not yet processed after each of its steps if and only if no call goes on to a second frame. -/
theorem rx_run {es : List RxEvent} (hes : Along rxStep NotNested rxInit es) :
    (∃ rs s, runFrom rxStep rxInit es = .ok (rs, s) ∧ RxOk s) ∧
      (Along rxStep (fun s e => CurFirst (rxEvent s e)) rxInit es ↔ Along rxStep OneFrame rxInit es) := by
  constructor
  · have hstep : ∀ s e, RxInv s → NotNested s e → ∃ r s', rxStep s e = .ok (r, s') ∧ RxInv s' :=
      fun s e h he => ⟨(), rxEvent s e, rfl, h.event he⟩
    obtain ⟨rs, s, hrun, hinv⟩ := runFrom_inv RxInv hstep rxInv_init hes
    exact ⟨rs, s, hrun, hinv.ok⟩
  · -- as long as the steps meet either condition, `rx_cur` is right before the next one
    have hcongr : Along rxStep (fun s e => NotNested s e ∧ CurFirst (rxEvent s e)) rxInit es ↔
        Along rxStep (fun s e => NotNested s e ∧ OneFrame s e) rxInit es := by
      refine along_congr_of (fun s => RxInv s ∧ CurFirst s) ?_ ?_ ⟨rxInv_init, rfl⟩ es
      · rintro s e r s' ⟨hinv, -⟩ ⟨he, hcur⟩ hs'
        cases hs'
        exact ⟨hinv.event he, hcur⟩
      · rintro s e ⟨hinv, hcur⟩
        exact and_congr_right fun he => curFirst_event_iff hinv hcur he
    constructor
    · exact fun hcur => (hcongr.mp (hes.and hcur)).imp fun s e h => h.2
    · exact fun hone => (hcongr.mpr (hes.and hone)).imp fun s e h => h.2

/-- Three frames, each with a poll from outside. -/
theorem rx_run_three : (∃ rs s, runFrom rxStep rxInit
      [.frame [1], .poll, .go, .frame [2], .poll, .go, .frame [3], .poll, .go] = .ok (rs, s) ∧ RxOk s) ∧
    Along rxStep (fun s e => CurFirst (rxEvent s e)) rxInit
      [.frame [1], .poll, .go, .frame [2], .poll, .go, .frame [3], .poll, .go] :=
  have h := @rx_run [.frame [1], .poll, .go, .frame [2], .poll, .go, .frame [3], .poll, .go] (by decide)
  ⟨h.1, h.2.mpr (by decide)⟩

/-- The handler is called again from inside the first packet, and passes the packet on again; and without such a call, with
two frames, `rx_cur` stays at the first of them when its descriptor is given back. -/
theorem rxNested_twice : (¬ ∀ es, ∃ rs s, runFrom rxStep rxInit es = .ok (rs, s) ∧ RxOk s) ∧
    ¬ ∀ es, ∃ rs s, runFrom rxStep rxInit es = .ok (rs, s) ∧ CurFirst s := by
  constructor
  · intro h
    obtain ⟨rs, s, hrun, hok⟩ := h [.frame [1], .poll, .poll]
    cases hrun
    exact absurd hok.inOrder (by decide)
  · intro h
    obtain ⟨rs, s, hrun, hcur⟩ := h [.frame [1], .frame [2], .poll, .go]
    cases hrun
    exact absurd hcur (by decide)

end AmqOs.Network
