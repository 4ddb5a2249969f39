import AmqOs.Network.HttpDefs
import AmqOs.Network.TcpStates

/-!
# Sockets in use

`http_get` takes a socket and gives it back with `tcp_close` on each exit behind `tcp_connect`, but not where `tcp_connect`
itself fails: the socket stays in use for good (`httpGet_inUse_iff`). When it fails is read off the segments for the socket
(`tcpConnectCall_iff`): the connection is open after a SYN-ACK and as long as no FIN follows.

Ports are taken from a counter of 16 bits that starts at 49152, so that sockets in use have ports of their own in the dynamic
range as long as no more than 16384 sockets were handed out (`PortsBelow.run_iff`).
-/

set_option autoImplicit false

namespace AmqOs.Network

open AmqOs.Lib CString

/-! ## What polls keep -/

/-- What `tcp_receive` compares. -/
def TcpSocket.address (sock : TcpSocket) : Bool × UInt32 × UInt16 × UInt16 :=
  (sock.inUse, sock.remoteIp, sock.remotePort, sock.localPort)

/-- The sockets have the same addresses, and the next port is the same. -/
structure Quiet (st st' : HttpState) : Prop where
  address : ∀ j, (st'.sockets j).address = (st.sockets j).address
  nextPort : st'.nextPort = st.nextPort

section Frames

variable {env : HttpEnv} {st st' st'' : HttpState} {i j : Fin 16} {sockets sockets' : Fin 16 → TcpSocket} {n : Nat}

theorem Quiet.refl (st : HttpState) : Quiet st st := ⟨fun _ => rfl, rfl⟩

theorem Quiet.trans (h : Quiet st st') (h' : Quiet st' st'') : Quiet st st'' :=
  ⟨fun j => (h'.address j).trans (h.address j), h'.nextPort.trans h.nextPort⟩

theorem Quiet.inUse (h : Quiet st st') (j : Fin 16) : (st'.sockets j).inUse = (st.sockets j).inUse :=
  congrArg Prod.fst (h.address j)

theorem Quiet.localPort (h : Quiet st st') (j : Fin 16) : (st'.sockets j).localPort = (st.sockets j).localPort :=
  congrArg (fun a => a.2.2.2) (h.address j)

@[simp] theorem HttpState.modify_self (st : HttpState) (i : Fin 16) (f : TcpSocket → TcpSocket) :
    (st.modify i f).sockets i = f (st.sockets i) := Function.update_self _ _ _

theorem HttpState.modify_of_ne (st : HttpState) (f : TcpSocket → TcpSocket) (h : j ≠ i) :
    (st.modify i f).sockets j = st.sockets j := Function.update_of_ne h _ _

theorem address_setState (state : TcpState) (sock : TcpSocket) : (setState state sock).address = sock.address := rfl

theorem address_advanceSeq (n : Nat) (sock : TcpSocket) : (advanceSeq n sock).address = sock.address := rfl

theorem address_tcpHandle (sock : TcpSocket) (m : Mem) (data : Nat) (length : UInt16) :
    (tcpHandle sock m data length : _ × List (Event Unit)).1.address = sock.address := by
  unfold tcpHandle
  dsimp only
  split
  · split <;> rfl
  · split
    · rfl
    · split
      · split <;> rfl
      · rfl
  · split <;> rfl
  · rfl

theorem address_tcpReceive (m : Mem) (srcIp : UInt32) (data : Nat) (length : UInt16) (j : Fin 16) :
    ((tcpReceive sockets m srcIp data length : _ × List (Event Unit)).1 j).address = (sockets j).address := by
  unfold tcpReceive
  split
  · rfl
  · split
    · rfl
    · rename_i i _
      dsimp only
      by_cases hj : j = i
      · subst hj
        rw [Function.update_self, address_tcpHandle]
      · rw [Function.update_of_ne hj]

theorem quiet_receiveSegment (st : HttpState) (seg : Segment) : Quiet st (receiveSegment st seg) :=
  ⟨address_tcpReceive _ _ _ _, rfl⟩

theorem quiet_receive (segs : List Segment) (st : HttpState) : Quiet st (segs.foldl receiveSegment st) := by
  induction segs generalizing st with
  | nil => exact Quiet.refl st
  | cons seg segs ih => exact (quiet_receiveSegment st seg).trans (ih _)

theorem quiet_poll (env : HttpEnv) (st : HttpState) : Quiet st (poll env st) :=
  have h := quiet_receive (env.received st.polls) st
  ⟨h.address, h.nextPort⟩

theorem quiet_pollMany (env : HttpEnv) (n : Nat) (st : HttpState) : Quiet st (pollMany env n st) := by
  induction n generalizing st with
  | zero => exact Quiet.refl st
  | succ n ih => exact (quiet_poll env st).trans (ih _)

/-- Writing to a socket, but not to its address. -/
theorem quiet_modify (i : Fin 16) {f : TcpSocket → TcpSocket} (hf : ∀ sock, (f sock).address = sock.address)
    (st : HttpState) : Quiet st (st.modify i f) := by
  refine ⟨fun j => ?_, rfl⟩
  by_cases hj : j = i
  · subst hj
    rw [HttpState.modify_self, hf]
  · rw [HttpState.modify_of_ne st f hj]

theorem quiet_awaitEstablished (env : HttpEnv) (i : Fin 16) (n : Nat) (st : HttpState) :
    Quiet st (awaitEstablished env i n st).2 := by
  induction n generalizing st with
  | zero => exact Quiet.refl st
  | succ n ih =>
    unfold awaitEstablished
    dsimp only
    split
    · exact quiet_poll env st
    · exact (quiet_poll env st).trans (ih _)

theorem quiet_awaitClosed (env : HttpEnv) (i : Fin 16) (n : Nat) (st : HttpState) :
    Quiet st (awaitClosed env i n st) := by
  induction n generalizing st with
  | zero => exact Quiet.refl st
  | succ n ih =>
    unfold awaitClosed
    dsimp only
    split
    · exact quiet_pollMany env 10 st
    · exact (quiet_pollMany env 10 st).trans (ih _)

theorem quiet_awaitResponse (env : HttpEnv) (n noDataCount lastLen : Nat) (st : HttpState) :
    Quiet st (awaitResponse env n noDataCount lastLen st) := by
  induction n generalizing noDataCount lastLen st with
  | zero => exact Quiet.refl st
  | succ n ih =>
    unfold awaitResponse
    dsimp only
    split
    · exact (quiet_pollMany env 50 st).trans (ih _ _ _)
    · split
      · exact quiet_pollMany env 50 st
      · exact (quiet_pollMany env 50 st).trans (ih _ _ _)

theorem quiet_tcpSendCall (env : HttpEnv) (i : Fin 16) (length : Nat) (st : HttpState) :
    Quiet st (tcpSendCall env i length st).2 := by
  unfold tcpSendCall tcpSendPacketCall
  dsimp only
  split
  · split
    · exact (quiet_poll env st).trans (quiet_modify i (address_advanceSeq length) _)
    · exact quiet_poll env st
  · exact Quiet.refl st

theorem address_tcpClose (sock : TcpSocket) : (tcpClose sock : _ × List (Event Unit)).1.address = sock.address := by
  unfold tcpClose
  split <;> rfl

/-- `tcp_close` frees its socket. -/
theorem tcpCloseCall_eq (env : HttpEnv) (i : Fin 16) (st : HttpState) :
    ∃ st', Quiet st st' ∧ tcpCloseCall env i st = st'.modify i fun sock => { sock with inUse := false, state := .closed } := by
  unfold tcpCloseCall tcpSendPacketCall
  dsimp only
  split
  · have hfin := quiet_modify i (address_tcpClose ·) st
    have hsent := (hfin.trans (quiet_poll env _)).trans (quiet_modify i (f := advanceSeq 1) (fun _ => rfl) _)
    exact ⟨_, hsent.trans (quiet_awaitClosed env i 1000 _), rfl⟩
  · exact ⟨_, quiet_awaitClosed env i 1000 st, rfl⟩

end Frames

/-! ## The handshake -/

/-- The flags of a segment. -/
def Segment.flags (seg : Segment) : UInt8 := seg.mem (seg.data + 13)

/-- The segment is one for socket `i`. -/
def Segment.isFor (sockets : Fin 16 → TcpSocket) (i : Fin 16) (seg : Segment) : Bool :=
  20 ≤ seg.length && target sockets seg.mem seg.srcIp seg.data == some i

/-- The flags of the segments for socket `i`, in order. -/
def flagsFor (sockets : Fin 16 → TcpSocket) (i : Fin 16) (segs : List Segment) : List UInt8 :=
  (segs.filter (Segment.isFor sockets i)).map Segment.flags

/-- What socket `i` hears in `n` polls from poll `p` on. -/
def heard (env : HttpEnv) (sockets : Fin 16 → TcpSocket) (i : Fin 16) (p n : Nat) : List UInt8 :=
  flagsFor sockets i ((List.range' p n).flatMap env.received)

def isSynAck (flags : UInt8) : Bool := flags &&& tcpSyn ≠ 0 && flags &&& tcpAck ≠ 0

/-- A SYN-ACK, and no FIN behind the first one. -/
def Opens (flags : List UInt8) : Prop :=
  ∃ synAck rest, flags.dropWhile (fun f => !isSynAck f) = synAck :: rest ∧ ∀ f ∈ rest, f &&& tcpFin = 0

/-- The SYN is sent at poll `p`, and the connection is open after one of the 500000 polls behind it. -/
def Connects (env : HttpEnv) (sockets : Fin 16 → TcpSocket) (i : Fin 16) (p : Nat) : Prop :=
  env.sends p = true ∧ ∃ n, 1 ≤ n ∧ n ≤ 500000 ∧ Opens (heard env sockets i p (n + 1))

section Handshake

variable {env : HttpEnv} {st st' : HttpState} {i j : Fin 16} {sockets sockets' : Fin 16 → TcpSocket} {n p : Nat}
  {flags : List UInt8} {segs : List Segment}

theorem foldl_nextState_closed (flags : List UInt8) : flags.foldl nextState .closed = .closed := by
  induction flags with
  | nil => rfl
  | cons f flags ih => exact ih

theorem foldl_nextState_lastAck (flags : List UInt8) : flags.foldl nextState .lastAck ≠ .established := by
  induction flags with
  | nil => exact TcpState.noConfusion
  | cons f flags ih =>
    rw [List.foldl_cons, nextState]
    split
    · rw [foldl_nextState_closed]
      exact TcpState.noConfusion
    · exact ih

/-- A connection stays open until a FIN. -/
theorem foldl_nextState_established : flags.foldl nextState .established = .established ↔ ∀ f ∈ flags, f &&& tcpFin = 0 := by
  induction flags with
  | nil => simp
  | cons f flags ih =>
    rw [List.foldl_cons, nextState, List.forall_mem_cons]
    split
    · rename_i hfin
      exact iff_of_false (foldl_nextState_lastAck flags) fun h => hfin h.1
    · rename_i hfin
      rw [ih, and_iff_right (not_not.mp hfin)]

/-- **The handshake**, by the flags that are heard. -/
theorem foldl_nextState_synSent : flags.foldl nextState .synSent = .established ↔ Opens flags := by
  unfold Opens
  induction flags with
  | nil => simp
  | cons f flags ih =>
    rw [List.foldl_cons, nextState]
    by_cases hsyn : isSynAck f = true
    · rw [List.dropWhile_cons_of_neg (by simp [hsyn])]
      rw [isSynAck, Bool.and_eq_true, decide_eq_true_eq, decide_eq_true_eq] at hsyn
      rw [if_pos hsyn, foldl_nextState_established]
      simp
    · rw [List.dropWhile_cons_of_pos (by simp [hsyn])]
      rw [isSynAck, Bool.and_eq_true, decide_eq_true_eq, decide_eq_true_eq] at hsyn
      rw [if_neg hsyn, ih]

/-- Which socket a segment is for depends on the addresses. -/
theorem isFor_congr (h : ∀ j, (sockets' j).address = (sockets j).address) (seg : Segment) :
    seg.isFor sockets' i = seg.isFor sockets i := by
  have hmatch : ∀ j, (sockets' j).inUse = (sockets j).inUse ∧ (sockets' j).remoteIp = (sockets j).remoteIp ∧
      (sockets' j).remotePort = (sockets j).remotePort ∧ (sockets' j).localPort = (sockets j).localPort := by
    intro j
    have hj := h j
    simp only [TcpSocket.address, Prod.mk.injEq] at hj
    exact hj
  simp only [Segment.isFor, target, tcpFind, hmatch]

theorem heard_congr (h : ∀ j, (sockets' j).address = (sockets j).address) : heard env sockets' i p n = heard env sockets i p n := by
  unfold heard flagsFor
  rw [funext (isFor_congr h)]

/-- The first poll, and the others. -/
theorem heard_succ : heard env sockets i p (n + 1) = flagsFor sockets i (env.received p) ++ heard env sockets i (p + 1) n := by
  simp [heard, flagsFor, List.range'_succ]

/-- One segment moves the socket that it is for. -/
theorem state_receiveSegment (st : HttpState) (seg : Segment) (i : Fin 16) : ((receiveSegment st seg).sockets i).state =
    if seg.isFor st.sockets i then nextState (st.sockets i).state seg.flags else (st.sockets i).state := by
  have h := @tcpReceive_state st.sockets seg.mem seg.srcIp seg.data seg.length i
  simpa [receiveSegment, Segment.isFor, Segment.flags] using h

/-- The segments of a poll. -/
theorem state_receive (segs : List Segment) (st : HttpState) (i : Fin 16) : ((segs.foldl receiveSegment st).sockets i).state =
    (flagsFor st.sockets i segs).foldl nextState (st.sockets i).state := by
  induction segs generalizing st with
  | nil => rfl
  | cons seg segs ih =>
    have hrest : flagsFor (receiveSegment st seg).sockets i segs = flagsFor st.sockets i segs := by
      unfold flagsFor
      rw [funext (isFor_congr (quiet_receiveSegment st seg).address)]
    rw [List.foldl_cons, ih, hrest, state_receiveSegment]
    unfold flagsFor
    by_cases hfor : seg.isFor st.sockets i = true
    · rw [if_pos hfor, List.filter_cons_of_pos hfor, List.map_cons, List.foldl_cons]
    · rw [if_neg hfor, List.filter_cons_of_neg hfor]

/-- **Polls** move a socket as the segments do that it hears. -/
theorem state_pollMany (env : HttpEnv) (n : Nat) (st : HttpState) (i : Fin 16) : ((pollMany env n st).sockets i).state =
    (heard env st.sockets i st.polls n).foldl nextState (st.sockets i).state := by
  induction n generalizing st with
  | zero => rfl
  | succ n ih =>
    have hpolls : (poll env st).polls = st.polls + 1 := rfl
    have hpoll : ((poll env st).sockets i).state =
        (flagsFor st.sockets i (env.received st.polls)).foldl nextState (st.sockets i).state := state_receive _ _ _
    rw [pollMany, ih, heard_succ, List.foldl_append, hpoll, hpolls, heard_congr (quiet_poll env st).address]

/-- The loop of `tcp_connect` looks at the socket after each poll. -/
theorem awaitEstablished_iff : (awaitEstablished env i n st).1 = true ↔
    ∃ k, 1 ≤ k ∧ k ≤ n ∧ ((pollMany env k st).sockets i).state = .established := by
  induction n generalizing st with
  | zero =>
    refine iff_of_false (by simp [awaitEstablished]) ?_
    rintro ⟨k, h1, h0, -⟩
    omega
  | succ n ih =>
    unfold awaitEstablished
    dsimp only
    by_cases hopen : ((poll env st).sockets i).state = .established
    · rw [if_pos hopen]
      exact iff_of_true rfl ⟨1, le_rfl, by omega, hopen⟩
    · rw [if_neg hopen, ih]
      constructor
      · rintro ⟨k, h1, hk, hstate⟩
        exact ⟨k + 1, by omega, by omega, hstate⟩
      · rintro ⟨k, h1, hk, hstate⟩
        obtain ⟨k, rfl⟩ : ∃ k', k = k' + 1 := ⟨k - 1, by omega⟩
        have hk0 : k ≠ 0 := by
          rintro rfl
          exact hopen hstate
        exact ⟨k, by omega, by omega, hstate⟩

/-- The socket with the address of its peer. -/
def dialled (sockets : Fin 16 → TcpSocket) (i : Fin 16) (destIp : UInt32) (destPort : UInt16) : Fin 16 → TcpSocket :=
  Function.update sockets i { sockets i with remoteIp := destIp, remotePort := destPort }

variable {destIp : UInt32} {destPort : UInt16}

/-- **`tcp_connect`** returns 0 exactly when the handshake connects. -/
theorem tcpConnectCall_iff (hclosed : (st.sockets i).state = .closed) : (tcpConnectCall env i destIp destPort st).1 = true ↔
    Connects env (dialled st.sockets i destIp destPort) i st.polls := by
  set syn : HttpState := st.modify i fun sock => (tcpConnect sock destIp destPort : _ × List (Event Unit)).1 with hsyn
  have hsock : syn.sockets i = { st.sockets i with remoteIp := destIp, remotePort := destPort, state := .synSent } := by
    rw [hsyn, HttpState.modify_self, tcpConnect, if_pos hclosed]
  have haddress : ∀ j, (syn.sockets j).address = (dialled st.sockets i destIp destPort j).address := by
    intro j
    by_cases hj : j = i
    · subst hj
      rw [hsock, dialled, Function.update_self]
      rfl
    · rw [hsyn, HttpState.modify_of_ne _ _ hj, dialled, Function.update_of_ne hj]
  have hstate : ∀ k, ((pollMany env k ((poll env syn).modify i (advanceSeq 1))).sockets i).state = .established ↔
      Opens (heard env (dialled st.sockets i destIp destPort) i st.polls (k + 1)) := by
    intro k
    have hquiet := (quiet_poll env syn).trans (quiet_modify i (address_advanceSeq 1) _)
    have hpolls : ((poll env syn).modify i (advanceSeq 1)).polls = st.polls + 1 := rfl
    have hfirst : (((poll env syn).modify i (advanceSeq 1)).sockets i).state =
        (flagsFor syn.sockets i (env.received st.polls)).foldl nextState (syn.sockets i).state := by
      rw [HttpState.modify_self]
      exact state_receive _ _ _
    rw [state_pollMany, hfirst, heard_congr hquiet.address, hpolls, ← List.foldl_append, ← heard_succ, heard_congr haddress,
      hsock, foldl_nextState_synSent]
  unfold tcpConnectCall tcpSendPacketCall Connects
  rw [if_pos hclosed]
  dsimp only
  rw [← hsyn]
  have hpolls : syn.polls = st.polls := rfl
  rw [hpolls]
  by_cases hsends : env.sends st.polls = true
  · rw [if_pos hsends, and_iff_right hsends]
    simp only [← hstate]
    rw [← awaitEstablished_iff]
    split
    · rename_i h
      exact iff_of_true rfl h
    · rename_i h
      exact iff_of_false (by simp) h
  · rw [if_neg hsends]
    exact iff_of_false (by simp) fun h => hsends h.1

end Handshake

/-! ## `http_get` -/

/-- The socket that `tcp_socket` hands out. -/
def freeSocket (sockets : Fin 16 → TcpSocket) : Option (Fin 16) := (List.finRange 16).find? fun i => !(sockets i).inUse

/-- The table when a socket was handed out. -/
def handedOut (st : HttpState) (i : Fin 16) : Fin 16 → TcpSocket :=
  Function.update st.sockets i
    { st.sockets i with inUse := true, state := .closed, localPort := st.nextPort, seqNum := 1000 }

/-- The URL is accepted, its host found, and a socket free. -/
def Attempts (env : HttpEnv) (url : CString) (st : HttpState) (port : UInt16) (ip : UInt32) (i : Fin 16) : Prop :=
  ∃ host path, parseUrl url = some (host, path, port) ∧ env.dns host = some ip ∧ freeSocket st.sockets = some i

/-- A connection is attempted, and the handshake does not connect. -/
def ConnectFails (env : HttpEnv) (url : CString) (st : HttpState) : Prop :=
  ∃ port ip i, Attempts env url st port ip i ∧ ¬ Connects env (dialled (handedOut st i) i ip port) i (st.polls + 1)

/-- The same sockets are in use, with the same ports. -/
structure SamePorts (st st' : HttpState) : Prop where
  inUse : ∀ j, (st'.sockets j).inUse = (st.sockets j).inUse
  localPort : ∀ j, (st'.sockets j).localPort = (st.sockets j).localPort
  nextPort : st'.nextPort = st.nextPort

section Get

variable {env : HttpEnv} {st st' st'' : HttpState} {i j : Fin 16} {sockets sockets' : Fin 16 → TcpSocket}

theorem Quiet.samePorts (h : Quiet st st') : SamePorts st st' := ⟨h.inUse, h.localPort, h.nextPort⟩

theorem SamePorts.trans (h : SamePorts st st') (h' : SamePorts st' st'') : SamePorts st st'' :=
  ⟨fun j => (h'.inUse j).trans (h.inUse j), fun j => (h'.localPort j).trans (h.localPort j), h'.nextPort.trans h.nextPort⟩

theorem samePorts_modify (i : Fin 16) {f : TcpSocket → TcpSocket} (huse : (f (st.sockets i)).inUse = (st.sockets i).inUse)
    (hport : (f (st.sockets i)).localPort = (st.sockets i).localPort) : SamePorts st (st.modify i f) := by
  refine ⟨fun j => ?_, fun j => ?_, rfl⟩
  all_goals
    by_cases hj : j = i
    · subst hj
      rw [HttpState.modify_self]
      assumption
    · rw [HttpState.modify_of_ne st f hj]

/-- `tcp_connect` writes to its socket, but not whether it is in use and on which port. -/
theorem samePorts_tcpConnectCall (env : HttpEnv) (i : Fin 16) (destIp : UInt32) (destPort : UInt16) (st : HttpState) :
    SamePorts st (tcpConnectCall env i destIp destPort st).2 := by
  unfold tcpConnectCall tcpSendPacketCall
  split
  · rename_i hclosed
    have hsyn : SamePorts st (st.modify i fun sock => (tcpConnect sock destIp destPort : _ × List (Event Unit)).1) := by
      apply samePorts_modify <;> rw [tcpConnect, if_pos hclosed]
    have hpoll := hsyn.trans (quiet_poll env _).samePorts
    have hclose : ∀ st', SamePorts st' (st'.modify i (setState .closed)) := fun st' =>
      (quiet_modify i (address_setState .closed) st').samePorts
    dsimp only
    split
    · have hawait := hpoll.trans ((quiet_modify i (address_advanceSeq 1) _).trans
        (quiet_awaitEstablished env i (5000 * 100) _)).samePorts
      split
      · exact hawait
      · exact hawait.trans (hclose _)
    · exact hpoll.trans (hclose _)
  · exact (Quiet.refl st).samePorts

/-- `tcp_close` frees its socket, and no other. -/
theorem inUse_tcpCloseCall (env : HttpEnv) (i : Fin 16) (st : HttpState) (j : Fin 16) :
    ((tcpCloseCall env i st).sockets j).inUse = if j = i then false else (st.sockets j).inUse := by
  obtain ⟨st', hquiet, heq⟩ := tcpCloseCall_eq env i st
  rw [heq]
  by_cases hj : j = i
  · subst hj
    rw [HttpState.modify_self, if_pos rfl]
  · rw [HttpState.modify_of_ne _ _ hj, if_neg hj, hquiet.inUse]

theorem freeSocket_congr (h : ∀ j, (sockets' j).inUse = (sockets j).inUse) : freeSocket sockets' = freeSocket sockets := by
  simp only [freeSocket, h]

theorem tcpSocketCall_none (h : freeSocket st.sockets = none) : tcpSocketCall st = (none, st) := by
  unfold freeSocket at h
  unfold tcpSocketCall tcpSocket
  rw [h]

theorem tcpSocketCall_some (h : freeSocket st.sockets = some i) :
    tcpSocketCall st = (some i, { st with sockets := handedOut st i, nextPort := st.nextPort + 1 }) := by
  unfold freeSocket at h
  unfold tcpSocketCall tcpSocket
  rw [h]
  rfl

theorem inUse_of_freeSocket (h : freeSocket st.sockets = some i) : (st.sockets i).inUse = false := by
  have hfree := List.find?_some h
  simpa using hfree

theorem connects_congr {p : Nat} (h : ∀ j, (sockets' j).address = (sockets j).address) :
    Connects env sockets' i p ↔ Connects env sockets i p := by
  unfold Connects
  simp only [heard_congr h]

/-- The state in which `http_get` connects. -/
def connecting (env : HttpEnv) (st : HttpState) (i : Fin 16) : HttpState :=
  { poll env st with
    sockets := handedOut (poll env st) i
    nextPort := st.nextPort + 1
    response := { (poll env st).response with len := 0 } }

theorem sockets_connecting (env : HttpEnv) (st : HttpState) (i : Fin 16) :
    (connecting env st i).sockets = handedOut (poll env st) i := rfl

/-- Behind `tcp_socket`: every exit but one frees the socket. -/
theorem httpGet_connecting {url host path : CString} {port : UInt16} {ip : UInt32} (maxLen : Nat)
    (hurl : parseUrl url = some (host, path, port)) (hip : env.dns host = some ip)
    (hfree : freeSocket st.sockets = some i) (j : Fin 16) :
    ((httpGet env url maxLen st).2.sockets j).inUse =
      if (tcpConnectCall env i ip port (connecting env st i)).1 ∧ j = i then false
      else ((connecting env st i).sockets j).inUse := by
  have hquiet := quiet_poll env st
  have hfree' : freeSocket (poll env st).sockets = some i := by rw [freeSocket_congr hquiet.inUse, hfree]
  have hkeep := (samePorts_tcpConnectCall env i ip port (connecting env st i)).inUse j
  unfold httpGet
  rw [hurl]
  dsimp only
  rw [hip]
  dsimp only
  rw [tcpSocketCall_some hfree', hquiet.nextPort]
  dsimp only
  have hconnecting : HttpState.mk (handedOut (poll env st) i) (st.nextPort + 1) ⟨(poll env st).response.buffer, 0⟩
      (poll env st).polls = connecting env st i := rfl
  rw [hconnecting]
  by_cases hconn : (tcpConnectCall env i ip port (connecting env st i)).1 = true
  · rw [if_pos hconn, ← hkeep]
    simp only [hconn, true_and]
    have hsend := (quiet_tcpSendCall env i (buildRequest host path).length
      (tcpConnectCall env i ip port (connecting env st i)).2).inUse j
    split
    · have hawait := (quiet_awaitResponse env 10000 0 0 (tcpSendCall env i (buildRequest host path).length
        (tcpConnectCall env i ip port (connecting env st i)).2).2).inUse j
      split
      · rw [inUse_tcpCloseCall, hawait, hsend]
      · rw [inUse_tcpCloseCall, hawait, hsend]
    · rw [inUse_tcpCloseCall, hsend]
  · rw [if_neg hconn, if_neg fun h => hconn h.1]
    exact hkeep

/-- Before `tcp_socket`. -/
theorem httpGet_early {url : CString} (maxLen : Nat) (h : ∀ port ip i, ¬ Attempts env url st port ip i) :
    Quiet st (httpGet env url maxLen st).2 := by
  have hquiet := quiet_poll env st
  unfold httpGet
  cases hurl : parseUrl url with
  | none => exact Quiet.refl st
  | some parts =>
    obtain ⟨host, path, port⟩ := parts
    dsimp only
    cases hip : env.dns host with
    | none => exact hquiet
    | some ip =>
      dsimp only
      cases hfree : freeSocket st.sockets with
      | none =>
        rw [tcpSocketCall_none (by rw [freeSocket_congr hquiet.inUse, hfree])]
        exact hquiet
      | some i => exact absurd ⟨host, path, hurl, hip, hfree⟩ (h port ip i)

theorem address_connecting (env : HttpEnv) (st : HttpState) (i j : Fin 16) :
    ((connecting env st i).sockets j).address = (handedOut st i j).address := by
  have hquiet := quiet_poll env st
  unfold connecting handedOut
  dsimp only
  by_cases hj : j = i
  · subst hj
    rw [Function.update_self, Function.update_self]
    have haddress := hquiet.address j
    simp only [TcpSocket.address, Prod.mk.injEq] at haddress ⊢
    exact ⟨trivial, haddress.2.1, haddress.2.2.1, hquiet.nextPort⟩
  · rw [Function.update_of_ne hj, Function.update_of_ne hj, hquiet.address]

theorem address_dialled (h : ∀ j, (sockets' j).address = (sockets j).address) (ip : UInt32) (port : UInt16) (j : Fin 16) :
    (dialled sockets' i ip port j).address = (dialled sockets i ip port j).address := by
  unfold dialled
  by_cases hj : j = i
  · subst hj
    have haddress := h j
    rw [Function.update_self, Function.update_self]
    simp only [TcpSocket.address, Prod.mk.injEq] at haddress ⊢
    exact ⟨haddress.1, trivial, trivial, haddress.2.2.2⟩
  · rw [Function.update_of_ne hj, Function.update_of_ne hj, h]

/-- **`http_get`** leaves the sockets in use as they were exactly when the connection does not fail. -/
theorem httpGet_inUse_iff (env : HttpEnv) (url : CString) (maxLen : Nat) (st : HttpState) :
    (∀ j, ((httpGet env url maxLen st).2.sockets j).inUse = (st.sockets j).inUse) ↔ ¬ ConnectFails env url st := by
  by_cases hattempt : ∃ port ip i, Attempts env url st port ip i
  · obtain ⟨port, ip, i, hattempt⟩ := hattempt
    obtain ⟨host, path, hurl, hip, hfree⟩ := hattempt
    have hclosed : ((connecting env st i).sockets i).state = .closed := by
      rw [sockets_connecting, handedOut, Function.update_self]
    have hpolls : (connecting env st i).polls = st.polls + 1 := rfl
    have hconn : (tcpConnectCall env i ip port (connecting env st i)).1 = true ↔
        Connects env (dialled (connecting env st i).sockets i ip port) i (connecting env st i).polls :=
      tcpConnectCall_iff hclosed
    rw [connects_congr (address_dialled (address_connecting env st i) ip port), hpolls] at hconn
    have hfails : ConnectFails env url st ↔ ¬ Connects env (dialled (handedOut st i) i ip port) i (st.polls + 1) := by
      constructor
      · rintro ⟨port', ip', i', ⟨host', path', hurl', hip', hfree'⟩, hnot⟩
        rw [hurl] at hurl'
        cases hurl'
        rw [hip] at hip'
        cases hip'
        rw [hfree] at hfree'
        cases hfree'
        exact hnot
      · exact fun hnot => ⟨port, ip, i, ⟨host, path, hurl, hip, hfree⟩, hnot⟩
    rw [hfails, not_not, ← hconn]
    have hold := inUse_of_freeSocket hfree
    have hother : ∀ j, j ≠ i → ((connecting env st i).sockets j).inUse = (st.sockets j).inUse := by
      intro j hj
      have haddress := congrArg Prod.fst (address_connecting env st i j)
      rw [handedOut, Function.update_of_ne hj] at haddress
      exact haddress
    have hself : ((connecting env st i).sockets i).inUse = true := by
      rw [sockets_connecting, handedOut, Function.update_self]
    constructor
    · intro hkept
      by_contra hnot
      have hi := hkept i
      rw [httpGet_connecting maxLen hurl hip hfree i, if_neg fun h => hnot h.1, hself, hold] at hi
      cases hi
    · intro hok j
      rw [httpGet_connecting maxLen hurl hip hfree j]
      by_cases hj : j = i
      · subst hj
        rw [if_pos ⟨hok, rfl⟩, hold]
      · rw [if_neg fun h => hj h.2, hother j hj]
  · have hnone : ∀ port ip i, ¬ Attempts env url st port ip i := fun port ip i h => hattempt ⟨port, ip, i, h⟩
    refine iff_of_true (httpGet_early maxLen hnone).inUse ?_
    rintro ⟨port, ip, i, h, -⟩
    exact hnone port ip i h

end Get

/-! ## Ports -/

/-- A call on the sockets. -/
inductive SocketCall
  | socket
  | connect (i : Fin 16) (destIp : UInt32) (destPort : UInt16)
  | send (i : Fin 16) (length : Nat)
  | close (i : Fin 16)

def socketCall (env : HttpEnv) (st : HttpState) : SocketCall → HttpState
  | .socket => (tcpSocketCall st).2
  | .connect i destIp destPort => (tcpConnectCall env i destIp destPort st).2
  | .send i length => (tcpSendCall env i length st).2
  | .close i => tcpCloseCall env i st

/-- No socket is in use. -/
def bootHttp : HttpState := ⟨(bootHost : Host Unit).tcpSockets, 49152, ⟨fun _ => 0, 0⟩, 0⟩

/-- The sockets in use have ports of their own in the dynamic range. -/
structure PortsOk (sockets : Fin 16 → TcpSocket) : Prop where
  range : ∀ i, (sockets i).inUse = true → 49152 ≤ (sockets i).localPort.toNat ∧ (sockets i).localPort.toNat ≤ 65535
  distinct : ∀ i j, i ≠ j → (sockets i).inUse = true → (sockets j).inUse = true →
    (sockets i).localPort ≠ (sockets j).localPort

/-- How many sockets a call hands out. -/
def grants (st : HttpState) : SocketCall → Nat
  | .socket => if (freeSocket st.sockets).isSome then 1 else 0
  | _ => 0

/-- How many sockets the calls hand out. -/
def granted (env : HttpEnv) : HttpState → List SocketCall → Nat
  | _, [] => 0
  | st, call :: calls => grants st call + granted env (socketCall env st call) calls

/-- The state after `n` sockets were handed out: the ports in use are below the next one. -/
structure PortsBelow (n : Nat) (st : HttpState) : Prop where
  ok : PortsOk st.sockets
  below : ∀ i, (st.sockets i).inUse = true → (st.sockets i).localPort.toNat < 49152 + n
  next : st.nextPort = UInt16.ofNat (49152 + n)

section Ports

variable {env : HttpEnv} {st st' : HttpState} {call : SocketCall} {n : Nat} {i : Fin 16}

theorem portsBelow_bootHttp : PortsBelow 0 bootHttp :=
  ⟨⟨fun _ h => (by cases h), fun _ _ _ h => (by cases h)⟩, fun _ h => (by cases h), rfl⟩

/-- A state in which no more sockets are in use, on the same ports. -/
theorem PortsBelow.mono (h : PortsBelow n st) (hport : ∀ j, (st'.sockets j).localPort = (st.sockets j).localPort)
    (huse : ∀ j, (st'.sockets j).inUse = true → (st.sockets j).inUse = true) (hnext : st'.nextPort = st.nextPort) :
    PortsBelow n st' := by
  refine ⟨⟨fun i hi => ?_, fun i j hne hi hj => ?_⟩, fun i hi => ?_, ?_⟩
  · rw [hport]
    exact h.ok.range i (huse i hi)
  · rw [hport, hport]
    exact h.ok.distinct i j hne (huse i hi) (huse j hj)
  · rw [hport]
    exact h.below i (huse i hi)
  · rw [hnext, h.next]

theorem PortsBelow.samePorts (h : PortsBelow n st) (hsame : SamePorts st st') : PortsBelow n st' :=
  h.mono hsame.localPort (fun j hj => hsame.inUse j ▸ hj) hsame.nextPort

/-- A socket is handed out on the next port. -/
theorem PortsBelow.handOut (h : PortsBelow n st) (hn : n < 16384) :
    PortsBelow (n + 1) { st with sockets := handedOut st i, nextPort := st.nextPort + 1 } := by
  have hport : st.nextPort.toNat = 49152 + n := by
    rw [h.next, UInt16.toNat_ofNat', Nat.mod_eq_of_lt (by omega)]
  have hself : handedOut st i i =
      { st.sockets i with inUse := true, state := .closed, localPort := st.nextPort, seqNum := 1000 } :=
    Function.update_self _ _ _
  have hother : ∀ j, j ≠ i → handedOut st i j = st.sockets j := fun j hj => Function.update_of_ne hj _ _
  -- an old port is below the new one
  have hnew : ∀ j, (st.sockets j).inUse = true → (st.sockets j).localPort ≠ st.nextPort := by
    intro j hj heq
    have hlt := h.below j hj
    rw [heq, hport] at hlt
    omega
  refine ⟨⟨fun j hj => ?_, fun j k hne hj hk => ?_⟩, fun j hj => ?_, ?_⟩
  all_goals dsimp only at *
  · by_cases heq : j = i
    · subst heq
      rw [hself]
      dsimp only
      omega
    · rw [hother j heq] at hj ⊢
      exact h.ok.range j hj
  · by_cases heq : j = i
    · subst heq
      rw [hother k hne.symm] at hk ⊢
      rw [hself]
      exact (hnew k hk).symm
    · rw [hother j heq] at hj ⊢
      by_cases heq' : k = i
      · subst heq'
        rw [hself]
        exact hnew j hj
      · rw [hother k heq'] at hk ⊢
        exact h.ok.distinct j k hne hj hk
  · by_cases heq : j = i
    · subst heq
      rw [hself]
      dsimp only
      omega
    · rw [hother j heq] at hj ⊢
      have hlt := h.below j hj
      omega
  · rw [h.next, ← Nat.add_assoc, UInt16.ofNat_add (49152 + n)]
    rfl

/-- **One call.** -/
theorem PortsBelow.step (h : PortsBelow n st) (hn : n + grants st call ≤ 16384) :
    PortsBelow (n + grants st call) (socketCall env st call) := by
  cases call with
  | socket =>
    unfold grants at hn ⊢
    unfold socketCall
    cases hfree : freeSocket st.sockets with
    | none =>
      rw [tcpSocketCall_none hfree]
      exact h
    | some i =>
      rw [hfree] at hn
      rw [tcpSocketCall_some hfree]
      exact h.handOut hn
  | connect i destIp destPort => exact h.samePorts (samePorts_tcpConnectCall env i destIp destPort st)
  | send i length => exact h.samePorts (quiet_tcpSendCall env i length st).samePorts
  | close i =>
    obtain ⟨st', hquiet, heq⟩ := tcpCloseCall_eq env i st
    have hcall : socketCall env st (.close i) = tcpCloseCall env i st := rfl
    rw [hcall]
    refine h.mono (fun j => ?_) (fun j hj => ?_) ?_
    · rw [heq, ← hquiet.localPort j]
      by_cases hj : j = i
      · subst hj
        rw [HttpState.modify_self]
      · rw [HttpState.modify_of_ne _ _ hj]
    · rw [inUse_tcpCloseCall] at hj
      split at hj
      · cases hj
      · exact hj
    · rw [heq]
      exact hquiet.nextPort

/-- Behind the last port comes port 0. -/
theorem PortsBelow.wraps (h : PortsBelow n st) (hn : n = 16384) (hgrant : grants st call ≠ 0) :
    ¬ PortsOk (socketCall env st call).sockets := by
  cases call with
  | socket =>
    cases hfree : freeSocket st.sockets with
    | none =>
      unfold grants at hgrant
      rw [hfree] at hgrant
      exact absurd rfl hgrant
    | some i =>
      intro hok
      unfold socketCall at hok
      rw [tcpSocketCall_some hfree] at hok
      have hself : handedOut st i i =
          { st.sockets i with inUse := true, state := .closed, localPort := st.nextPort, seqNum := 1000 } :=
        Function.update_self _ _ _
      have hrange := (hok.range i (by dsimp only; rw [hself])).1
      dsimp only at hrange
      rw [hself, h.next, hn] at hrange
      have hzero : (UInt16.ofNat (49152 + 16384)).toNat = 0 := rfl
      dsimp only at hrange
      rw [hzero] at hrange
      omega
  | _ => exact absurd rfl hgrant

/-- **Runs.** -/
theorem PortsBelow.run_iff {calls : List SocketCall} (h : PortsBelow n st) (hn : n ≤ 16384) :
    (∀ done, done <+: calls → PortsOk (done.foldl (socketCall env) st).sockets) ↔ n + granted env st calls ≤ 16384 := by
  induction calls generalizing n st with
  | nil =>
    refine iff_of_true (fun done hdone => ?_) hn
    rw [List.prefix_nil.mp hdone]
    exact h.ok
  | cons call calls ih =>
    unfold granted
    rw [← Nat.add_assoc]
    by_cases hroom : n + grants st call ≤ 16384
    · rw [← ih (h.step hroom) hroom]
      constructor
      · intro hall done hdone
        exact hall (call :: done) (List.cons_prefix_cons.mpr ⟨rfl, hdone⟩)
      · intro hall done hdone
        cases done with
        | nil => exact h.ok
        | cons first done =>
          obtain ⟨rfl, htail⟩ := List.cons_prefix_cons.mp hdone
          exact hall done htail
    · have hgrants : grants st call ≤ 1 := by
        unfold grants
        split
        · split <;> omega
        · omega
      refine iff_of_false (fun hall => ?_) (by omega)
      exact h.wraps (by omega) (by omega) (hall [call] (List.cons_prefix_cons.mpr ⟨rfl, List.nil_prefix⟩))

end Ports

/-- **Sockets.** `http_get` leaves the sockets in use as they were exactly when the connection does not fail; and over any
calls since boot the sockets in use have ports of their own in the dynamic range exactly as long as no more than 16384 sockets
were handed out. -/
theorem sockets_kept_iff (env : HttpEnv) :
    (∀ url maxLen st, (∀ j, ((httpGet env url maxLen st).2.sockets j).inUse = (st.sockets j).inUse) ↔
      ¬ ConnectFails env url st) ∧
    (∀ calls, (∀ done, done <+: calls → PortsOk (done.foldl (socketCall env) bootHttp).sockets) ↔
      granted env bootHttp calls ≤ 16384) := by
  refine ⟨httpGet_inUse_iff env, fun calls => ?_⟩
  rw [portsBelow_bootHttp.run_iff (Nat.zero_le _), Nat.zero_add]

/-- The host is known, and nothing can be sent. -/
def noLink : HttpEnv := ⟨fun _ => some 0x0200000A, fun _ => [], fun _ => false⟩

/-- The SYN is not sent, and the socket stays in use. -/
theorem unsentSyn_leaks : ¬ ((∀ env url maxLen st j,
      ((httpGet env url maxLen st).2.sockets j).inUse = (st.sockets j).inUse) ∧
    (∀ env calls done, done <+: calls → PortsOk (done.foldl (socketCall env) bootHttp).sockets)) := by
  rintro ⟨h, -⟩
  exact absurd (h noLink (chars "a") 100 bootHttp 0) (by decide)

end AmqOs.Network
