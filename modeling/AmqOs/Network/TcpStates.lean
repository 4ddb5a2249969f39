import AmqOs.Network.TcpStream

/-!
# The states of a TCP connection

`tcp_receive` moves a socket by its state and the flags of the segment alone (`nextState`, `tcpHandle_state`). It reads the
sequence and the acknowledgement number, but compares neither with what the socket sent or expects, and `TCP_RST` is
nowhere looked at. So a socket is moved only by an answer to what it sent, and not left waiting by a reset, exactly when
the segments that would move it, or reset it, are the right ones (`tcpReceive_states_iff`).
-/

set_option autoImplicit false

namespace AmqOs.Network

open AmqOs.Lib

def tcpRst : UInt8 := 0x04

/-- The states after the handshake. -/
def TcpState.synchronised : TcpState → Bool
  | .established | .finWait1 | .finWait2 | .closeWait | .closing | .lastAck | .timeWait => true
  | .closed | .listen | .synSent | .synRcvd => false

/-- `ack` in `tcp_receive`. -/
def tcpAckNum (m : Mem) (data : Nat) : UInt32 := netHtonl (m.load32 (data + 8))

/-- `seq` in `tcp_receive`. -/
def tcpSeqNum (m : Mem) (data : Nat) : UInt32 := netHtonl (m.load32 (data + 4))

/-- The segment answers what the socket sent: its SYN, its FIN, or data up to the FIN of the peer. -/
def Answers (sock : TcpSocket) (m : Mem) (data : Nat) : Prop :=
  let flags := m (data + 13)
  match sock.state with
  | .synSent => flags &&& tcpSyn ≠ 0 ∧ flags &&& tcpAck ≠ 0 ∧ tcpAckNum m data = sock.seqNum
  | .established => flags &&& tcpFin ≠ 0 ∧ tcpSeqNum m data = sock.ackNum
  | .lastAck => flags &&& tcpAck ≠ 0 ∧ tcpAckNum m data = sock.seqNum
  | _ => False

/-- What a segment may do to the sockets. -/
structure StatesOk (sockets : Fin 16 → TcpSocket) (m : Mem) (srcIp : UInt32) (data : Nat) (length : UInt16)
    (sockets' : Fin 16 → TcpSocket) : Prop where
  answered : ∀ j, (sockets' j).state ≠ (sockets j).state →
    target sockets m srcIp data = some j ∧ Answers (sockets j) m data
  reset : ∀ j, 20 ≤ length → target sockets m srcIp data = some j → m (data + 13) &&& tcpRst ≠ 0 →
    (sockets' j).state.synchronised = false

/-- A segment that may reach the socket: it answers if it has the flags that move the socket, and a reset comes only where
the socket is not synchronised after it. -/
def Expected (sock : TcpSocket) (m : Mem) (data : Nat) : Prop :=
  let flags := m (data + 13)
  match sock.state with
  | .synSent => flags &&& tcpSyn ≠ 0 → flags &&& tcpAck ≠ 0 → tcpAckNum m data = sock.seqNum ∧ flags &&& tcpRst = 0
  | .established => (flags &&& tcpFin ≠ 0 → tcpSeqNum m data = sock.ackNum) ∧ flags &&& tcpRst = 0
  | .lastAck => (flags &&& tcpAck ≠ 0 → tcpAckNum m data = sock.seqNum) ∧ (flags &&& tcpRst ≠ 0 → flags &&& tcpAck ≠ 0)
  | state => flags &&& tcpRst ≠ 0 → state.synchronised = false

/-! ## Transitions -/

/-- The state after a segment with these flags. -/
def nextState (state : TcpState) (flags : UInt8) : TcpState :=
  match state with
  | .synSent => if flags &&& tcpSyn ≠ 0 ∧ flags &&& tcpAck ≠ 0 then .established else .synSent
  | .established => if flags &&& tcpFin ≠ 0 then .lastAck else .established
  | .lastAck => if flags &&& tcpAck ≠ 0 then .closed else .lastAck
  | state => state

variable {sockets : Fin 16 → TcpSocket} {sock : TcpSocket} {m : Mem} {srcIp : UInt32} {data : Nat} {length : UInt16}
  {j : Fin 16}

/-- The state depends on the state and the flags only. -/
theorem tcpHandle_state : (tcpHandle sock m data length : _ × List (Event Unit)).1.state = nextState sock.state (m (data + 13)) := by
  unfold tcpHandle nextState
  cases hstate : sock.state with
  | synSent =>
    dsimp only
    split
    · rfl
    · exact hstate
  | established =>
    dsimp only
    split
    · rfl
    · split
      · split
        · rfl
        · exact hstate
      · exact hstate
  | lastAck =>
    dsimp only
    split
    · rfl
    · exact hstate
  | _ => exact hstate

/-- A segment moves at most the socket it is for. -/
theorem tcpReceive_state (j : Fin 16) : ((tcpReceive sockets m srcIp data length : _ × List (Event Unit)).1 j).state =
    if 20 ≤ length ∧ target sockets m srcIp data = some j then nextState (sockets j).state (m (data + 13))
    else (sockets j).state := by
  unfold tcpReceive target
  by_cases hshort : length < 20
  · rw [if_pos hshort, if_neg fun h => UInt16.not_lt.mpr h.1 hshort]
  · rw [if_neg hshort]
    cases htarget : tcpFind sockets srcIp (netHtons (m.load16 data)) (netHtons (m.load16 (data + 2))) with
    | none => simp
    | some i =>
      by_cases hi : i = j
      · subst hi
        simp [UInt16.not_lt.mp hshort, tcpHandle_state]
      · simp [Function.update_of_ne (Ne.symm hi), hi]

/-- What a segment for the socket may do, by state. -/
theorem expected_iff : Expected sock m data ↔
    (nextState sock.state (m (data + 13)) ≠ sock.state → Answers sock m data) ∧
      (m (data + 13) &&& tcpRst ≠ 0 → (nextState sock.state (m (data + 13))).synchronised = false) := by
  unfold Expected Answers nextState
  cases hstate : sock.state with
  | synSent =>
    by_cases hsyn : m (data + 13) &&& tcpSyn = 0 <;> by_cases hack : m (data + 13) &&& tcpAck = 0 <;>
      simp [hsyn, hack, TcpState.synchronised]
  | established =>
    by_cases hfin : m (data + 13) &&& tcpFin = 0 <;> simp [hfin, TcpState.synchronised]
  | lastAck =>
    by_cases hack : m (data + 13) &&& tcpAck = 0 <;> simp [hack, TcpState.synchronised]
  | _ => simp

/-- **The states.** A segment moves a socket only as an answer to what it sent, and a reset leaves none waiting, exactly
when the segment is one that may reach the socket it is for. -/
theorem tcpReceive_states_iff (sockets : Fin 16 → TcpSocket) (m : Mem) (srcIp : UInt32) (data : Nat) (length : UInt16) :
    StatesOk sockets m srcIp data length (tcpReceive sockets m srcIp data length : _ × List (Event Unit)).1 ↔
      ∀ j, 20 ≤ length → target sockets m srcIp data = some j → Expected (sockets j) m data := by
  constructor
  · intro h j hlen htarget
    refine expected_iff.mpr ⟨fun hne => (h.answered j ?_).2, fun hrst => ?_⟩
    · rwa [tcpReceive_state, if_pos ⟨hlen, htarget⟩]
    · have hreset := h.reset j hlen htarget hrst
      rwa [tcpReceive_state, if_pos ⟨hlen, htarget⟩] at hreset
  · intro h
    refine ⟨fun j hne => ?_, fun j hlen htarget hrst => ?_⟩
    · rw [tcpReceive_state] at hne
      split at hne
      · rename_i hin
        exact ⟨hin.2, (expected_iff.mp (h j hin.1 hin.2)).1 hne⟩
      · exact absurd rfl hne
    · rw [tcpReceive_state, if_pos ⟨hlen, htarget⟩]
      exact (expected_iff.mp (h j hlen htarget)).2 hrst

/-- Socket 0 of the table has sent its SYN to 10.0.0.2. -/
def connectingSockets : Fin 16 → TcpSocket :=
  Function.update webSockets ⟨0, Nat.succ_pos _⟩ ⟨0x0200000A, 49152, 80, 1001, 0, .synSent, true⟩

/-- A SYN-ACK of this host that acknowledges the SYN of an earlier connection. -/
def staleSynAck : List UInt8 :=
  bytes16 (netHtons 80) ++ bytes16 (netHtons 49152) ++ bytes32 (netHtonl 5000) ++ bytes32 (netHtonl 777) ++
    [0x50, tcpSyn ||| tcpAck] ++ bytes16 (netHtons 8192) ++ [0, 0, 0, 0]

/-- It establishes the connection. -/
theorem staleSynAck_establishes : ¬ ∀ (sockets : Fin 16 → TcpSocket) (m : Mem) (srcIp : UInt32) (data : Nat)
    (length : UInt16), StatesOk sockets m srcIp data length (tcpReceive sockets m srcIp data length : _ × List (Event Unit)).1 := by
  intro h
  have hok := h connectingSockets (Mem.ofList staleSynAck) 0x0200000A 0 20
  obtain ⟨-, -, -, hack⟩ := hok.answered 0 (by decide)
  exact absurd hack (by decide)

end AmqOs.Network
