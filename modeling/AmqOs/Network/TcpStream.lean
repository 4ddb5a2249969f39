import AmqOs.Lib.Run
import AmqOs.Network.NetDefs

/-!
# The stream of a TCP connection

A connection is one socket of the table, from the SYN of its `tcp_connect` on. The peer cuts its stream into segments in any
way, and they reach `tcp_receive` in any order and any number of times (`FromPeer`), between the other segments and the
calls of the program. `tcp_receive` does not look at the sequence number: it hands over the data of every segment and
acknowledges the end of it, and drops the data of a segment with FIN. So the stream is in order as long as the segments
that reach an established socket are (`InOrder`, `stream_run`).
-/

set_option autoImplicit false

namespace AmqOs.Network

open AmqOs.Lib

/-! ## Runs -/

/-- The other end of a connection: its address and port, our port, and its initial sequence number and stream. -/
structure Peer where
  ip : UInt32
  port : UInt16
  localPort : UInt16
  isn : UInt32
  stream : List UInt8

/-- What can happen to the sockets. -/
inductive TcpOp where
  /-- A segment reaches `tcp_receive`; if it is one of the peer, its data is at `off` in the stream. -/
  | receive (srcIp : UInt32) (m : Mem) (data : Nat) (length : UInt16) (off : Nat)
  | socket
  | connect (j : Fin 16) (destIp : UInt32) (destPort : UInt16)
  /-- The end of a `tcp_connect` without success. -/
  | connectFail (j : Fin 16)
  | send (j : Fin 16) (data : List UInt8)
  | close (j : Fin 16)
  /-- `sock->seq_num += n` after a packet has been sent. -/
  | advance (j : Fin 16) (n : UInt32)
  /-- The end of `tcp_close`. -/
  | closeEnd (j : Fin 16)

/-- The sockets, what `http_tcp_data_received` was given by the socket of the connection, and the flags and acknowledgement
numbers of what this socket has sent. -/
structure TcpRun where
  sockets : Fin 16 → TcpSocket
  nextPort : UInt16
  handed : List UInt8
  sent : List (UInt8 × UInt32)

/-- The bytes that are handed over. -/
def handedBy (events : List (Event Unit)) : List UInt8 :=
  events.flatMap fun
    | .httpTcpDataReceived _ bytes => bytes
    | _ => []

/-- The flags and the acknowledgement numbers of the packets. -/
def sentBy (events : List (Event Unit)) : List (UInt8 × UInt32) :=
  events.filterMap fun
    | .tcpSendPacket sock flags _ => some (flags, sock.ackNum)
    | _ => none

/-- What happened to socket `j` is noted if it is the socket of the connection. -/
def TcpRun.note (c : TcpRun) (i : Fin 16) (j : Option (Fin 16)) (out : (Fin 16 → TcpSocket) × List (Event Unit)) :
    TcpRun :=
  if j = some i then
    { c with sockets := out.1, handed := c.handed ++ handedBy out.2, sent := c.sent ++ sentBy out.2 }
  else { c with sockets := out.1 }

/-- A call with socket `j`. -/
def TcpRun.call (c : TcpRun) (i j : Fin 16) (f : TcpSocket → TcpSocket × List (Event Unit)) : TcpRun :=
  c.note i (some j) (Function.update c.sockets j (f (c.sockets j)).1, (f (c.sockets j)).2)

/-- The socket that a segment is for. -/
def target (sockets : Fin 16 → TcpSocket) (m : Mem) (srcIp : UInt32) (data : Nat) : Option (Fin 16) :=
  tcpFind sockets srcIp (netHtons (m.load16 data)) (netHtons (m.load16 (data + 2)))

def tcpOp (i : Fin 16) (c : TcpRun) : TcpOp → TcpRun
  | .receive srcIp m data length _ =>
    c.note i (target c.sockets m srcIp data) (tcpReceive c.sockets m srcIp data length)
  | .socket => { c with sockets := (tcpSocket c.sockets c.nextPort).2.1, nextPort := (tcpSocket c.sockets c.nextPort).2.2 }
  | .connect j destIp destPort => c.call i j fun sock => tcpConnect sock destIp destPort
  | .connectFail j => c.call i j fun sock => ({ sock with state := .closed }, [])
  | .send j data => c.call i j fun sock => tcpSend sock data
  | .close j => c.call i j tcpClose
  | .advance j n => c.call i j fun sock => ({ sock with seqNum := sock.seqNum + n }, [])
  | .closeEnd j => c.call i j fun sock => ({ sock with inUse := false, state := .closed }, [])

def tcpStep (i : Fin 16) (c : TcpRun) (op : TcpOp) : Except Unit (Unit × TcpRun) := .ok ((), tcpOp i c op)

/-- Socket `i` connects to the peer. -/
def tcpStart (i : Fin 16) (peer : Peer) (sockets : Fin 16 → TcpSocket) (nextPort : UInt16) : TcpRun :=
  tcpOp i ⟨sockets, nextPort, [], []⟩ (.connect i peer.ip peer.port)

/-! ## The stream -/

/-- The number of bytes of data in a segment. -/
def tcpDataLen (m : Mem) (data : Nat) (length : UInt16) : Nat := (length - tcpHeaderLen m data).toNat

/-- A segment that the peer can send: its SYN, or data at its place in the stream, with FIN only at the end. -/
def PeerSegment (peer : Peer) (m : Mem) (data : Nat) (length : UInt16) (off : Nat) : Prop :=
  let flags := m (data + 13)
  let seq := netHtonl (m.load32 (data + 4))
  let n := tcpDataLen m data length
  if flags &&& tcpSyn ≠ 0 then seq = peer.isn ∧ n = 0 ∧ flags &&& tcpFin = 0
  else
    seq = peer.isn + 1 + UInt32.ofNat off ∧ tcpHeaderLen m data ≤ length ∧ off + n ≤ peer.stream.length ∧
      m.slice (data + (tcpHeaderLen m data).toNat) n = (peer.stream.drop off).take n ∧
      (flags &&& tcpFin ≠ 0 → off + n = peer.stream.length)

/-- The segments of the connection come from the peer, and its socket is not connected again. -/
def FromPeer (peer : Peer) (i : Fin 16) : TcpOp → Prop
  | .receive srcIp m data length off => 20 ≤ length → srcIp = peer.ip → netHtons (m.load16 data) = peer.port →
    netHtons (m.load16 (data + 2)) = peer.localPort → PeerSegment peer m data length off
  | .connect j _ _ => j ≠ i
  | _ => True

/-- Data that reaches an established socket starts where the data handed over ends; a FIN without data comes after all of
it, and one with data only when the first byte of it has been handed over. -/
def InOrder (i : Fin 16) (c : TcpRun) : TcpOp → Prop
  | .receive srcIp m data length off =>
    let flags := m (data + 13)
    let n := tcpDataLen m data length
    20 ≤ length → target c.sockets m srcIp data = some i → (c.sockets i).state = .established →
      if flags &&& tcpFin ≠ 0 then (if n = 0 then off = c.handed.length else off < c.handed.length)
      else flags &&& tcpAck ≠ 0 → n ≠ 0 → off = c.handed.length
  | _ => True

/-- The acknowledgement number covers no more than the first `n` bytes, and the FIN only when these are all. -/
def Covers (peer : Peer) (n : Nat) (ack : UInt32) : Prop :=
  ∃ k, ack = peer.isn + 1 + UInt32.ofNat k ∧ (k ≤ n ∨ k = n + 1 ∧ n = peer.stream.length)

/-- What was handed over is the start of the stream, and nothing else was acknowledged. -/
structure StreamOk (peer : Peer) (c : TcpRun) : Prop where
  handed : c.handed <+: peer.stream
  acks : ∀ p ∈ c.sent, p.1 &&& tcpAck ≠ 0 → Covers peer c.handed.length p.2

/-! ## One step -/

variable {peer : Peer} {i j : Fin 16} {c : TcpRun} {m : Mem} {srcIp : UInt32} {data off n : Nat} {length : UInt16}

/-- What a socket of the connection has acknowledged, as long as it acknowledges. -/
structure SockOk (peer : Peer) (n : Nat) (sock : TcpSocket) : Prop where
  conn : sock.state = .synSent ∨ sock.state = .established →
    sock.remoteIp = peer.ip ∧ sock.remotePort = peer.port ∧ sock.localPort = peer.localPort
  ack : sock.state = .established → Covers peer n sock.ackNum

/-- The invariant of a connection. -/
structure StreamInv (peer : Peer) (i : Fin 16) (c : TcpRun) : Prop where
  ok : StreamOk peer c
  sock : SockOk peer c.handed.length (c.sockets i)

/-- What a step of the socket itself hands over and sends is in order. -/
structure Keeps (peer : Peer) (bytes : List UInt8) (out : TcpSocket × List (Event Unit)) : Prop where
  handed : bytes ++ handedBy out.2 <+: peer.stream
  acks : ∀ p ∈ sentBy out.2, p.1 &&& tcpAck ≠ 0 → Covers peer (bytes ++ handedBy out.2).length p.2
  sock : SockOk peer (bytes ++ handedBy out.2).length out.1

theorem Covers.mono {n' : Nat} {ack : UInt32} (h : Covers peer n ack) (hle : n ≤ n') (hend : n' ≤ peer.stream.length) :
    Covers peer n' ack := by
  obtain ⟨k, hack, hk⟩ := h
  refine ⟨k, hack, ?_⟩
  omega

theorem SockOk.of_closed {sock : TcpSocket} (h : sock.state = .closed) : SockOk peer n sock := by
  constructor
  · intro hstate
    simp [h] at hstate
  · intro hstate
    simp [h] at hstate

/-- A step of the socket of the connection. -/
theorem StreamInv.note_self {out : (Fin 16 → TcpSocket) × List (Event Unit)} (h : StreamInv peer i c)
    (hout : Keeps peer c.handed (out.1 i, out.2)) : StreamInv peer i (c.note i (some i) out) := by
  unfold TcpRun.note
  rw [if_pos rfl]
  refine ⟨⟨hout.handed, ?_⟩, hout.sock⟩
  intro p hp hack
  rcases List.mem_append.mp hp with hp | hp
  · apply (h.ok.acks p hp hack).mono
    · simp
    · exact hout.handed.length_le
  · exact hout.acks p hp hack

/-- A step of another socket. -/
theorem StreamInv.note_other {out : (Fin 16 → TcpSocket) × List (Event Unit)} {j : Option (Fin 16)}
    (h : StreamInv peer i c) (hj : j ≠ some i) (hout : out.1 i = c.sockets i) : StreamInv peer i (c.note i j out) := by
  unfold TcpRun.note
  rw [if_neg hj]
  exact ⟨⟨h.ok.handed, h.ok.acks⟩, by simpa only [hout] using h.sock⟩

theorem StreamInv.call {f : TcpSocket → TcpSocket × List (Event Unit)} (h : StreamInv peer i c)
    (hf : j = i → Keeps peer c.handed (f (c.sockets i))) : StreamInv peer i (c.call i j f) := by
  by_cases hj : j = i
  · subst hj
    apply h.note_self
    simpa using hf rfl
  · apply h.note_other
    · simpa using hj
    · exact Function.update_of_ne (Ne.symm hj) _ _

/-- A step that hands nothing over. -/
theorem StreamInv.keeps {sock : TcpSocket} {events : List (Event Unit)} (h : StreamInv peer i c)
    (hhanded : handedBy events = []) (hacks : ∀ p ∈ sentBy events, p.1 &&& tcpAck ≠ 0 → Covers peer c.handed.length p.2)
    (hsock : SockOk peer c.handed.length sock) : Keeps peer c.handed (sock, events) := by
  refine ⟨?_, ?_, ?_⟩
  · simpa only [hhanded, List.append_nil] using h.ok.handed
  · simpa only [hhanded, List.append_nil] using hacks
  · simpa only [hhanded, List.append_nil] using hsock

theorem StreamInv.keeps_quiet {sock : TcpSocket} (h : StreamInv peer i c) (hsock : SockOk peer c.handed.length sock) :
    Keeps peer c.handed (sock, []) := h.keeps rfl (by simp [sentBy]) hsock

/-- A peer's segment with FIN. -/
theorem covers_fin (hseg : PeerSegment peer m data length off) (hfin : m (data + 13) &&& tcpFin ≠ 0)
    (horder : if tcpDataLen m data length = 0 then off = n else off < n) :
    Covers peer n (netHtonl (m.load32 (data + 4)) + 1) := by
  unfold PeerSegment at hseg
  dsimp only at hseg
  split at hseg
  · exact absurd hseg.2.2 hfin
  · obtain ⟨hseq, -, -, -, hend⟩ := hseg
    have hend := hend hfin
    refine ⟨off + 1, ?_, ?_⟩
    · rw [hseq, UInt32.ofNat_add, UInt32.add_assoc]
      rfl
    · split at horder
      · omega
      · omega

/-- A peer's segment with data that continues what was handed over. -/
theorem keeps_data {bytes : List UInt8} (hseg : PeerSegment peer m data length off)
    (hdata : tcpDataLen m data length ≠ 0) (hbytes : bytes <+: peer.stream) (hoff : off = bytes.length) :
    bytes ++ m.slice (data + (tcpHeaderLen m data).toNat) (tcpDataLen m data length) <+: peer.stream ∧
      Covers peer (bytes.length + tcpDataLen m data length)
        (netHtonl (m.load32 (data + 4)) + (length - tcpHeaderLen m data).toUInt32) := by
  unfold PeerSegment at hseg
  dsimp only at hseg
  split at hseg
  · exact absurd hseg.2.1 hdata
  · obtain ⟨hseq, -, -, hslice, -⟩ := hseg
    subst hoff
    constructor
    · have htake := List.prefix_iff_eq_take.mp hbytes
      rw [hslice]
      nth_rewrite 1 [htake]
      rw [← List.take_add]
      exact List.take_prefix _ _
    · refine ⟨bytes.length + tcpDataLen m data length, ?_, Or.inl (le_refl _)⟩
      rw [hseq, UInt32.ofNat_add, ← UInt32.add_assoc]
      congr 1
      apply UInt32.toNat_inj.mp
      simp [tcpDataLen]

/-- A segment of the peer that comes in order. -/
theorem StreamInv.keeps_tcpHandle (h : StreamInv peer i c)
    (hseg : (c.sockets i).state = .synSent ∨ (c.sockets i).state = .established → PeerSegment peer m data length off)
    (horder : (c.sockets i).state = .established →
      if m (data + 13) &&& tcpFin ≠ 0 then
        (if tcpDataLen m data length = 0 then off = c.handed.length else off < c.handed.length)
      else m (data + 13) &&& tcpAck ≠ 0 → tcpDataLen m data length ≠ 0 → off = c.handed.length) :
    Keeps peer c.handed (tcpHandle (c.sockets i) m data length) := by
  have hsock := h.sock
  unfold tcpHandle
  cases hstate : (c.sockets i).state with
  | synSent =>
    dsimp only
    split
    · rename_i hsyn
      have hpeer := hseg (.inl hstate)
      unfold PeerSegment at hpeer
      dsimp only at hpeer
      rw [if_pos hsyn.1] at hpeer
      have hcovers : Covers peer c.handed.length (netHtonl (m.load32 (data + 4)) + 1) := by
        refine ⟨0, ?_, Or.inl (Nat.zero_le _)⟩
        rw [hpeer.1]
        simp
      apply h.keeps rfl
      · simpa [sentBy] using fun _ => hcovers
      · exact ⟨fun _ => hsock.conn (.inl hstate), fun _ => hcovers⟩
    · exact h.keeps_quiet hsock
  | established =>
    have hpeer := hseg (.inr hstate)
    have horder := horder hstate
    dsimp only
    split
    · rename_i hfin
      rw [if_pos hfin] at horder
      have hcovers := covers_fin hpeer hfin horder
      apply h.keeps rfl
      · simpa [sentBy] using ⟨fun _ => hcovers, fun _ => hcovers⟩
      · constructor
        · simp
        · simp
    rename_i hfin
    rw [if_neg hfin] at horder
    split
    · rename_i hack
      split
      · rename_i hpos
        have hne : tcpDataLen m data length ≠ 0 := by
          have := UInt16.lt_iff_toNat_lt.mp hpos
          simp only [UInt16.reduceToNat] at this
          unfold tcpDataLen
          omega
        obtain ⟨hdelivered, hcovers⟩ := keeps_data hpeer hne h.ok.handed (horder hack hne)
        unfold tcpDataLen at hdelivered hcovers
        refine ⟨?_, ?_, ?_⟩
        · simpa [handedBy] using hdelivered
        · simpa [handedBy, sentBy] using fun _ => hcovers
        · exact ⟨fun _ => hsock.conn (.inr hstate), fun _ => by simpa [handedBy] using hcovers⟩
      · apply h.keeps rfl
        · simp [sentBy]
        · exact hsock
    · exact h.keeps_quiet hsock
  | lastAck =>
    dsimp only
    split
    · exact h.keeps_quiet (.of_closed rfl)
    · exact h.keeps_quiet hsock
  | _ => exact h.keeps_quiet hsock

theorem tcpFind_spec {sockets : Fin 16 → TcpSocket} {srcPort destPort : UInt16}
    (h : tcpFind sockets srcIp srcPort destPort = some i) :
    (sockets i).remoteIp = srcIp ∧ (sockets i).remotePort = srcPort ∧ (sockets i).localPort = destPort := by
  have hfound := List.find?_some h
  simp only [Bool.and_eq_true, beq_iff_eq] at hfound
  exact ⟨hfound.1.1.2, hfound.1.2, hfound.2⟩

/-- A segment reaches `tcp_receive`. -/
theorem StreamInv.receive (h : StreamInv peer i c) (hpeer : FromPeer peer i (.receive srcIp m data length off))
    (horder : InOrder i c (.receive srcIp m data length off)) :
    StreamInv peer i (tcpOp i c (.receive srcIp m data length off)) := by
  show StreamInv peer i (c.note i (target c.sockets m srcIp data) (tcpReceive c.sockets m srcIp data length))
  by_cases hshort : length < 20
  · have hnone : (tcpReceive c.sockets m srcIp data length : _ × List (Event Unit)) = (c.sockets, []) := if_pos hshort
    rw [hnone]
    by_cases htarget : target c.sockets m srcIp data = some i
    · rw [htarget]
      exact h.note_self (h.keeps_quiet h.sock)
    · exact h.note_other htarget rfl
  have hlen := UInt16.not_lt.mp hshort
  cases htarget : target c.sockets m srcIp data with
  | none =>
    apply h.note_other (by simp)
    unfold target at htarget
    simp [tcpReceive, hshort, htarget]
  | some j =>
    have hreceive : (tcpReceive c.sockets m srcIp data length : _ × List (Event Unit)) =
        (Function.update c.sockets j (tcpHandle (c.sockets j) m data length : _ × List (Event Unit)).1,
          (tcpHandle (c.sockets j) m data length).2) := by
      unfold target at htarget
      simp [tcpReceive, hshort, htarget]
    rw [hreceive]
    by_cases hj : j = i
    · subst hj
      obtain ⟨hip, hport, hlocal⟩ := tcpFind_spec htarget
      apply h.note_self
      simp only [Function.update_self]
      apply h.keeps_tcpHandle
      · intro hstate
        obtain ⟨hip', hport', hlocal'⟩ := h.sock.conn hstate
        exact hpeer hlen (hip.symm.trans hip') (hport.symm.trans hport') (hlocal.symm.trans hlocal')
      · intro hstate
        exact horder hlen htarget hstate
    · apply h.note_other
      · simpa using hj
      · exact Function.update_of_ne (Ne.symm hj) _ _

/-- A socket is taken that is not in use. -/
theorem StreamInv.socket (h : StreamInv peer i c) : StreamInv peer i (tcpOp i c .socket) := by
  refine ⟨⟨h.ok.handed, h.ok.acks⟩, ?_⟩
  show SockOk peer c.handed.length ((tcpSocket c.sockets c.nextPort).2.1 i)
  unfold tcpSocket
  split
  · rename_i k _
    by_cases hk : k = i
    · subst hk
      apply SockOk.of_closed
      simp
    · simpa [Function.update_of_ne (Ne.symm hk)] using h.sock
  · exact h.sock

/-- **One step**: a step in order keeps the stream. -/
theorem StreamInv.step {op : TcpOp} (h : StreamInv peer i c) (hpeer : FromPeer peer i op) (horder : InOrder i c op) :
    StreamInv peer i (tcpOp i c op) := by
  have hsock := h.sock
  cases op with
  | receive srcIp m data length off => exact h.receive hpeer horder
  | socket => exact h.socket
  | connect j destIp destPort =>
    rw [tcpOp]
    exact h.call fun hj => absurd hj hpeer
  | connectFail j =>
    rw [tcpOp]
    exact h.call fun _ => h.keeps_quiet (.of_closed rfl)
  | send j bytes =>
    rw [tcpOp]
    apply h.call
    intro _
    unfold tcpSend
    split
    · rename_i hstate
      apply h.keeps rfl
      · simpa [sentBy] using fun _ => hsock.ack hstate
      · exact hsock
    · exact h.keeps_quiet hsock
  | close j =>
    rw [tcpOp]
    apply h.call
    intro _
    unfold tcpClose
    split
    · rename_i hstate
      apply h.keeps rfl
      · simpa [sentBy] using fun _ => hsock.ack hstate
      · constructor
        · simp
        · simp
    · exact h.keeps_quiet hsock
  | advance j n =>
    rw [tcpOp]
    exact h.call fun _ => h.keeps_quiet ⟨hsock.conn, hsock.ack⟩
  | closeEnd j =>
    rw [tcpOp]
    exact h.call fun _ => h.keeps_quiet (.of_closed rfl)

/-! ## Every run -/

theorem streamInv_start {sockets : Fin 16 → TcpSocket} {nextPort : UInt16} (hclosed : (sockets i).state = .closed)
    (hport : (sockets i).localPort = peer.localPort) : StreamInv peer i (tcpStart i peer sockets nextPort) := by
  have hstart : tcpStart i peer sockets nextPort = ⟨Function.update sockets i
      { sockets i with remoteIp := peer.ip, remotePort := peer.port, state := .synSent }, nextPort, [],
      [(tcpSyn, (sockets i).ackNum)]⟩ := by
    simp [tcpStart, tcpOp, TcpRun.call, TcpRun.note, tcpConnect, hclosed, handedBy, sentBy]
  rw [hstart]
  refine ⟨⟨List.nil_prefix, ?_⟩, ?_⟩
  · intro p hp hack
    rw [List.mem_singleton] at hp
    subst hp
    exact absurd (show tcpSyn &&& tcpAck = 0 by decide) hack
  · constructor
    · intro _
      simpa using hport
    · simp

/-- **The stream of a connection**: in every run in which the segments come in order, what was handed over is the start of
the stream of the peer, and nothing else was acknowledged. -/
theorem stream_run {sockets : Fin 16 → TcpSocket} {nextPort : UInt16} {ops : List TcpOp}
    (hclosed : (sockets i).state = .closed) (hport : (sockets i).localPort = peer.localPort)
    (hops : Along (tcpStep i) (fun c op => FromPeer peer i op ∧ InOrder i c op) (tcpStart i peer sockets nextPort) ops) :
    ∃ rs c, runFrom (tcpStep i) (tcpStart i peer sockets nextPort) ops = .ok (rs, c) ∧ StreamOk peer c := by
  have hstep : ∀ c op, StreamInv peer i c → FromPeer peer i op ∧ InOrder i c op →
      ∃ r c', tcpStep i c op = .ok (r, c') ∧ StreamInv peer i c' := by
    intro c op h hop
    exact ⟨(), tcpOp i c op, rfl, h.step hop.1 hop.2⟩
  obtain ⟨rs, c, hrun, hinv⟩ := runFrom_inv _ hstep (streamInv_start hclosed hport) hops
  exact ⟨rs, c, hrun, hinv.ok⟩

instance : Decidable (PeerSegment peer m data length off) :=
  inferInstanceAs (Decidable (if m (data + 13) &&& tcpSyn ≠ 0 then _ else _))

instance : ∀ op, Decidable (FromPeer peer i op)
  | .receive srcIp m data length off => inferInstanceAs (Decidable (20 ≤ length → srcIp = peer.ip →
      netHtons (m.load16 data) = peer.port → netHtons (m.load16 (data + 2)) = peer.localPort →
        PeerSegment peer m data length off))
  | .connect j _ _ => inferInstanceAs (Decidable (j ≠ i))
  | .socket | .connectFail _ | .send _ _ | .close _ | .advance _ _ | .closeEnd _ => .isTrue trivial

instance : ∀ op, Decidable (InOrder i c op)
  | .receive srcIp m data length off => inferInstanceAs (Decidable (20 ≤ length →
      target c.sockets m srcIp data = some i → (c.sockets i).state = .established →
        if m (data + 13) &&& tcpFin ≠ 0 then
          (if tcpDataLen m data length = 0 then off = c.handed.length else off < c.handed.length)
        else m (data + 13) &&& tcpAck ≠ 0 → tcpDataLen m data length ≠ 0 → off = c.handed.length))
  | .socket | .connect _ _ _ | .connectFail _ | .send _ _ | .close _ | .advance _ _ | .closeEnd _ => .isTrue trivial

/-- A peer that sends two bytes. -/
def webPeer : Peer := ⟨0x0200000A, 80, 49152, 5000, [0x48, 0x69]⟩

/-- A segment of this peer. -/
def webSegment (flags : UInt8) (seq : UInt32) (off : Nat) (payload : List UInt8) : TcpOp :=
  let bytes := bytes16 (netHtons 80) ++ bytes16 (netHtons 49152) ++ bytes32 (netHtonl seq) ++ bytes32 (netHtonl 1001) ++
    [0x50, flags] ++ bytes16 (netHtons 8192) ++ [0, 0, 0, 0] ++ payload
  .receive 0x0200000A (Mem.ofList bytes) 0 (UInt16.ofNat bytes.length) off

/-- The sockets after `tcp_socket`. -/
def webSockets : Fin 16 → TcpSocket := (tcpSocket (fun _ => ⟨0, 0, 0, 0, 0, .closed, false⟩) 49152).2.1

/-- The segments in order: SYN-ACK, the two bytes, FIN. -/
def webOps : List TcpOp :=
  [webSegment (tcpSyn ||| tcpAck) 5000 0 [], webSegment tcpAck 5001 0 [0x48],
    webSegment (tcpPsh ||| tcpAck) 5002 1 [0x69], webSegment (tcpFin ||| tcpAck) 5003 2 []]

theorem stream_run_webOps : ∃ rs c,
    runFrom (tcpStep 0) (tcpStart 0 webPeer webSockets 49153) webOps = .ok (rs, c) ∧ StreamOk webPeer c :=
  stream_run (by decide) (by decide) (by decide)

/-- The first byte is retransmitted. -/
def againOps : List TcpOp :=
  [webSegment (tcpSyn ||| tcpAck) 5000 0 [], webSegment tcpAck 5001 0 [0x48], webSegment tcpAck 5001 0 [0x48]]

/-- The first byte is handed over twice. -/
theorem againOps_twice : ¬ ∀ (peer : Peer) (i : Fin 16) (sockets : Fin 16 → TcpSocket) (nextPort : UInt16)
    (ops : List TcpOp), (sockets i).state = .closed → (sockets i).localPort = peer.localPort →
      Along (tcpStep i) (fun _ op => FromPeer peer i op) (tcpStart i peer sockets nextPort) ops →
        ∃ rs c, runFrom (tcpStep i) (tcpStart i peer sockets nextPort) ops = .ok (rs, c) ∧ StreamOk peer c := by
  intro h
  obtain ⟨rs, c, hrun, hok⟩ := h webPeer 0 webSockets 49153 againOps (by decide) (by decide) (by decide)
  have hhanded : (runFrom (tcpStep 0) (tcpStart 0 webPeer webSockets 49153) againOps).toOption.map (fun out => out.2.handed) =
      some [0x48, 0x48] := by decide
  rw [hrun] at hhanded
  have hbytes : c.handed = [0x48, 0x48] := Option.some.inj hhanded
  have hdelivered := hok.handed
  rw [hbytes] at hdelivered
  exact absurd hdelivered (by decide)

end AmqOs.Network
