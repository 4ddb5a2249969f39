import AmqOs.Lib.Wire

/-!
# The network stack

The model of `net.c`, `arp.c`, `icmp.c`, `udp.c` and `tcp.c`: from a received frame through `net_receive_packet` to the
handlers, and from `udp_send` to the frame. A received frame lies in memory at `data`; behind its end there is more memory.
A buffer to be sent is the list of its bytes; `kmalloc` gives the memory for it.

The functions return what they call and send on the way as a list of `Event`s. A subtraction of lengths is an event, too.
A packet to be sent while another is received is an event that the caller carries out; what `arp_resolve` answers is a
parameter.
-/

set_option autoImplicit false

namespace AmqOs.Network

open AmqOs.Lib

/-! ## Byte order and checksum -/

/-- `net_htons`. -/
def netHtons (n : UInt16) : UInt16 := swap16 n

/-- `net_htonl`. -/
def netHtonl (n : UInt32) : UInt32 := swap32 n

/-- The sum of the 16-bit words, and of a last single byte. -/
def sumWords : List UInt8 → Nat
  | [] => 0
  | [b] => b.toNat
  | b :: c :: rest => (b.toNat + 256 * c.toNat + sumWords rest) % 2 ^ 32

/-- `while (sum >> 16) sum = (sum & 0xFFFF) + (sum >> 16);` -/
def foldCarry : Nat → Nat → Nat
  | 0, sum => sum
  | fuel + 1, sum => if sum >>> 16 = 0 then sum else foldCarry fuel (sum % 2 ^ 16 + sum >>> 16)

/-- `net_checksum`; the sum gets smaller with every fold. -/
def netChecksum (data : List UInt8) : UInt16 := ~~~ UInt16.ofNat (foldCarry (2 ^ 32) (sumWords data))

/-! ## State -/

abbrev Mac := Vector UInt8 6

/-- `net_config_t`. -/
structure NetConfig where
  mac : Mac
  ip : UInt32
  netmask : UInt32
  gateway : UInt32
  configured : Bool

/-- `arp_cache_entry_t`. -/
structure ArpCacheEntry where
  ip : UInt32
  mac : Mac
  timestamp : UInt32
  valid : Bool

/-- `arp_cache` and `arp_time`. -/
structure Arp where
  cache : Fin 32 → ArpCacheEntry
  time : UInt32

/-- `icmp_reply_t`. -/
structure IcmpReply where
  srcIp : UInt32
  id : UInt16
  sequence : UInt16

/-- The variables of `icmp.c`. -/
structure Icmp where
  replies : List IcmpReply
  waitingForReply : Bool
  expectedId : UInt16
  expectedSeq : UInt16
  replyReceived : Bool

/-- `udp_handler_entry_t`, with handlers of type `H`. -/
structure UdpHandlerEntry (H : Type) where
  port : UInt16
  handler : Option H

inductive TcpState
  | closed | listen | synSent | synRcvd | established | finWait1 | finWait2 | closeWait | closing | lastAck | timeWait
  deriving DecidableEq

/-- `tcp_socket_t`. -/
structure TcpSocket where
  remoteIp : UInt32
  localPort : UInt16
  remotePort : UInt16
  seqNum : UInt32
  ackNum : UInt32
  state : TcpState
  inUse : Bool
  deriving DecidableEq

/-- The network stack of a host. -/
structure Host (H : Type) where
  config : NetConfig
  /-- Whether the network card has been initialised. -/
  card : Bool
  arp : Arp
  icmp : Icmp
  udpHandlers : Fin 8 → UdpHandlerEntry H
  tcpSockets : Fin 16 → TcpSocket

/-- The stack after `net_init`, without an address. -/
def bootHost {H : Type} : Host H where
  config := ⟨Vector.replicate 6 0, 0, 0, 0, false⟩
  card := true
  arp := ⟨fun _ => ⟨0, Vector.replicate 6 0, 0, false⟩, 0⟩
  icmp := ⟨[], false, 0, 0, false⟩
  udpHandlers := fun _ => ⟨0, none⟩
  tcpSockets := fun _ => ⟨0, 0, 0, 0, 0, .closed, false⟩

/-- What a function calls, computes and sends. -/
inductive Event (H : Type) where
  | arpReceive (data : Nat) (length : UInt16)
  | icmpReceive (srcIp : UInt32) (data : Nat) (length : UInt16)
  | udpReceive (srcIp : UInt32) (data : Nat) (length : UInt16)
  | tcpReceive (srcIp : UInt32) (data : Nat) (length : UInt16)
  /-- A registered handler is called with the bytes at `data`. -/
  | udpHandler (handler : H) (srcIp : UInt32) (srcPort : UInt16) (data : Nat) (bytes : List UInt8)
  /-- `http_tcp_data_received` is called with the bytes at `data`. -/
  | httpTcpDataReceived (data : Nat) (bytes : List UInt8)
  /-- The length `a - b` is computed. -/
  | minus (a b : UInt16)
  | netSendEthernet (destMac : List UInt8) (ethertype : UInt16) (payload : List UInt8)
  | netSendIpv4 (destIp : UInt32) (protocol : UInt8) (payload : List UInt8)
  | tcpSendPacket (sock : TcpSocket) (flags : UInt8) (data : List UInt8)
  | e1000SendPacket (data : List UInt8)
  deriving DecidableEq

def ethTypeIpv4 : UInt16 := 0x0800
def ethTypeArp : UInt16 := 0x0806

def ipProtoIcmp : UInt8 := 1
def ipProtoTcp : UInt8 := 6
def ipProtoUdp : UInt8 := 17

def broadcastIp : UInt32 := 0xFFFFFFFF

variable {H : Type}

/-! ## ARP -/

def arpRequest : UInt16 := 1
def arpReply : UInt16 := 2

/-- The loop of `arp_cache_add` for the first free or the oldest entry. -/
def arpCacheSlot (cache : Fin 32 → ArpCacheEntry) : List (Fin 32) → UInt32 → Option (Fin 32) → Option (Fin 32)
  | [], _, idx => idx
  | i :: rest, oldest, idx =>
    if !(cache i).valid then some i
    else if (cache i).timestamp < oldest then arpCacheSlot cache rest (cache i).timestamp (some i)
    else arpCacheSlot cache rest oldest idx

/-- `arp_cache_add`. -/
def arpCacheAdd (arp : Arp) (ip : UInt32) (mac : Mac) : Arp :=
  let entry : ArpCacheEntry := ⟨ip, mac, arp.time, true⟩
  match (List.finRange 32).find? fun i => (arp.cache i).valid && (arp.cache i).ip == ip with
  | some i => ⟨Function.update arp.cache i entry, arp.time + 1⟩
  | none =>
    match arpCacheSlot arp.cache (List.finRange 32) 0xFFFFFFFF none with
    | some idx => ⟨Function.update arp.cache idx entry, arp.time + 1⟩
    | none => arp

/-- `arp_receive`. -/
def arpReceive (config : NetConfig) (arp : Arp) (m : Mem) (data : Nat) (length : UInt16) : Arp × List (Event H) :=
  if length < 28 then (arp, [])
  else
    let op := netHtons (m.load16 (data + 6))
    let senderProtoAddr := m.load32 (data + 14)
    let arp := arpCacheAdd arp senderProtoAddr (m.loadVec (data + 8) 6)
    if op = arpRequest ∧ m.load32 (data + 24) = config.ip then
      let reply := bytes16 (netHtons 1) ++ bytes16 (netHtons ethTypeIpv4) ++ [6, 4] ++ bytes16 (netHtons arpReply) ++
        config.mac.toList ++ bytes32 config.ip ++ m.slice (data + 8) 6 ++ bytes32 senderProtoAddr
      (arp, [.netSendEthernet (m.slice (data + 8) 6) ethTypeArp reply])
    else (arp, [])

/-! ## ICMP -/

def icmpTypeEchoReply : UInt8 := 0
def icmpTypeEchoRequest : UInt8 := 8

/-- `check_reply_in_array`. -/
def checkReplyInArray (icmp : Icmp) (id seq : UInt16) : Bool := icmp.replies.any fun r => r.id == id && r.sequence == seq

/-- An echo reply is entered into the array of at most 16 replies. -/
def enterReply (icmp : Icmp) (srcIp : UInt32) (id seq : UInt16) : Icmp :=
  if checkReplyInArray icmp id seq then icmp
  else
    { icmp with
      replies := if icmp.replies.length < 16 then icmp.replies ++ [⟨srcIp, id, seq⟩] else icmp.replies
      replyReceived := icmp.replyReceived || (icmp.waitingForReply && id == icmp.expectedId && seq == icmp.expectedSeq) }

/-- `icmp_receive`. -/
def icmpReceive (icmp : Icmp) (m : Mem) (srcIp : UInt32) (data : Nat) (length : UInt16) : Icmp × List (Event H) :=
  if length < 8 then (icmp, [])
  else if m data = icmpTypeEchoRequest then
    let dataLen := length - 8
    let rest := m.slice (data + 4) 4 ++ m.slice (data + 8) dataLen.toNat
    let checksum := netChecksum ([icmpTypeEchoReply, 0, 0, 0] ++ rest)
    (icmp, [.minus length 8, .netSendIpv4 srcIp ipProtoIcmp ([icmpTypeEchoReply, 0] ++ bytes16 checksum ++ rest)])
  else if m data = icmpTypeEchoReply then
    (enterReply icmp srcIp (netHtons (m.load16 (data + 4))) (netHtons (m.load16 (data + 6))), [])
  else (icmp, [])

/-! ## UDP -/

/-- `udp_register_handler`. -/
def udpRegisterHandler (handlers : Fin 8 → UdpHandlerEntry H) (port : UInt16) (handler : Option H) :
    Fin 8 → UdpHandlerEntry H :=
  match (List.finRange 8).find? fun i => (handlers i).port == 0 with
  | some i => Function.update handlers i ⟨port, handler⟩
  | none => handlers

/-- The handler that `udp_receive` finds for a port. -/
def udpHandlerFor (handlers : Fin 8 → UdpHandlerEntry H) (port : UInt16) : Option H :=
  (List.finRange 8).findSome? fun i => if (handlers i).port = port then (handlers i).handler else none

/-- `udp_receive`. -/
def udpReceive (handlers : Fin 8 → UdpHandlerEntry H) (m : Mem) (srcIp : UInt32) (data : Nat) (length : UInt16) :
    List (Event H) :=
  if length < 8 then []
  else
    let destPort := netHtons (m.load16 (data + 2))
    let srcPort := netHtons (m.load16 data)
    let udpLen := netHtons (m.load16 (data + 4))
    let payloadLen := udpLen - 8
    [.minus udpLen 8, .minus length 8] ++
      if payloadLen > length - 8 then []
      else
        match udpHandlerFor handlers destPort with
        | some handler => [.udpHandler handler srcIp srcPort (data + 8) (m.slice (data + 8) payloadLen.toNat)]
        | none => []

/-! ## TCP -/

def tcpFin : UInt8 := 0x01
def tcpSyn : UInt8 := 0x02
def tcpPsh : UInt8 := 0x08
def tcpAck : UInt8 := 0x10

/-- `(tcp->data_offset_reserved >> 4) * 4`. -/
def tcpHeaderLen (m : Mem) (data : Nat) : UInt16 := (m (data + 12) >>> 4).toUInt16 * 4

/-- The socket of a connection. -/
def tcpFind (sockets : Fin 16 → TcpSocket) (srcIp : UInt32) (srcPort destPort : UInt16) : Option (Fin 16) :=
  (List.finRange 16).find? fun i =>
    (sockets i).inUse && (sockets i).remoteIp == srcIp && (sockets i).remotePort == srcPort &&
      (sockets i).localPort == destPort

/-- What `tcp_receive` does in the state of the socket. -/
def tcpHandle (sock : TcpSocket) (m : Mem) (data : Nat) (length : UInt16) : TcpSocket × List (Event H) :=
  let seq := netHtonl (m.load32 (data + 4))
  let flags := m (data + 13)
  match sock.state with
  | .synSent =>
    if flags &&& tcpSyn ≠ 0 ∧ flags &&& tcpAck ≠ 0 then
      let sock := { sock with ackNum := seq + 1, state := .established }
      (sock, [.tcpSendPacket sock tcpAck []])
    else (sock, [])
  | .established =>
    if flags &&& tcpFin ≠ 0 then
      let sock := { sock with ackNum := seq + 1, state := .closeWait }
      ({ sock with seqNum := sock.seqNum + 1, state := .lastAck },
        [.tcpSendPacket sock tcpAck [], .tcpSendPacket sock (tcpFin ||| tcpAck) []])
    else if flags &&& tcpAck ≠ 0 then
      let headerLen := tcpHeaderLen m data
      let dataLen := length - headerLen
      if dataLen > 0 then
        let payload := data + headerLen.toNat
        let sock' := { sock with ackNum := seq + dataLen.toUInt32 }
        (sock', [.minus length headerLen, .httpTcpDataReceived payload (m.slice payload dataLen.toNat),
          .tcpSendPacket sock' tcpAck []])
      else (sock, [.minus length headerLen])
    else (sock, [])
  | .lastAck => if flags &&& tcpAck ≠ 0 then ({ sock with state := .closed }, []) else (sock, [])
  | _ => (sock, [])

/-- `tcp_receive`. -/
def tcpReceive (sockets : Fin 16 → TcpSocket) (m : Mem) (srcIp : UInt32) (data : Nat) (length : UInt16) :
    (Fin 16 → TcpSocket) × List (Event H) :=
  if length < 20 then (sockets, [])
  else
    match tcpFind sockets srcIp (netHtons (m.load16 data)) (netHtons (m.load16 (data + 2))) with
    | none => (sockets, [])
    | some i =>
      let (sock, events) := tcpHandle (sockets i) m data length
      (Function.update sockets i sock, events)

/-- `tcp_socket`, with `next_port`. -/
def tcpSocket (sockets : Fin 16 → TcpSocket) (nextPort : UInt16) : Option (Fin 16) × (Fin 16 → TcpSocket) × UInt16 :=
  match (List.finRange 16).find? fun i => !(sockets i).inUse with
  | some i =>
    let sock := { sockets i with inUse := true, state := .closed, localPort := nextPort, seqNum := 1000 }
    (some i, Function.update sockets i sock, nextPort + 1)
  | none => (none, sockets, nextPort)

/-- `tcp_connect` up to its SYN. -/
def tcpConnect (sock : TcpSocket) (destIp : UInt32) (destPort : UInt16) : TcpSocket × List (Event H) :=
  if sock.state = .closed then
    let sock := { sock with remoteIp := destIp, remotePort := destPort, state := .synSent }
    (sock, [.tcpSendPacket sock tcpSyn []])
  else (sock, [])

/-- `tcp_send` up to its packet. -/
def tcpSend (sock : TcpSocket) (data : List UInt8) : TcpSocket × List (Event H) :=
  (sock, if sock.state = .established then [.tcpSendPacket sock (tcpPsh ||| tcpAck) data] else [])

/-- `tcp_close` up to its FIN. -/
def tcpClose (sock : TcpSocket) : TcpSocket × List (Event H) :=
  if sock.state = .established then
    let sock := { sock with state := .finWait1 }
    (sock, [.tcpSendPacket sock (tcpFin ||| tcpAck) []])
  else (sock, [])

/-! ## `net_receive_packet` -/

/-- The packet at `ip` is for another host. -/
def notForUs (config : NetConfig) (m : Mem) (ip : Nat) : Bool :=
  config.configured && m.load32 (ip + 16) != config.ip && m.load32 (ip + 16) != broadcastIp

/-- The case of an IPv4 packet. -/
def netReceiveIpv4 (host : Host H) (m : Mem) (ip : Nat) : Host H × List (Event H) :=
  if notForUs host.config m ip then (host, [])
  else
    let ipHeaderLen : UInt16 := (m ip &&& 0x0F).toUInt16 * 4
    let payload := ip + ipHeaderLen.toNat
    let totalLength := netHtons (m.load16 (ip + 2))
    let payloadLen := totalLength - ipHeaderLen
    let srcIp := m.load32 (ip + 12)
    let protocol := m (ip + 9)
    if protocol = ipProtoIcmp then
      let (icmp, events) := icmpReceive host.icmp m srcIp payload payloadLen
      ({ host with icmp := icmp }, [.minus totalLength ipHeaderLen, .icmpReceive srcIp payload payloadLen] ++ events)
    else if protocol = ipProtoUdp then
      (host, [.minus totalLength ipHeaderLen, .udpReceive srcIp payload payloadLen] ++
        udpReceive host.udpHandlers m srcIp payload payloadLen)
    else if protocol = ipProtoTcp then
      let (sockets, events) := tcpReceive host.tcpSockets m srcIp payload payloadLen
      ({ host with tcpSockets := sockets },
        [.minus totalLength ipHeaderLen, .tcpReceive srcIp payload payloadLen] ++ events)
    else (host, [.minus totalLength ipHeaderLen])

/-- `net_receive_packet`. -/
def netReceivePacket (host : Host H) (m : Mem) (data : Nat) (length : UInt16) : Host H × List (Event H) :=
  if length < 14 then (host, [])
  else
    let ethertype := netHtons (m.load16 (data + 12))
    if ethertype = ethTypeArp then
      let (arp, events) := arpReceive host.config host.arp m (data + 14) (length - 14)
      ({ host with arp := arp }, [.minus length 14, .arpReceive (data + 14) (length - 14)] ++ events)
    else if ethertype = ethTypeIpv4 then
      if length < 34 then (host, []) else netReceiveIpv4 host m (data + 14)
    else (host, [])

/-! ## Sending -/

/-- `e1000_send_packet`. -/
def e1000SendPacket (host : Host H) (data : List UInt8) : List (Event H) × Int :=
  ([.e1000SendPacket data], if host.card = false ∨ data.length > 8192 then -1 else 0)

/-- `net_send_ethernet`. -/
def netSendEthernet (host : Host H) (destMac : List UInt8) (ethertype : UInt16) (payload : List UInt8) :
    List (Event H) × Int :=
  let totalLen : UInt16 := 14 + UInt16.ofNat payload.length
  let buffer := destMac ++ host.config.mac.toList ++ bytes16 (netHtons ethertype) ++ payload
  e1000SendPacket host (buffer.take totalLen.toNat)

/-- The own address of the host. -/
def ownIp (config : NetConfig) : UInt32 := if config.configured then config.ip else 0

/-- An IPv4 header. -/
def ipv4Header (totalLen : UInt16) (protocol : UInt8) (checksum : UInt16) (srcIp destIp : UInt32) : List UInt8 :=
  [0x45, 0] ++ bytes16 (netHtons totalLen) ++ [0, 0, 0, 0, 64, protocol] ++ bytes16 checksum ++ bytes32 srcIp ++ bytes32 destIp

/-- The host that the packet is sent to on the way to its destination; `none` without a gateway. -/
def routeIp (config : NetConfig) (destIp : UInt32) : Option UInt32 :=
  if destIp &&& config.netmask = ownIp config &&& config.netmask then some destIp
  else if config.gateway = 0 then none
  else some config.gateway

/-- The address on the wire. -/
def destMacFor (config : NetConfig) (arpResolve : UInt32 → Option Mac) (destIp : UInt32) : Option (List UInt8) :=
  if destIp = broadcastIp then some [0xFF, 0xFF, 0xFF, 0xFF, 0xFF, 0xFF]
  else (routeIp config destIp).bind fun ip => (arpResolve ip).map (·.toList)

/-- The delivery of a packet to the host itself. -/
def netLoopback (host : Host H) (srcIp : UInt32) (protocol : UInt8) (payload : List UInt8) : Host H × List (Event H) :=
  let length := UInt16.ofNat payload.length
  if protocol = ipProtoIcmp then
    let packet :=
      if payload.headD 0 = icmpTypeEchoRequest then
        let reply := icmpTypeEchoReply :: payload.tail
        reply.take 2 ++ bytes16 (netChecksum (reply.take 2 ++ [0, 0] ++ reply.drop 4)) ++ reply.drop 4
      else payload
    let (icmp, events) := icmpReceive host.icmp (Mem.ofList packet) srcIp 0 length
    ({ host with icmp := icmp }, .icmpReceive srcIp 0 length :: events)
  else if protocol = ipProtoUdp then
    (host, .udpReceive srcIp 0 length :: udpReceive host.udpHandlers (Mem.ofList payload) srcIp 0 length)
  else if protocol = ipProtoTcp then
    let (sockets, events) := tcpReceive host.tcpSockets (Mem.ofList payload) srcIp 0 length
    ({ host with tcpSockets := sockets }, .tcpReceive srcIp 0 length :: events)
  else (host, [])

/-- `net_send_ipv4`. -/
def netSendIpv4 (host : Host H) (arpResolve : UInt32 → Option Mac) (destIp : UInt32) (protocol : UInt8)
    (payload : List UInt8) : Host H × List (Event H) × Int :=
  let srcIp := ownIp host.config
  if destIp = srcIp ∧ srcIp ≠ 0 then
    let (host, events) := netLoopback host srcIp protocol payload
    (host, events, 0)
  else
    let totalLen : UInt16 := 20 + UInt16.ofNat payload.length
    let checksum := netChecksum (ipv4Header totalLen protocol 0 srcIp destIp)
    let buffer := (ipv4Header totalLen protocol checksum srcIp destIp ++ payload).take totalLen.toNat
    match destMacFor host.config arpResolve destIp with
    | none => (host, [], -1)
    | some destMac => (host, netSendEthernet host destMac ethTypeIpv4 buffer)

/-- `udp_send`. -/
def udpSend (host : Host H) (arpResolve : UInt32 → Option Mac) (destIp : UInt32) (srcPort destPort : UInt16)
    (data : List UInt8) : Host H × List (Event H) × Int :=
  let totalLen : UInt16 := 8 + UInt16.ofNat data.length
  let buffer := bytes16 (netHtons srcPort) ++ bytes16 (netHtons destPort) ++ bytes16 (netHtons totalLen) ++ bytes16 0 ++ data
  netSendIpv4 host arpResolve destIp ipProtoUdp (buffer.take totalLen.toNat)

end AmqOs.Network
