import AmqOs.Network.Checksum

/-!
# Lengths on the send path

Each sender adds the size of its header to a 16-bit length and allocates that many bytes, but writes the header and all of
the payload. A `SendLog` is what it notes of this: the buffers, the lengths put in headers, and the frames for the network
card. The log is sound, or the payload refused, exactly if no sum on the way wraps around (`sendLengths_iff`); an echo request
to the own address also needs the four bytes that are changed in its copy. What the receiving functions send in turn in a
loopback, and the requests of `arp_resolve`, have small lengths of their own and are not in the log.
-/

set_option autoImplicit false

namespace AmqOs.Network

open AmqOs.Lib

variable {H : Type}

/-! ## The code -/

/-- The buffers (the bytes allocated and the end of those written), the length fields (the number in the field and the
length that it is for), and the lengths of the frames for `e1000_send_packet`. -/
structure SendLog where
  buffers : List (Nat × Nat)
  lengths : List (Nat × Nat)
  sent : List Nat

def SendLog.nothing : SendLog := ⟨[], [], []⟩

/-- One log after the other. -/
def SendLog.and (a b : SendLog) : SendLog := ⟨a.buffers ++ b.buffers, a.lengths ++ b.lengths, a.sent ++ b.sent⟩

/-- A buffer of `totalLen` bytes for a header and a payload. -/
def bufferLog (header : Nat) (totalLen length : UInt16) : SendLog := ⟨[(totalLen.toNat, header + length.toNat)], [], []⟩

/-- The length field of a header. -/
def fieldLog (header : Nat) (totalLen length : UInt16) : SendLog := ⟨[], [(totalLen.toNat, header + length.toNat)], []⟩

/-- `net_send_ethernet`, with the result of `e1000_send_packet`. -/
def netSendEthernetLog (host : Host H) (length : UInt16) : SendLog × Int :=
  let totalLen : UInt16 := 14 + length
  ((bufferLog 14 totalLen length).and ⟨[], [], [totalLen.toNat]⟩,
    if host.card = false ∨ totalLen.toNat > 8192 then -1 else 0)

/-- The loopback of `net_send_ipv4`; the type of the ICMP message is `first`. The copy of an echo request is changed at the
offsets 0, 2 and 3. -/
def netLoopbackLog (protocol first : UInt8) (length : UInt16) : SendLog :=
  if protocol = ipProtoIcmp ∧ first = icmpTypeEchoRequest then ⟨[(length.toNat, max length.toNat 4)], [], []⟩
  else .nothing

/-- `net_send_ipv4`, for a payload whose first byte is `first`. -/
def netSendIpv4Log (host : Host H) (arpResolve : UInt32 → Option Mac) (destIp : UInt32) (protocol first : UInt8)
    (length : UInt16) : SendLog × Int :=
  let srcIp := ownIp host.config
  if destIp = srcIp ∧ srcIp ≠ 0 then (netLoopbackLog protocol first length, 0)
  else
    let totalLen : UInt16 := 20 + length
    let log := (bufferLog 20 totalLen length).and (fieldLog 20 totalLen length)
    match destMacFor host.config arpResolve destIp with
    | none => (log, -1)
    | some _ =>
      let (sent, result) := netSendEthernetLog host totalLen
      (log.and sent, result)

/-- `udp_send`. -/
def udpSendLog (host : Host H) (arpResolve : UInt32 → Option Mac) (destIp : UInt32) (srcPort : UInt16)
    (length : UInt16) : SendLog × Int :=
  let totalLen : UInt16 := 8 + length
  let log := (bufferLog 8 totalLen length).and (fieldLog 8 totalLen length)
  let (sent, result) := netSendIpv4Log host arpResolve destIp ipProtoUdp (netHtons srcPort).toUInt8 totalLen
  (log.and sent, result)

/-- `tcp_send_packet`; the length field is that of the pseudo header. -/
def tcpSendPacketLog (host : Host H) (arpResolve : UInt32 → Option Mac) (sock : TcpSocket) (length : UInt16) :
    SendLog × Int :=
  let totalLen : UInt16 := 20 + length
  let log := (bufferLog 20 totalLen length).and (fieldLog 20 totalLen length)
  let (sent, result) := netSendIpv4Log host arpResolve sock.remoteIp ipProtoTcp (netHtons sock.localPort).toUInt8 totalLen
  (log.and sent, result)

/-- `tcp_send`. -/
def tcpSendLog (host : Host H) (arpResolve : UInt32 → Option Mac) (sock : TcpSocket) (length : UInt16) : SendLog × Int :=
  if sock.state = .established then
    let (log, result) := tcpSendPacketLog host arpResolve sock length
    (log, if result ≠ 0 then -1 else 0)
  else (.nothing, -1)

/-! ## Soundness -/

/-- No buffer is too short, and every length field is the length. -/
def SendLog.Fits (log : SendLog) : Prop := (∀ b ∈ log.buffers, b.2 ≤ b.1) ∧ ∀ l ∈ log.lengths, l.1 = l.2

/-- Nothing is written or sent. -/
def Refused (out : SendLog × Int) : Prop := out = (.nothing, -1)

/-- The lengths are right, or the payload is refused. -/
def Sound (out : SendLog × Int) : Prop := out.1.Fits ∨ Refused out

/-- The packet is delivered to the host itself. -/
def Loopback (host : Host H) (destIp : UInt32) : Prop := destIp = ownIp host.config ∧ ownIp host.config ≠ 0

/-- An IPv4 packet with a payload of `n` bytes and its frame, if it gets one, have a 16-bit length. -/
def Ipv4Fits (host : Host H) (arpResolve : UInt32 → Option Mac) (destIp : UInt32) (n : Nat) : Prop :=
  20 + n < 2 ^ 16 ∧ ((destMacFor host.config arpResolve destIp).isSome → 34 + n < 2 ^ 16)

@[simp] theorem fits_nothing : SendLog.nothing.Fits := by simp [SendLog.Fits, SendLog.nothing]

@[simp] theorem fits_and {a b : SendLog} : (a.and b).Fits ↔ a.Fits ∧ b.Fits := by
  simp only [SendLog.Fits, SendLog.and, List.forall_mem_append]
  tauto

@[simp] theorem fits_sent {n : Nat} : SendLog.Fits ⟨[], [], [n]⟩ := by simp [SendLog.Fits]

/-- A refused payload leaves nothing that could be wrong. -/
theorem sound_iff {out : SendLog × Int} : Sound out ↔ out.1.Fits := by
  constructor
  · rintro (h | rfl)
    · exact h
    · exact fits_nothing
  · exact .inl

section Sums

variable {header length : UInt16}

theorem toNat_header_add : (header + length).toNat = (header.toNat + length.toNat) % 2 ^ 16 := UInt16.toNat_add _ _

theorem fits_bufferLog : (bufferLog header.toNat (header + length) length).Fits ↔ header.toNat + length.toNat < 2 ^ 16 := by
  have h1 := header.toNat_lt
  have h2 := length.toNat_lt
  simp only [bufferLog, SendLog.Fits, List.mem_singleton, forall_eq, List.not_mem_nil, false_implies, implies_true, and_true,
    toNat_header_add]
  omega

theorem fits_fieldLog : (fieldLog header.toNat (header + length) length).Fits ↔ header.toNat + length.toNat < 2 ^ 16 := by
  have h1 := header.toNat_lt
  have h2 := length.toNat_lt
  simp only [fieldLog, SendLog.Fits, List.mem_singleton, forall_eq, List.not_mem_nil, false_implies, implies_true, true_and,
    toNat_header_add]
  omega

theorem fits_both : ((bufferLog header.toNat (header + length) length).and
    (fieldLog header.toNat (header + length) length)).Fits ↔ header.toNat + length.toNat < 2 ^ 16 := by
  rw [fits_and, fits_bufferLog, fits_fieldLog, and_self]

end Sums

/-! ## The senders -/

section Senders

variable {host : Host H} {arpResolve : UInt32 → Option Mac} {destIp : UInt32} {protocol first : UInt8} {length : UInt16}
  {srcPort : UInt16} {sock : TcpSocket}

theorem fits_netSendEthernetLog : (netSendEthernetLog host length).1.Fits ↔ 14 + length.toNat < 2 ^ 16 := by
  unfold netSendEthernetLog
  rw [fits_and]
  exact (and_iff_left fits_sent).trans (@fits_bufferLog 14 length)

theorem fits_netLoopbackLog : (netLoopbackLog protocol first length).Fits ↔
    (protocol = ipProtoIcmp → first = icmpTypeEchoRequest → 4 ≤ length.toNat) := by
  unfold netLoopbackLog
  split
  · rename_i h
    simp [SendLog.Fits, h]
  · rename_i h
    simp only [fits_nothing, true_iff]
    exact fun h1 h2 => absurd ⟨h1, h2⟩ h

theorem fits_netSendIpv4Log : (netSendIpv4Log host arpResolve destIp protocol first length).1.Fits ↔
    (Loopback host destIp → protocol = ipProtoIcmp → first = icmpTypeEchoRequest → 4 ≤ length.toNat) ∧
      (¬ Loopback host destIp → Ipv4Fits host arpResolve destIp length.toNat) := by
  unfold netSendIpv4Log
  dsimp only
  by_cases hown : Loopback host destIp
  · rw [if_pos (show destIp = ownIp host.config ∧ ownIp host.config ≠ 0 from hown)]
    simp [fits_netLoopbackLog, hown]
  · rw [if_neg (show ¬ (destIp = ownIp host.config ∧ ownIp host.config ≠ 0) from hown)]
    have hboth := @fits_both 20 length
    have hsum := @toNat_header_add 20 length
    rw [show (20 : UInt16).toNat = 20 from rfl] at hboth hsum
    cases hmac : destMacFor host.config arpResolve destIp with
    | none => simp [hown, Ipv4Fits, hmac, hboth]
    | some destMac =>
      simp only [fits_and, hboth, fits_netSendEthernetLog, hsum, hown, Ipv4Fits, hmac, Option.isSome_some, true_implies,
        false_implies, not_false_eq_true, true_and]
      constructor
      · rintro ⟨h1, h2⟩
        rw [Nat.mod_eq_of_lt h1] at h2
        exact ⟨h1, by omega⟩
      · rintro ⟨h1, h2⟩
        rw [Nat.mod_eq_of_lt h1]
        exact ⟨h1, by omega⟩

/-- A transport header in front of `net_send_ipv4`; its protocol is not ICMP. -/
theorem fits_transport (header : UInt16) (hprotocol : protocol ≠ ipProtoIcmp) :
    (((bufferLog header.toNat (header + length) length).and (fieldLog header.toNat (header + length) length)).and
        (netSendIpv4Log host arpResolve destIp protocol first (header + length)).1).Fits ↔
      header.toNat + length.toNat < 2 ^ 16 ∧
        (¬ Loopback host destIp → Ipv4Fits host arpResolve destIp (header.toNat + length.toNat)) := by
  rw [fits_and, fits_both, fits_netSendIpv4Log, toNat_header_add]
  constructor
  · rintro ⟨hsum, -, hipv4⟩
    rw [Nat.mod_eq_of_lt hsum] at hipv4
    exact ⟨hsum, hipv4⟩
  · rintro ⟨hsum, hipv4⟩
    rw [Nat.mod_eq_of_lt hsum]
    exact ⟨hsum, fun _ h => absurd h hprotocol, hipv4⟩

theorem fits_udpSendLog : (udpSendLog host arpResolve destIp srcPort length).1.Fits ↔
    8 + length.toNat < 2 ^ 16 ∧ (¬ Loopback host destIp → Ipv4Fits host arpResolve destIp (8 + length.toNat)) :=
  fits_transport 8 (by decide)

theorem fits_tcpSendPacketLog : (tcpSendPacketLog host arpResolve sock length).1.Fits ↔
    20 + length.toNat < 2 ^ 16 ∧
      (¬ Loopback host sock.remoteIp → Ipv4Fits host arpResolve sock.remoteIp (20 + length.toNat)) :=
  fits_transport 20 (by decide)

theorem fits_tcpSendLog : (tcpSendLog host arpResolve sock length).1.Fits ↔
    (sock.state = .established → 20 + length.toNat < 2 ^ 16 ∧
      (¬ Loopback host sock.remoteIp → Ipv4Fits host arpResolve sock.remoteIp (20 + length.toNat))) := by
  unfold tcpSendLog
  split
  · rename_i h
    simp only [h, true_implies]
    exact fits_tcpSendPacketLog
  · rename_i h
    simp only [fits_nothing, h, false_implies]

end Senders

/-- **Lengths on the send path**: for every length, the buffers are long enough and the length fields right, or the payload is
refused, exactly if no header makes the length wrap around on the way; an echo request to the own address needs four bytes. -/
theorem sendLengths_iff (host : Host H) (arpResolve : UInt32 → Option Mac) (destIp : UInt32) (protocol first : UInt8)
    (srcPort : UInt16) (sock : TcpSocket) (length : UInt16) :
    (Sound (netSendEthernetLog host length) ↔ 14 + length.toNat < 2 ^ 16) ∧
    (Sound (netSendIpv4Log host arpResolve destIp protocol first length) ↔
      (Loopback host destIp → protocol = ipProtoIcmp → first = icmpTypeEchoRequest → 4 ≤ length.toNat) ∧
        (¬ Loopback host destIp → Ipv4Fits host arpResolve destIp length.toNat)) ∧
    (Sound (udpSendLog host arpResolve destIp srcPort length) ↔
      8 + length.toNat < 2 ^ 16 ∧ (¬ Loopback host destIp → Ipv4Fits host arpResolve destIp (8 + length.toNat))) ∧
    (Sound (tcpSendLog host arpResolve sock length) ↔ (sock.state = .established → 20 + length.toNat < 2 ^ 16 ∧
      (¬ Loopback host sock.remoteIp → Ipv4Fits host arpResolve sock.remoteIp (20 + length.toNat)))) :=
  ⟨sound_iff.trans fits_netSendEthernetLog, sound_iff.trans fits_netSendIpv4Log, sound_iff.trans fits_udpSendLog,
    sound_iff.trans fits_tcpSendLog⟩

/-- A datagram with 65530 bytes gets a buffer of two. -/
theorem udpSend_wraps : ¬ ∀ (host : Host Unit) (arpResolve : UInt32 → Option Mac) (destIp : UInt32) (srcPort length : UInt16),
    Sound (udpSendLog host arpResolve destIp srcPort length) := by
  intro h
  have hfits := fits_udpSendLog.mp (sound_iff.mp (h bootHost (fun _ => none) broadcastIp 68 65530))
  exact absurd hfits.1 (by decide)

/-! ## The log and the frames -/

section Frames

variable {host : Host H} {arpResolve : UInt32 → Option Mac} {destIp : UInt32} {protocol : UInt8} {payload : List UInt8}

/-- The lengths of the frames for the network card. -/
def sentLengths (events : List (Event H)) : List Nat :=
  events.filterMap fun
    | .e1000SendPacket data => some data.length
    | _ => none

theorem sentLengths_send {data : List UInt8} : sentLengths [Event.e1000SendPacket (H := H) data] = [data.length] :=
  rfl

/-- The log is that of the frames that are sent, and the result is the same. -/
def LogOf (out : List (Event H) × Int) (log : SendLog × Int) : Prop := sentLengths out.1 = log.1.sent ∧ out.2 = log.2

theorem toNat_add_ofNat_le {header : UInt16} {n : Nat} : (header + UInt16.ofNat n).toNat ≤ header.toNat + n := by
  have hn : (UInt16.ofNat n).toNat ≤ n := by
    rw [UInt16.toNat_ofNat']
    exact Nat.mod_le _ _
  have hsum : (header + UInt16.ofNat n).toNat ≤ header.toNat + (UInt16.ofNat n).toNat := by
    rw [UInt16.toNat_add]
    exact Nat.mod_le _ _
  omega

theorem netSendEthernetLog_eq {destMac : List UInt8} {ethertype : UInt16} (hmac : destMac.length = 6) :
    LogOf (netSendEthernet host destMac ethertype payload) (netSendEthernetLog host (UInt16.ofNat payload.length)) := by
  have htotal := @toNat_add_ofNat_le 14 payload.length
  have hlen : ((destMac ++ host.config.mac.toList ++ bytes16 (netHtons ethertype) ++ payload).take
      (14 + UInt16.ofNat payload.length).toNat).length = (14 + UInt16.ofNat payload.length).toNat := by
    rw [List.length_take, List.length_append, List.length_append, List.length_append, length_bytes16, hmac,
      Vector.length_toList]
    exact Nat.min_eq_left htotal
  unfold LogOf netSendEthernet netSendEthernetLog e1000SendPacket
  dsimp only
  rw [sentLengths_send, hlen]
  exact ⟨rfl, rfl⟩

/-- The receiving functions do not send a frame themselves. -/
theorem sentLengths_netLoopback {srcIp : UInt32} : sentLengths (netLoopback host srcIp protocol payload).2 = [] := by
  unfold netLoopback icmpReceive udpReceive tcpReceive tcpHandle sentLengths
  dsimp only
  repeat' split
  all_goals simp

theorem netSendIpv4Log_eq : LogOf (netSendIpv4 host arpResolve destIp protocol payload).2
    (netSendIpv4Log host arpResolve destIp protocol (payload.headD 0) (UInt16.ofNat payload.length)) := by
  unfold netSendIpv4 netSendIpv4Log
  dsimp only
  split
  · refine ⟨sentLengths_netLoopback.trans ?_, rfl⟩
    unfold netLoopbackLog SendLog.nothing
    split <;> rfl
  · cases hmac : destMacFor host.config arpResolve destIp with
    | none => exact ⟨rfl, rfl⟩
    | some destMac =>
      have hlen : ((ipv4Header (20 + UInt16.ofNat payload.length) protocol
          (netChecksum (ipv4Header (20 + UInt16.ofNat payload.length) protocol 0 (ownIp host.config) destIp))
          (ownIp host.config) destIp ++ payload).take (20 + UInt16.ofNat payload.length).toNat).length =
            (20 + UInt16.ofNat payload.length).toNat := by
        have htotal := @toNat_add_ofNat_le 20 payload.length
        have hheader := @length_ipv4Packet protocol (ownIp host.config) destIp payload
        rw [ipv4Packet] at hheader
        rw [List.length_take, hheader]
        exact Nat.min_eq_left htotal
      obtain ⟨hsent, hresult⟩ := @netSendEthernetLog_eq H host ((ipv4Header (20 + UInt16.ofNat payload.length) protocol
        (netChecksum (ipv4Header (20 + UInt16.ofNat payload.length) protocol 0 (ownIp host.config) destIp))
        (ownIp host.config) destIp ++ payload).take (20 + UInt16.ofNat payload.length).toNat) destMac ethTypeIpv4
        (length_destMacFor hmac)
      rw [hlen, UInt16.ofNat_toNat] at hsent hresult
      exact ⟨hsent, hresult⟩

/-- Only for an ICMP message does the log depend on its first byte. -/
theorem netSendIpv4Log_first (hp : protocol ≠ ipProtoIcmp) (first first' : UInt8) (length : UInt16) :
    netSendIpv4Log host arpResolve destIp protocol first length = netSendIpv4Log host arpResolve destIp protocol first' length := by
  simp [netSendIpv4Log, netLoopbackLog, hp]

/-- A sender above IPv4: a header and the data, cut to the length that is passed on. -/
theorem LogOf.above {log : SendLog} {first : UInt8} {total : UInt16} (hp : protocol ≠ ipProtoIcmp) (hlog : log.sent = [])
    (hlen : payload.length = total.toNat) :
    LogOf (netSendIpv4 host arpResolve destIp protocol payload).2
      (log.and (netSendIpv4Log host arpResolve destIp protocol first total).1,
        (netSendIpv4Log host arpResolve destIp protocol first total).2) := by
  obtain ⟨hsent, hresult⟩ := @netSendIpv4Log_eq H host arpResolve destIp protocol payload
  rw [hlen, UInt16.ofNat_toNat, netSendIpv4Log_first hp _ first] at hsent hresult
  refine ⟨hsent.trans ?_, hresult⟩
  rw [SendLog.and, hlog, List.nil_append]

theorem udpSendLog_eq {srcPort destPort : UInt16} {data : List UInt8} :
    LogOf (udpSend host arpResolve destIp srcPort destPort data).2
      (udpSendLog host arpResolve destIp srcPort (UInt16.ofNat data.length)) := by
  refine LogOf.above (by decide) rfl ?_
  have htotal := @toNat_add_ofNat_le 8 data.length
  simp only [List.length_take, List.length_append, length_bytes16]
  exact Nat.min_eq_left htotal

theorem tcpSendPacketLog_eq {sock : TcpSocket} {flags : UInt8} {data : List UInt8} :
    LogOf (tcpSendPacket host arpResolve sock flags data).2
      (tcpSendPacketLog host arpResolve sock (UInt16.ofNat data.length)) := by
  refine LogOf.above (by decide) rfl ?_
  have htotal := @toNat_add_ofNat_le 20 data.length
  simp only [tcpSegment, tcpBuffer, tcpHeader, tcpTotalLen, List.length_take, List.length_append, length_bytes16,
    length_bytes32, List.length_cons, List.length_nil]
  exact Nat.min_eq_left htotal

end Frames

end AmqOs.Network
