import AmqOs.Network.Ping

/-!
# A ping comes back

The echo request of one host makes another host send an echo reply with the same numbers and data, and this reply is one
that the first host accepts as the answer (`ping_echo`): byte for byte from `icmp_send_ping` to the log of `icmp_receive`.
-/

set_option autoImplicit false

namespace AmqOs.Network

open AmqOs.Lib

variable {H H' : Type}

/-- The packets that are sent in turn. -/
def sentIpv4 (events : List (Event H)) : List (UInt32 × UInt8 × List UInt8) :=
  events.filterMap fun
    | .netSendIpv4 destIp protocol payload => some (destIp, protocol, payload)
    | _ => none

/-- The fields of an IPv4 packet of `net_send_ipv4`, as `net_receive_packet` reads them. -/
structure Ipv4Fields (m : Mem) (ip : Nat) (protocol : UInt8) (srcIp destIp : UInt32) (payload : List UInt8) : Prop where
  headerLen : ((m ip &&& 0x0F).toUInt16 * 4 : UInt16) = 20
  totalLength : netHtons (m.load16 (ip + 2)) = 20 + UInt16.ofNat payload.length
  protocol : m (ip + 9) = protocol
  srcIp : m.load32 (ip + 12) = srcIp
  destIp : m.load32 (ip + 16) = destIp
  payload : m.slice (ip + 20) payload.length = payload

/-- The fields of an echo message. -/
structure IcmpFields (m : Mem) (data : Nat) (type : UInt8) (id seq : UInt16) (bytes : List UInt8) : Prop where
  kind : m data = type
  first : netHtons (m.load16 (data + 4)) = id
  second : netHtons (m.load16 (data + 6)) = seq
  numbers : m.slice (data + 4) 4 = bytes16 (netHtons id) ++ bytes16 (netHtons seq)
  bytes : m.slice (data + 8) bytes.length = bytes

section Fields

variable {m : Mem} {a : Nat}

theorem ipv4Packet_fields {protocol : UInt8} {srcIp destIp : UInt32} {payload : List UInt8}
    (h : m.slice a (ipv4Packet protocol srcIp destIp payload).length = ipv4Packet protocol srcIp destIp payload) :
    Ipv4Fields m a protocol srcIp destIp payload := by
  simp only [ipv4Packet, ipv4Header, List.append_assoc, Mem.slice_eq_append, length_bytes16, length_bytes32,
    List.length_cons, List.length_nil, Nat.add_assoc, Nat.reduceAdd] at h
  obtain ⟨hversion, htotal, hproto, -, hsrc, hdest, hrest⟩ := h
  simp only [Mem.slice, List.cons.injEq, and_true, Nat.add_assoc, Nat.reduceAdd] at hversion hproto
  refine ⟨?_, by rw [Mem.load16_of_slice htotal, netHtons_netHtons], hproto.2.2.2.2.2, Mem.load32_of_slice hsrc,
    Mem.load32_of_slice hdest, hrest⟩
  rw [hversion.1]
  decide

theorem icmpPacket_fields {type : UInt8} {id seq : UInt16} {bytes : List UInt8}
    (h : m.slice a (icmpPacket type id seq bytes).length = icmpPacket type id seq bytes) :
    IcmpFields m a type id seq bytes := by
  simp only [icmpPacket, Mem.slice_eq_append, length_bytes16, List.length_cons, List.length_nil, Nat.add_assoc,
    Nat.reduceAdd] at h
  obtain ⟨htype, -, hid, hseq, hbytes⟩ := h
  simp only [Mem.slice, List.cons.injEq, and_true] at htype
  refine ⟨htype.1, by rw [Mem.load16_of_slice hid, netHtons_netHtons], by rw [Mem.load16_of_slice hseq, netHtons_netHtons],
    ?_, hbytes⟩
  rw [show 4 = 2 + 2 from rfl, Mem.slice_add, hid]
  exact congrArg _ hseq

/-- The frame of an echo message, taken apart by a host whose address is the destination. -/
theorem echoFrame_fields {host : Host H} {p : Packet} {destMac : List UInt8} {srcMac : Mac} {srcIp : UInt32} {type : UInt8}
    {id seq : UInt16} {bytes : List UInt8} (hd : destMac.length = 6)
    (hp : p.Carries (ethFrame destMac srcMac ethTypeIpv4
      (ipv4Packet ipProtoIcmp srcIp host.config.ip (icmpPacket type id seq bytes)))) :
    34 ≤ p.length ∧ netHtons (p.m.load16 (p.data + 12)) = ethTypeIpv4 ∧
      notForUs host.config p.m (p.data + 14) = false ∧
      Ipv4Fields p.m (p.data + 14) ipProtoIcmp srcIp host.config.ip (icmpPacket type id seq bytes) ∧
      IcmpFields p.m (p.data + 14 + 20) type id seq bytes := by
  obtain ⟨hslice, hlen⟩ := hp
  rw [length_ethFrame hd, length_ipv4Packet] at hlen
  have h34 : 34 ≤ p.length := by
    rw [UInt16.le_iff_toNat_le]
    simp only [UInt16.reduceToNat]
    omega
  simp only [ethFrame, Mem.slice_eq_append, length_bytes16, hd, Vector.length_toList, Nat.add_assoc, Nat.reduceAdd] at hslice
  obtain ⟨-, -, htype, hip⟩ := hslice
  have hfields := ipv4Packet_fields hip
  refine ⟨h34, by rw [Mem.load16_of_slice htype, netHtons_netHtons], ?_, hfields, icmpPacket_fields hfields.payload⟩
  unfold notForUs
  rw [hfields.destIp]
  simp

end Fields

/-- The length that the receiver computes. -/
theorem icmpLength {n : Nat} (hn : 8 + n < 2 ^ 16) :
    20 + UInt16.ofNat (8 + n) - 20 = UInt16.ofNat (8 + n) ∧ ¬ UInt16.ofNat (8 + n) < 8 ∧
      (UInt16.ofNat (8 + n) - 8).toNat = n := by
  have hto : (UInt16.ofNat (8 + n)).toNat = 8 + n := by rw [UInt16.toNat_ofNat', Nat.mod_eq_of_lt hn]
  have hge : ¬ UInt16.ofNat (8 + n) < 8 := by
    rw [UInt16.lt_iff_toNat_lt, hto]
    simp only [UInt16.reduceToNat]
    omega
  refine ⟨by rw [UInt16.add_comm, UInt16.add_sub_cancel], hge, ?_⟩
  rw [UInt16.toNat_sub_of_le _ _ (UInt16.not_lt.mp hge), hto]
  simp only [UInt16.reduceToNat]
  omega

section Echo

variable {destMac : List UInt8} {srcMac : Mac} {srcIp : UInt32} {id seq : UInt16} {bytes : List UInt8} {p : Packet}

/-- **The other host answers** an echo request with its numbers and data. -/
theorem receive_echoRequest {host : Host H} (hd : destMac.length = 6) (hn : 8 + bytes.length < 2 ^ 16)
    (hp : p.Carries (ethFrame destMac srcMac ethTypeIpv4
      (ipv4Packet ipProtoIcmp srcIp host.config.ip (icmpPacket icmpTypeEchoRequest id seq bytes)))) :
    sentIpv4 (p.receive host).2 = [(srcIp, ipProtoIcmp, icmpPacket icmpTypeEchoReply id seq bytes)] := by
  obtain ⟨h34, htype, hus, hip, hicmp⟩ := echoFrame_fields hd hp
  obtain ⟨hlen, hlong, hdata⟩ := icmpLength hn
  have h14 : ¬ p.length < 14 := by
    rw [UInt16.le_iff_toNat_le] at h34
    rw [UInt16.lt_iff_toNat_lt]
    simp only [UInt16.reduceToNat] at *
    omega
  have harp : ¬ ethTypeIpv4 = ethTypeArp := by decide
  unfold Packet.receive netReceivePacket netReceiveIpv4 icmpReceive
  simp only [h14, if_false, htype, harp, if_true, UInt16.not_lt.mpr h34, hus, Bool.false_eq_true, hip.headerLen,
    hip.totalLength, hip.srcIp, hip.protocol, length_icmpPacket, hlen, hlong, hdata]
  rw [show (20 : UInt16).toNat = 20 from rfl, hicmp.kind, if_pos rfl, hicmp.numbers, hicmp.bytes, List.append_assoc]
  rfl

/-- **The first host accepts** the reply. -/
theorem echoKey_echoReply {host : Host H} (hd : destMac.length = 6) (hn : 8 + bytes.length < 2 ^ 16)
    (hp : p.Carries (ethFrame destMac srcMac ethTypeIpv4
      (ipv4Packet ipProtoIcmp srcIp host.config.ip (icmpPacket icmpTypeEchoReply id seq bytes)))) :
    echoKey host.config p = some (id, seq) := by
  obtain ⟨h34, htype, hus, hip, hicmp⟩ := echoFrame_fields hd hp
  obtain ⟨hlen, hlong, -⟩ := icmpLength hn
  unfold echoKey
  simp only [hip.headerLen, hip.totalLength, length_icmpPacket, hlen]
  rw [show (20 : UInt16).toNat = 20 from rfl, if_pos ⟨h34, htype, hus, hip.protocol, hlong, hicmp.kind⟩, hicmp.first,
    hicmp.second]

end Echo

/-- The frame of an echo message between two hosts. -/
def echoFrame (sender : NetConfig) (destMac : List UInt8) (destIp : UInt32) (type : UInt8) (id seq : UInt16) : List UInt8 :=
  ethFrame destMac sender.mac ethTypeIpv4 (ipv4Packet ipProtoIcmp (ownIp sender) destIp (icmpPacket type id seq pingData))

theorem length_pingData : pingData.length = 56 := by simp [pingData]

/-- An echo message to another host leaves as its frame. -/
theorem netSendIpv4_echo {sender : Host H} {arpResolve : UInt32 → Option Mac} {destIp : UInt32} {destMac : List UInt8}
    (hmac : destMacFor sender.config arpResolve destIp = some destMac)
    (hown : ¬ (destIp = ownIp sender.config ∧ ownIp sender.config ≠ 0)) (type : UInt8) (id seq : UInt16) :
    (netSendIpv4 sender arpResolve destIp ipProtoIcmp (icmpPacket type id seq pingData)).2.1 =
      [.e1000SendPacket (echoFrame sender.config destMac destIp type id seq)] := by
  have hlen : (icmpPacket type id seq pingData).length = 64 := by rw [length_icmpPacket, length_pingData]
  rw [netSendIpv4_eq (by rw [hlen]; omega) hown hmac]
  apply netSendEthernet_eq (length_destMacFor hmac)
  rw [length_ipv4Packet, hlen]
  omega

/-- **A ping comes back**: between two configured hosts that have each other's address on the wire, the request goes out as
one frame, the host that receives it sends one packet, to the first host, and this leaves as a frame that the first host
takes as the reply to this request. -/
theorem ping_echo {a : Host H} {b : Host H'} {resolveA resolveB : UInt32 → Option Mac} {macA macB : List UInt8}
    (hA : a.config.configured = true) (hB : b.config.configured = true) (hne : a.config.ip ≠ b.config.ip)
    (hmacB : destMacFor a.config resolveA b.config.ip = some macB)
    (hmacA : destMacFor b.config resolveB a.config.ip = some macA) (id seq : UInt16) :
    ∃ request reply answer,
      (icmpSendPing a resolveA b.config.ip id seq).2.1 = [.e1000SendPacket request] ∧
      (∀ p : Packet, p.Carries request → sentIpv4 (p.receive b).2 = [(a.config.ip, ipProtoIcmp, reply)]) ∧
      (netSendIpv4 b resolveB a.config.ip ipProtoIcmp reply).2.1 = [.e1000SendPacket answer] ∧
      ∀ p : Packet, p.Carries answer → echoKey a.config p = some (id, seq) := by
  have hipA : ownIp a.config = a.config.ip := by rw [ownIp, if_pos hA]
  have hipB : ownIp b.config = b.config.ip := by rw [ownIp, if_pos hB]
  have hn : 8 + pingData.length < 2 ^ 16 := by
    rw [length_pingData]
    omega
  refine ⟨echoFrame a.config macB b.config.ip icmpTypeEchoRequest id seq, icmpPacket icmpTypeEchoReply id seq pingData,
    echoFrame b.config macA a.config.ip icmpTypeEchoReply id seq, ?_, fun p hp => ?_, ?_, fun p hp => ?_⟩
  · exact netSendIpv4_echo hmacB (fun h => hne (hipA.symm.trans h.1.symm)) _ id seq
  · rw [← hipA]
    exact receive_echoRequest (length_destMacFor hmacB) hn hp
  · exact netSendIpv4_echo hmacA (fun h => hne (h.1.trans hipB)) _ id seq
  · exact echoKey_echoReply (length_destMacFor hmacA) hn hp

theorem ping_echo_pair : ∃ request reply answer,
    (icmpSendPing (echoHost 0x0100000A) (fun _ => some (Vector.replicate 6 3)) 0x0200000A 7 1).2.1 =
      [.e1000SendPacket request] ∧
    (∀ p : Packet, p.Carries request →
      sentIpv4 (p.receive (echoHost 0x0200000A)).2 = [(0x0100000A, ipProtoIcmp, reply)]) ∧
    (netSendIpv4 (echoHost 0x0200000A) (fun _ => some (Vector.replicate 6 2)) 0x0100000A ipProtoIcmp reply).2.1 =
      [.e1000SendPacket answer] ∧
    ∀ p : Packet, p.Carries answer → echoKey (echoHost 0x0100000A).config p = some (7, 1) := by
  have hmacB : destMacFor (echoHost 0x0100000A).config (fun _ => some (Vector.replicate 6 3))
      (echoHost 0x0200000A).config.ip = some (Vector.replicate 6 3).toList := rfl
  have hmacA : destMacFor (echoHost 0x0200000A).config (fun _ => some (Vector.replicate 6 2))
      (echoHost 0x0100000A).config.ip = some (Vector.replicate 6 2).toList := rfl
  exact ping_echo rfl rfl (by decide) hmacB hmacA 7 1

end AmqOs.Network
