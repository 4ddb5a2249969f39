import AmqOs.Network.NetDefs

/-!
# A datagram arrives as it was sent

`udp_send`, `net_send_ipv4` and `net_send_ethernet` put a header each in front of the payload, and `net_receive_packet` and
`udp_receive` take them off. The packets lie in memory as slices; each receiver is given a lemma for what it does on the
slice that its sender built, and the round trip (`udpSend_roundTrip`) composes them. A packet to the own address takes the
shortcut of `net_send_ipv4` and meets the lemma of `udp_receive` directly.
-/

set_option autoImplicit false

namespace AmqOs.Network

open AmqOs.Lib

variable {H : Type}

/-- The handlers that are called, and with what. -/
def handled (events : List (Event H)) : List (H × UInt32 × UInt16 × List UInt8) :=
  events.filterMap fun
    | .udpHandler handler srcIp srcPort _ bytes => some (handler, srcIp, srcPort, bytes)
    | _ => none

/-- One handler is registered on the port, and no other. -/
def OnlyHandler (handlers : Fin 8 → UdpHandlerEntry H) (port : UInt16) (handler : H) : Prop :=
  ∃ i, handlers i = ⟨port, some handler⟩ ∧ ∀ j, (handlers j).port = port → (handlers j).handler.isSome → j = i

theorem OnlyHandler.udpHandlerFor {handlers : Fin 8 → UdpHandlerEntry H} {port : UInt16} {handler : H}
    (h : OnlyHandler handlers port handler) : udpHandlerFor handlers port = some handler := by
  obtain ⟨i, hi, hall⟩ := h
  cases hfound : Network.udpHandlerFor handlers port with
  | none =>
    have hnone := List.findSome?_eq_none_iff.mp hfound i (List.mem_finRange i)
    simp [hi] at hnone
  | some found =>
    obtain ⟨j, -, hj⟩ := List.exists_of_findSome?_eq_some hfound
    split at hj
    · rename_i hport
      obtain rfl := hall j hport (by rw [hj]; rfl)
      rw [hi] at hj
      exact hj.symm
    · cases hj

theorem netHtons_netHtons (n : UInt16) : netHtons (netHtons n) = n := swap16_swap16 n

/-! ## UDP -/

/-- The packet that `udp_send` builds. -/
def udpPacket (srcPort destPort : UInt16) (data : List UInt8) : List UInt8 :=
  bytes16 (netHtons srcPort) ++ (bytes16 (netHtons destPort) ++
    (bytes16 (netHtons (8 + UInt16.ofNat data.length)) ++ (bytes16 0 ++ data)))

@[simp] theorem length_bytes16 (v : UInt16) : (bytes16 v).length = 2 := rfl

@[simp] theorem length_bytes32 (v : UInt32) : (bytes32 v).length = 4 := rfl

theorem length_udpPacket {srcPort destPort : UInt16} {data : List UInt8} :
    (udpPacket srcPort destPort data).length = 8 + data.length := by
  simp only [udpPacket, List.length_append, length_bytes16]
  omega

theorem toNat_add_ofNat {c : UInt16} {n : Nat} (h : c.toNat + n < 2 ^ 16) : (c + UInt16.ofNat n).toNat = c.toNat + n := by
  rw [UInt16.toNat_add, UInt16.toNat_ofNat', Nat.mod_eq_of_lt (show n < 2 ^ 16 by omega), Nat.mod_eq_of_lt h]

/-- `udp_receive` on a packet of `udp_send`. -/
theorem udpReceive_udpPacket {handlers : Fin 8 → UdpHandlerEntry H} {m : Mem} {srcIp : UInt32} {p : Nat}
    {srcPort destPort length : UInt16} {data : List UInt8} {handler : H} (hdata : data.length ≤ 8150)
    (hslice : m.slice p (udpPacket srcPort destPort data).length = udpPacket srcPort destPort data)
    (hlength : length.toNat = 8 + data.length) (h : OnlyHandler handlers destPort handler) :
    handled (udpReceive handlers m srcIp p length) = [(handler, srcIp, srcPort, data)] := by
  simp only [udpPacket, Mem.slice_eq_append, length_bytes16, Nat.add_assoc, Nat.reduceAdd] at hslice
  obtain ⟨hsrc, hdest, hlen, -, hbytes⟩ := hslice
  have hsrcPort : netHtons (m.load16 p) = srcPort := by rw [Mem.load16_of_slice hsrc, netHtons_netHtons]
  have hdestPort : netHtons (m.load16 (p + 2)) = destPort := by rw [Mem.load16_of_slice hdest, netHtons_netHtons]
  have hudpLen : (netHtons (m.load16 (p + 4))).toNat = 8 + data.length := by
    rw [Mem.load16_of_slice hlen, netHtons_netHtons]
    exact toNat_add_ofNat (by simp only [UInt16.reduceToNat]; omega)
  have hge : (8 : UInt16) ≤ length := by
    rw [UInt16.le_iff_toNat_le, hlength]
    simp only [UInt16.reduceToNat]
    omega
  -- the length in the header is that of the packet
  have hsame : netHtons (m.load16 (p + 4)) = length := UInt16.toNat_inj.mp (hudpLen.trans hlength.symm)
  have hpayload : (length - 8).toNat = data.length := by
    rw [UInt16.toNat_sub_of_le _ _ hge, hlength]
    simp only [UInt16.reduceToNat]
    omega
  unfold udpReceive
  simp only [UInt16.not_lt.mpr hge, if_false, hsrcPort, hdestPort, hsame, UInt16.lt_irrefl, gt_iff_lt, h.udpHandlerFor,
    hpayload, hbytes]
  rfl

/-- `udp_send` gives its packet to `net_send_ipv4`. -/
theorem udpSend_eq {host : Host H} {arpResolve : UInt32 → Option Mac} {destIp : UInt32} {srcPort destPort : UInt16}
    {data : List UInt8} (hdata : data.length ≤ 8150) : udpSend host arpResolve destIp srcPort destPort data =
      netSendIpv4 host arpResolve destIp ipProtoUdp (udpPacket srcPort destPort data) := by
  have htotal : (8 + UInt16.ofNat data.length).toNat = 8 + data.length :=
    toNat_add_ofNat (by simp only [UInt16.reduceToNat]; omega)
  have hbuffer : bytes16 (netHtons srcPort) ++ bytes16 (netHtons destPort) ++
      bytes16 (netHtons (8 + UInt16.ofNat data.length)) ++ bytes16 0 ++ data = udpPacket srcPort destPort data := by
    simp only [udpPacket, List.append_assoc]
  unfold udpSend
  simp only [hbuffer, htotal]
  rw [List.take_of_length_le (le_of_eq length_udpPacket)]

/-! ## IPv4 -/

/-- The packet that `net_send_ipv4` builds. -/
def ipv4Packet (protocol : UInt8) (srcIp destIp : UInt32) (payload : List UInt8) : List UInt8 :=
  let totalLen : UInt16 := 20 + UInt16.ofNat payload.length
  ipv4Header totalLen protocol (netChecksum (ipv4Header totalLen protocol 0 srcIp destIp)) srcIp destIp ++ payload

theorem length_ipv4Packet {protocol : UInt8} {srcIp destIp : UInt32} {payload : List UInt8} :
    (ipv4Packet protocol srcIp destIp payload).length = 20 + payload.length := by
  simp only [ipv4Packet, ipv4Header, List.length_append, length_bytes16, length_bytes32, List.length_cons, List.length_nil]

/-- `net_receive_packet` on a UDP packet of `net_send_ipv4`. -/
theorem netReceiveIpv4_ipv4Packet {host : Host H} {m : Mem} {ip : Nat} {srcIp destIp : UInt32} {payload : List UInt8}
    (hpayload : payload.length ≤ 8158)
    (hslice : m.slice ip (ipv4Packet ipProtoUdp srcIp destIp payload).length = ipv4Packet ipProtoUdp srcIp destIp payload)
    (hdest : host.config.ip = destIp ∨ destIp = broadcastIp) :
    ∃ length : UInt16, length.toNat = payload.length ∧ m.slice (ip + 20) payload.length = payload ∧
      handled (netReceiveIpv4 host m ip).2 = handled (udpReceive host.udpHandlers m srcIp (ip + 20) length) := by
  simp only [ipv4Packet, ipv4Header, List.append_assoc, Mem.slice_eq_append, length_bytes16, length_bytes32,
    List.length_cons, List.length_nil, Nat.add_assoc, Nat.reduceAdd] at hslice
  obtain ⟨hversion, htotal, hproto, -, hsrc, hdst, hrest⟩ := hslice
  simp only [Mem.slice, List.cons.injEq, and_true, Nat.add_assoc, Nat.reduceAdd] at hversion hproto
  have hus : notForUs host.config m ip = false := by
    unfold notForUs
    rw [Mem.load32_of_slice hdst]
    rcases hdest with rfl | rfl
    · simp
    · simp
  have hihl : ((m ip &&& 0x0F).toUInt16 * 4 : UInt16) = 20 := by
    rw [hversion.1]
    decide
  have htotalLen : netHtons (m.load16 (ip + 2)) = 20 + UInt16.ofNat payload.length := by
    rw [Mem.load16_of_slice htotal, netHtons_netHtons]
  refine ⟨UInt16.ofNat payload.length, ?_, hrest, ?_⟩
  · rw [UInt16.toNat_ofNat', Nat.mod_eq_of_lt (by omega)]
  · have hlength : 20 + UInt16.ofNat payload.length - 20 = UInt16.ofNat payload.length := by
      rw [UInt16.add_comm, UInt16.add_sub_cancel]
    have hudp : ¬ ipProtoUdp = ipProtoIcmp := by decide
    unfold netReceiveIpv4
    simp only [hus, Bool.false_eq_true, if_false, hihl, htotalLen, hlength, Mem.load32_of_slice hsrc,
      hproto.2.2.2.2.2, hudp, if_true]
    rfl

/-- `net_send_ipv4` gives its packet to `net_send_ethernet`. -/
theorem netSendIpv4_eq {host : Host H} {arpResolve : UInt32 → Option Mac} {destIp : UInt32} {protocol : UInt8}
    {payload destMac : List UInt8} (hpayload : payload.length ≤ 8158)
    (hown : ¬ (destIp = ownIp host.config ∧ ownIp host.config ≠ 0))
    (hmac : destMacFor host.config arpResolve destIp = some destMac) :
    netSendIpv4 host arpResolve destIp protocol payload =
      (host, netSendEthernet host destMac ethTypeIpv4 (ipv4Packet protocol (ownIp host.config) destIp payload)) := by
  have htotal : (20 + UInt16.ofNat payload.length).toNat = 20 + payload.length :=
    toNat_add_ofNat (by simp only [UInt16.reduceToNat]; omega)
  unfold netSendIpv4
  dsimp only
  rw [if_neg hown, hmac, htotal]
  change (host, netSendEthernet host destMac ethTypeIpv4
    (List.take (20 + payload.length) (ipv4Packet protocol (ownIp host.config) destIp payload))) = _
  rw [List.take_of_length_le (le_of_eq length_ipv4Packet)]

/-! ## Ethernet -/

theorem length_destMacFor {config : NetConfig} {arpResolve : UInt32 → Option Mac} {destIp : UInt32} {destMac : List UInt8}
    (h : destMacFor config arpResolve destIp = some destMac) : destMac.length = 6 := by
  unfold destMacFor at h
  split at h
  · cases h
    rfl
  · obtain ⟨ip, -, hmac⟩ := Option.bind_eq_some_iff.mp h
    obtain ⟨mac, -, rfl⟩ := Option.map_eq_some_iff.mp hmac
    exact mac.length_toList

/-- The frame that `net_send_ethernet` builds. -/
def ethFrame (destMac : List UInt8) (srcMac : Mac) (ethertype : UInt16) (payload : List UInt8) : List UInt8 :=
  destMac ++ (srcMac.toList ++ (bytes16 (netHtons ethertype) ++ payload))

theorem length_ethFrame {destMac : List UInt8} {srcMac : Mac} {ethertype : UInt16} {payload : List UInt8}
    (hmac : destMac.length = 6) : (ethFrame destMac srcMac ethertype payload).length = 14 + payload.length := by
  simp only [ethFrame, List.length_append, length_bytes16, hmac, Vector.length_toList]
  omega

theorem netSendEthernet_eq {host : Host H} {destMac : List UInt8} {ethertype : UInt16} {payload : List UInt8}
    (hmac : destMac.length = 6) (hpayload : payload.length ≤ 8178) :
    (netSendEthernet host destMac ethertype payload).1 =
      [.e1000SendPacket (ethFrame destMac host.config.mac ethertype payload)] := by
  have htotal : (14 + UInt16.ofNat payload.length).toNat = 14 + payload.length :=
    toNat_add_ofNat (by simp only [UInt16.reduceToNat]; omega)
  have hbuffer : destMac ++ host.config.mac.toList ++ bytes16 (netHtons ethertype) ++ payload =
      ethFrame destMac host.config.mac ethertype payload := by
    simp only [ethFrame, List.append_assoc]
  unfold netSendEthernet e1000SendPacket
  dsimp only
  rw [hbuffer, htotal, List.take_of_length_le (le_of_eq (length_ethFrame hmac))]

/-- `net_receive_packet` on a frame with an IPv4 packet. -/
theorem netReceivePacket_ethFrame {host : Host H} {m : Mem} {addr : Nat} {length : UInt16} {destMac : List UInt8}
    {srcMac : Mac} {payload : List UInt8} (hmac : destMac.length = 6)
    (hslice : m.slice addr (ethFrame destMac srcMac ethTypeIpv4 payload).length =
      ethFrame destMac srcMac ethTypeIpv4 payload) (hlength : 34 ≤ length) :
    netReceivePacket host m addr length = netReceiveIpv4 host m (addr + 14) ∧
      m.slice (addr + 14) payload.length = payload := by
  simp only [ethFrame, Mem.slice_eq_append, length_bytes16, hmac, Vector.length_toList, Nat.add_assoc,
    Nat.reduceAdd] at hslice
  obtain ⟨-, -, htype, hrest⟩ := hslice
  refine ⟨?_, hrest⟩
  have hshort : ¬ length < 14 := by
    rw [UInt16.le_iff_toNat_le] at hlength
    rw [UInt16.lt_iff_toNat_lt]
    simp only [UInt16.reduceToNat] at *
    omega
  have harp : ¬ ethTypeIpv4 = ethTypeArp := by decide
  unfold netReceivePacket
  simp only [hshort, if_false, Mem.load16_of_slice htype, netHtons_netHtons, harp, if_true, UInt16.not_lt.mpr hlength]

/-! ## The round trip -/

section RoundTrip

variable {sender : Host H} {arpResolve : UInt32 → Option Mac} {destIp : UInt32} {srcPort destPort : UInt16}
  {data destMac : List UInt8}

/-- The frame of a datagram. -/
def udpFrame (sender : Host H) (destMac : List UInt8) (destIp : UInt32) (srcPort destPort : UInt16) (data : List UInt8) :
    List UInt8 :=
  ethFrame destMac sender.config.mac ethTypeIpv4
    (ipv4Packet ipProtoUdp (ownIp sender.config) destIp (udpPacket srcPort destPort data))

theorem length_udpFrame (hmac : destMac.length = 6) :
    (udpFrame sender destMac destIp srcPort destPort data).length = 42 + data.length := by
  rw [udpFrame, length_ethFrame hmac, length_ipv4Packet, length_udpPacket]
  omega

theorem udpSend_udpFrame (hdata : data.length ≤ 8150) (hown : ¬ (destIp = ownIp sender.config ∧ ownIp sender.config ≠ 0))
    (hmac : destMacFor sender.config arpResolve destIp = some destMac) :
    (udpSend sender arpResolve destIp srcPort destPort data).2.1 =
      [.e1000SendPacket (udpFrame sender destMac destIp srcPort destPort data)] := by
  rw [udpSend_eq hdata, netSendIpv4_eq (by rw [length_udpPacket]; omega) hown hmac]
  apply netSendEthernet_eq (length_destMacFor hmac)
  rw [length_ipv4Packet, length_udpPacket]
  omega

/-- The frame of a datagram with padding, on the host that owns the destination. -/
theorem netReceivePacket_udpFrame {H' : Type} {receiver : Host H'} {m : Mem} {addr : Nat} {padding : List UInt8}
    {handler : H'} (hdata : data.length ≤ 8150) (hmac : destMac.length = 6)
    (hdest : receiver.config.ip = destIp ∨ destIp = broadcastIp) (hhandler : OnlyHandler receiver.udpHandlers destPort handler)
    (hfits : (udpFrame sender destMac destIp srcPort destPort data ++ padding).length < 2 ^ 16)
    (hslice : m.slice addr (udpFrame sender destMac destIp srcPort destPort data ++ padding).length =
      udpFrame sender destMac destIp srcPort destPort data ++ padding) :
    handled (netReceivePacket receiver m addr
        (UInt16.ofNat (udpFrame sender destMac destIp srcPort destPort data ++ padding).length)).2 =
      [(handler, ownIp sender.config, srcPort, data)] := by
  have hge : (34 : UInt16) ≤
      UInt16.ofNat (udpFrame sender destMac destIp srcPort destPort data ++ padding).length := by
    rw [UInt16.le_iff_toNat_le, UInt16.toNat_ofNat', Nat.mod_eq_of_lt hfits, List.length_append, length_udpFrame hmac]
    simp only [UInt16.reduceToNat]
    omega
  obtain ⟨hframe, -⟩ := Mem.slice_eq_append.mp hslice
  obtain ⟨heth, hpayload⟩ := netReceivePacket_ethFrame hmac hframe hge
  obtain ⟨length, hlength, hudp, hip⟩ := netReceiveIpv4_ipv4Packet (by rw [length_udpPacket]; omega) hpayload hdest
  rw [heth, hip]
  exact udpReceive_udpPacket hdata hudp (hlength.trans length_udpPacket) hhandler

/-- A datagram to the own address. -/
theorem udpSend_own {handler : H} (hdata : data.length ≤ 8150) (hown : destIp = ownIp sender.config)
    (hne : ownIp sender.config ≠ 0) (hhandler : OnlyHandler sender.udpHandlers destPort handler) :
    handled (udpSend sender arpResolve destIp srcPort destPort data).2.1 =
      [(handler, ownIp sender.config, srcPort, data)] := by
  have hlength : (UInt16.ofNat (udpPacket srcPort destPort data).length).toNat = 8 + data.length := by
    rw [length_udpPacket, UInt16.toNat_ofNat', Nat.mod_eq_of_lt (by omega)]
  have hicmp : ¬ ipProtoUdp = ipProtoIcmp := by decide
  rw [udpSend_eq hdata]
  unfold netSendIpv4 netLoopback
  simp only [hown, hne, ne_eq, not_false_eq_true, and_self, if_true, hicmp, if_false]
  exact udpReceive_udpPacket hdata Mem.slice_ofList hlength hhandler

end RoundTrip

/-- **A datagram arrives as it was sent.** With an address on the wire for the destination, the frame of `udp_send` fits the
network card, and on the host that owns the destination, whatever padding follows it, it makes `net_receive_packet` call the
handler of the port once, with the address and the port of the sender and the payload. A datagram to the own address is
handed to the handler of the sender. -/
theorem udpSend_roundTrip {H' : Type} (sender : Host H) (arpResolve : UInt32 → Option Mac) (destIp : UInt32)
    (srcPort destPort : UInt16) (data : List UInt8) (hdata : data.length ≤ 8150) :
    (¬ (destIp = ownIp sender.config ∧ ownIp sender.config ≠ 0) → (destMacFor sender.config arpResolve destIp).isSome →
      ∃ frame, (udpSend sender arpResolve destIp srcPort destPort data).2.1 = [.e1000SendPacket frame] ∧
        frame.length ≤ 8192 ∧ ∀ (receiver : Host H') (m : Mem) (addr : Nat) (padding : List UInt8) (handler : H'),
          (receiver.config.ip = destIp ∨ destIp = broadcastIp) → OnlyHandler receiver.udpHandlers destPort handler →
          (frame ++ padding).length < 2 ^ 16 → m.slice addr (frame ++ padding).length = frame ++ padding →
            handled (netReceivePacket receiver m addr (UInt16.ofNat (frame ++ padding).length)).2 =
              [(handler, ownIp sender.config, srcPort, data)]) ∧
    (destIp = ownIp sender.config → ownIp sender.config ≠ 0 → ∀ handler : H,
      OnlyHandler sender.udpHandlers destPort handler →
        handled (udpSend sender arpResolve destIp srcPort destPort data).2.1 =
          [(handler, ownIp sender.config, srcPort, data)]) := by
  constructor
  · intro hown hmac
    obtain ⟨destMac, hmac⟩ := Option.isSome_iff_exists.mp hmac
    have hlen := length_destMacFor hmac
    refine ⟨udpFrame sender destMac destIp srcPort destPort data, udpSend_udpFrame hdata hown hmac, ?_, ?_⟩
    · rw [length_udpFrame hlen]
      omega
    · intro receiver m addr padding handler hdest hhandler hfits hslice
      exact netReceivePacket_udpFrame hdata hlen hdest hhandler hfits hslice
  · intro hown hne handler hhandler
    exact udpSend_own hdata hown hne hhandler

/-- A host at `ip` that has a handler on port 7. -/
def echoHost (ip : UInt32) : Host Unit :=
  { (bootHost : Host Unit) with
    config := ⟨Vector.replicate 6 2, ip, 0x00FFFFFF, 0, true⟩
    udpHandlers := udpRegisterHandler (fun _ => ⟨0, none⟩) 7 (some ()) }

theorem onlyHandler_echoHost {ip : UInt32} : OnlyHandler (echoHost ip).udpHandlers 7 () := by
  -- the handlers do not depend on the address
  have h : ∀ j, ((echoHost 0).udpHandlers j).port = 7 → ((echoHost 0).udpHandlers j).handler.isSome → j = 0 := by decide
  exact ⟨0, rfl, h⟩

theorem udpSend_roundTrip_echo : (∃ frame,
      (udpSend (echoHost 0x0100000A) (fun _ => some (Vector.replicate 6 3)) 0x0200000A 5000 7 [1, 2, 3]).2.1 =
        [.e1000SendPacket frame] ∧
      handled (netReceivePacket (echoHost 0x0200000A) (Mem.ofList (frame ++ [0])) 0
        (UInt16.ofNat (frame ++ [0]).length)).2 = [((), 0x0100000A, 5000, [1, 2, 3])]) ∧
    handled (udpSend (echoHost 0x0100000A) (fun _ => none) 0x0100000A 5000 7 [1, 2, 3]).2.1 =
      [((), 0x0100000A, 5000, [1, 2, 3])] := by
  constructor
  · obtain ⟨frame, hsend, hlen, hreceive⟩ := (udpSend_roundTrip (echoHost 0x0100000A)
      (fun _ => some (Vector.replicate 6 3)) 0x0200000A 5000 7 [1, 2, 3] (by decide)).1 (by decide) (by decide)
    refine ⟨frame, hsend, hreceive (echoHost 0x0200000A) _ 0 [0] () (.inl rfl) onlyHandler_echoHost ?_ Mem.slice_ofList⟩
    rw [List.length_append, List.length_singleton]
    omega
  · exact (@udpSend_roundTrip Unit Unit (echoHost 0x0100000A) (fun _ => none) 0x0100000A 5000 7 [1, 2, 3]
      (by decide)).2 rfl (by decide) () onlyHandler_echoHost

/-- A host at 0.0.0.0 does not take the shortcut. -/
theorem udpSend_own_zero : ¬ ∀ (sender : Host Unit) (arpResolve : UInt32 → Option Mac) (destIp : UInt32)
    (srcPort destPort : UInt16) (data : List UInt8) (handler : Unit), data.length ≤ 8150 → destPort ≠ 0 →
      destIp = ownIp sender.config → OnlyHandler sender.udpHandlers destPort handler →
        handled (udpSend sender arpResolve destIp srcPort destPort data).2.1 =
          [(handler, ownIp sender.config, srcPort, data)] := by
  intro h
  have hown := h (echoHost 0) (fun _ => none) 0 5000 7 [1, 2, 3] () (by decide) (by decide) rfl onlyHandler_echoHost
  have hnone : handled (udpSend (echoHost 0) (fun _ => none) 0 5000 7 [1, 2, 3]).2.1 = [] := by decide
  rw [hnone] at hown
  cases hown

end AmqOs.Network
