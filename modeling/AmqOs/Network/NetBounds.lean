import AmqOs.Network.NetDefs

/-!
# The receive path stays in the frame

`net_receive_packet` hands parts of the frame on to `arp_receive`, `icmp_receive`, `udp_receive` and `tcp_receive`, and
these hand parts of theirs on to the handlers. Only the length of the frame is checked against the headers, not the
lengths in the headers against it; `FrameOk` says what has to hold of these for every range to lie in the frame and no
length to wrap around (`netReceivePacket_inside_iff`).
-/

set_option autoImplicit false

namespace AmqOs.Network

open AmqOs.Lib

variable {H : Type} {m : Mem} {srcIp : UInt32} {base len data : Nat} {length : UInt16}

/-- What is passed on lies in the `length` bytes at `data`, and a length that is computed does not wrap around. -/
def Event.Inside (data length : Nat) : Event H → Prop
  | .arpReceive p n | .icmpReceive _ p n | .udpReceive _ p n | .tcpReceive _ p n =>
    data ≤ p ∧ p + n.toNat ≤ data + length
  | .udpHandler _ _ _ p bytes | .httpTcpDataReceived p bytes => data ≤ p ∧ p + bytes.length ≤ data + length
  | .minus a b => b ≤ a
  | _ => True

/-- The length in a UDP header counts the header. -/
def UdpOk (m : Mem) (data : Nat) (length : UInt16) : Prop := 8 ≤ length → 8 ≤ netHtons (m.load16 (data + 4))

/-- The data of a segment for an established connection starts in the segment. -/
def TcpOk (sockets : Fin 16 → TcpSocket) (m : Mem) (srcIp : UInt32) (data : Nat) (length : UInt16) : Prop :=
  20 ≤ length → ∀ i, tcpFind sockets srcIp (netHtons (m.load16 data)) (netHtons (m.load16 (data + 2))) = some i →
    (sockets i).state = .established → m (data + 13) &&& tcpFin = 0 → m (data + 13) &&& tcpAck ≠ 0 →
      tcpHeaderLen m data ≤ length

/-- The headers of an IPv4 packet for this host agree with the length of the frame. -/
def FrameOk (host : Host H) (m : Mem) (data : Nat) (length : UInt16) : Prop :=
  let ip := data + 14
  let ipHeaderLen : UInt16 := (m ip &&& 0x0F).toUInt16 * 4
  let totalLength := netHtons (m.load16 (ip + 2))
  let protocol := m (ip + 9)
  34 ≤ length → netHtons (m.load16 (data + 12)) = ethTypeIpv4 → notForUs host.config m ip = false →
    ipHeaderLen ≤ totalLength ∧
    (protocol = ipProtoIcmp ∨ protocol = ipProtoUdp ∨ protocol = ipProtoTcp → 14 + totalLength.toNat ≤ length.toNat) ∧
    (protocol = ipProtoUdp → UdpOk m (ip + ipHeaderLen.toNat) (totalLength - ipHeaderLen)) ∧
    (protocol = ipProtoTcp →
      TcpOk host.tcpSockets m (m.load32 (ip + 12)) (ip + ipHeaderLen.toNat) (totalLength - ipHeaderLen))

/-! ## The protocols -/

theorem arpReceive_inside {config : NetConfig} {arp : Arp} :
    ∀ e ∈ (arpReceive config arp m data length : Arp × List (Event H)).2, e.Inside base len := by
  intro e he
  unfold arpReceive at he
  split at he
  · simp at he
  · dsimp only at he
    split at he
    · simp only [List.mem_singleton] at he
      subst he
      trivial
    · simp at he

theorem icmpReceive_inside {icmp : Icmp} :
    ∀ e ∈ (icmpReceive icmp m srcIp data length : Icmp × List (Event H)).2, e.Inside base len := by
  intro e he
  unfold icmpReceive at he
  split at he
  · simp at he
  rename_i hlen
  split at he
  · simp only [List.mem_cons, List.not_mem_nil, or_false] at he
    rcases he with rfl | rfl
    · exact UInt16.not_lt.mp hlen
    · trivial
  · split at he
    · simp at he
    · simp at he

/-- What `udp_receive` passes on lies in what it was given. -/
theorem udpReceive_inside_iff {handlers : Fin 8 → UdpHandlerEntry H}
    (hdata : base ≤ data ∧ data + length.toNat ≤ base + len) :
    (∀ e ∈ udpReceive handlers m srcIp data length, e.Inside base len) ↔ UdpOk m data length := by
  unfold udpReceive UdpOk
  by_cases hlen : length < 8
  · simp [hlen, UInt16.not_le.mpr hlen]
  have hge := UInt16.not_lt.mp hlen
  have hsub := UInt16.toNat_sub_of_le _ _ hge
  simp only [hlen, if_false, List.forall_mem_append, List.forall_mem_cons, hge, true_imp_iff]
  constructor
  · rintro ⟨⟨h, _⟩, _⟩
    exact h
  · intro h
    refine ⟨⟨h, hge, by simp⟩, ?_⟩
    split
    · simp
    · rename_i hle
      have hle' := UInt16.le_iff_toNat_le.mp (UInt16.not_lt.mp hle)
      have h8 := UInt16.le_iff_toNat_le.mp hge
      split
      · intro e he
        simp only [List.mem_singleton] at he
        subst he
        simp only [Event.Inside, Mem.length_slice]
        simp only [UInt16.reduceToNat] at *
        omega
      · simp

theorem tcpHandle_inside_iff {sock : TcpSocket} (hdata : base ≤ data ∧ data + length.toNat ≤ base + len) :
    (∀ e ∈ (tcpHandle sock m data length : TcpSocket × List (Event H)).2, e.Inside base len) ↔
      (sock.state = .established → m (data + 13) &&& tcpFin = 0 → m (data + 13) &&& tcpAck ≠ 0 →
        tcpHeaderLen m data ≤ length) := by
  unfold tcpHandle
  cases hstate : sock.state with
  | established =>
    by_cases hfin : m (data + 13) &&& tcpFin = 0
    · by_cases hack : m (data + 13) &&& tcpAck = 0
      · simp [hfin, hack]
      · simp only [hfin, ne_eq, not_true_eq_false, if_false, hack, not_false_eq_true, if_true, true_imp_iff]
        split
        · simp only [List.forall_mem_cons, List.not_mem_nil, false_imp_iff, implies_true, and_true, Event.Inside,
            Mem.length_slice]
          constructor
          · exact And.left
          · intro hle
            have hsub := UInt16.toNat_sub_of_le _ _ hle
            have hle' := UInt16.le_iff_toNat_le.mp hle
            refine ⟨hle, ?_⟩
            omega
        · simp [Event.Inside]
    · simp [hfin, Event.Inside]
  | synSent =>
    dsimp only
    split
    · simp [Event.Inside]
    · simp
  | lastAck =>
    dsimp only
    split
    · simp
    · simp
  | _ => simp

/-- What `tcp_receive` passes on lies in what it was given. -/
theorem tcpReceive_inside_iff {sockets : Fin 16 → TcpSocket} (hdata : base ≤ data ∧ data + length.toNat ≤ base + len) :
    (∀ e ∈ (tcpReceive sockets m srcIp data length : (Fin 16 → TcpSocket) × List (Event H)).2, e.Inside base len) ↔
      TcpOk sockets m srcIp data length := by
  unfold tcpReceive TcpOk
  by_cases hlen : length < 20
  · simp [hlen, UInt16.not_le.mpr hlen]
  have hge := UInt16.not_lt.mp hlen
  simp only [hlen, if_false, hge, true_imp_iff]
  cases hfind : tcpFind sockets srcIp (netHtons (m.load16 data)) (netHtons (m.load16 (data + 2))) with
  | none => simp
  | some i =>
    dsimp only
    rw [tcpHandle_inside_iff hdata]
    constructor
    · rintro h j hj
      cases hj
      exact h
    · intro h
      exact h i rfl

/-! ## The frame -/

/-- A packet whose payload is passed on, and then as far as `P` says. -/
theorem dispatch_inside_iff {ip : Nat} {ihl total : UInt16} {call : Event H} {events : List (Event H)} {P : Prop}
    (hip : base ≤ ip) (hcall : call.Inside base len ↔ base ≤ ip + ihl.toNat ∧ ip + ihl.toNat + (total - ihl).toNat ≤ base + len)
    (hevents : base ≤ ip + ihl.toNat ∧ ip + ihl.toNat + (total - ihl).toNat ≤ base + len →
      ((∀ e ∈ events, e.Inside base len) ↔ P)) :
    (∀ e ∈ [.minus total ihl, call] ++ events, e.Inside base len) ↔ ihl ≤ total ∧ ip + total.toNat ≤ base + len ∧ P := by
  simp only [List.forall_mem_append, List.forall_mem_cons, List.not_mem_nil, false_imp_iff, implies_true, and_true, and_assoc]
  refine and_congr_right fun hle => ?_
  have hle' := UInt16.le_iff_toNat_le.mp hle
  have hsub := UInt16.toNat_sub_of_le _ _ hle
  rw [hcall]
  constructor
  · rintro ⟨hin, hrest⟩
    exact ⟨by omega, (hevents hin).mp hrest⟩
  · rintro ⟨hend, hP⟩
    have hin : base ≤ ip + ihl.toNat ∧ ip + ihl.toNat + (total - ihl).toNat ≤ base + len := by omega
    exact ⟨hin, (hevents hin).mpr hP⟩

/-- An IPv4 packet for this host. -/
theorem netReceiveIpv4_inside_iff {host : Host H} {ip : Nat} (hip : base ≤ ip)
    (hus : notForUs host.config m ip = false) :
    (∀ e ∈ (netReceiveIpv4 host m ip).2, e.Inside base len) ↔
      (m ip &&& 0x0F).toUInt16 * 4 ≤ netHtons (m.load16 (ip + 2)) ∧
      (m (ip + 9) = ipProtoIcmp ∨ m (ip + 9) = ipProtoUdp ∨ m (ip + 9) = ipProtoTcp →
        ip + (netHtons (m.load16 (ip + 2))).toNat ≤ base + len) ∧
      (m (ip + 9) = ipProtoUdp → UdpOk m (ip + ((m ip &&& 0x0F).toUInt16 * 4).toNat)
        (netHtons (m.load16 (ip + 2)) - (m ip &&& 0x0F).toUInt16 * 4)) ∧
      (m (ip + 9) = ipProtoTcp → TcpOk host.tcpSockets m (m.load32 (ip + 12))
        (ip + ((m ip &&& 0x0F).toUInt16 * 4).toNat)
        (netHtons (m.load16 (ip + 2)) - (m ip &&& 0x0F).toUInt16 * 4)) := by
  unfold netReceiveIpv4
  simp only [hus, Bool.false_eq_true, if_false]
  generalize (m ip &&& 0x0F).toUInt16 * 4 = ihl
  generalize netHtons (m.load16 (ip + 2)) = total
  by_cases hicmp : m (ip + 9) = ipProtoIcmp
  · rw [if_pos hicmp]
    refine (dispatch_inside_iff hip Iff.rfl fun _ => iff_true_intro icmpReceive_inside).trans ?_
    simp [hicmp, ipProtoIcmp, ipProtoUdp, ipProtoTcp]
  rw [if_neg hicmp]
  by_cases hudp : m (ip + 9) = ipProtoUdp
  · rw [if_pos hudp]
    refine (dispatch_inside_iff hip Iff.rfl udpReceive_inside_iff).trans ?_
    simp [hudp, ipProtoIcmp, ipProtoUdp, ipProtoTcp]
  rw [if_neg hudp]
  by_cases htcp : m (ip + 9) = ipProtoTcp
  · rw [if_pos htcp]
    refine (dispatch_inside_iff hip Iff.rfl tcpReceive_inside_iff).trans ?_
    simp [htcp, ipProtoIcmp, ipProtoUdp, ipProtoTcp]
  · rw [if_neg htcp]
    simp [hicmp, hudp, htcp, Event.Inside]

/-- **Receive-path bounds**: for any frame, what is passed on lies in the frame and no length wraps around exactly when the
lengths in the headers agree with that of the frame. -/
theorem netReceivePacket_inside_iff (host : Host H) (m : Mem) (data : Nat) (length : UInt16) :
    (∀ e ∈ (netReceivePacket host m data length).2, e.Inside data length.toNat) ↔ FrameOk host m data length := by
  unfold netReceivePacket FrameOk
  by_cases hshort : length < 14
  · have hlt : ¬ 34 ≤ length := fun h => by
      have := UInt16.lt_iff_toNat_lt.mp hshort
      have := UInt16.le_iff_toNat_le.mp h
      simp only [UInt16.reduceToNat] at *
      omega
    simp [hshort, hlt]
  have hge := UInt16.not_lt.mp hshort
  have hge' := UInt16.le_iff_toNat_le.mp hge
  have hsub := UInt16.toNat_sub_of_le _ _ hge
  rw [if_neg hshort]
  dsimp only
  by_cases harp : netHtons (m.load16 (data + 12)) = ethTypeArp
  · rw [if_pos harp, harp, List.forall_mem_append, List.forall_mem_cons, List.forall_mem_singleton]
    have hnot : ¬ ethTypeArp = ethTypeIpv4 := by decide
    simp only [hnot, false_imp_iff, implies_true, iff_true]
    refine ⟨⟨hge, ?_⟩, arpReceive_inside⟩
    simp only [Event.Inside, UInt16.reduceToNat] at *
    omega
  rw [if_neg harp]
  by_cases hip : netHtons (m.load16 (data + 12)) = ethTypeIpv4
  · rw [if_pos hip]
    by_cases hlen : length < 34
    · simp [hlen, UInt16.not_le.mpr hlen]
    simp only [if_neg hlen, UInt16.not_lt.mp hlen, hip, true_imp_iff]
    cases hus : notForUs host.config m (data + 14) with
    | true => simp [netReceiveIpv4, hus]
    | false =>
      rw [netReceiveIpv4_inside_iff (by omega) hus]
      simp only [true_imp_iff, Nat.add_assoc, Nat.add_le_add_iff_left]
  · simp [hip]

/-- A frame of 34 bytes with the header of a UDP packet of 1500 bytes. -/
def cutFrame : List UInt8 :=
  List.replicate 12 0 ++ [0x08, 0x00] ++ ipv4Header 1500 ipProtoUdp 0 0x0100000A 0xFFFFFFFF

/-- `udp_receive` is given 1480 bytes at the end of the frame. -/
theorem netReceivePacket_cutFrame : ¬ ∀ (host : Host Unit) (m : Mem) (data : Nat) (length : UInt16),
    ∀ e ∈ (netReceivePacket host m data length).2, e.Inside data length.toNat := by
  intro h
  have hin := h bootHost (Mem.ofList cutFrame) 0 34 (.udpReceive 0x0100000A 34 1480) (by decide)
  simp [Event.Inside] at hin

end AmqOs.Network
