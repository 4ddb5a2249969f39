import AmqOs.Network.ArpCache
import AmqOs.Network.UdpRoundTrip
import Mathlib.Logic.Relation
import Mathlib.Data.Fintype.Card

/-!
# ARP on a network

The hosts of a network ask for addresses and answer each other. A frame that has been sent stays on the wire: it may reach
any host, at any time and any number of times, or never (`LanStep`). The hosts keep their addresses, and nobody else sends
ARP frames.

- `lan_safe`: in every reachable state the caches hold right addresses only, and so does the answer of `arp_resolve`,
  whatever reaches the host while it waits;
- `lan_resolves`: among at most 32 hosts nothing is ever forgotten, and `arp_resolve` finds the address as soon as one
  ARP frame of its owner arrives in one of its 1500 rounds. The owner sends one when the request reaches it.
-/

set_option autoImplicit false

namespace AmqOs.Network

open AmqOs.Lib

/-! ## The code -/

section Code

variable {H : Type}

/-- An `arp_packet_t`. -/
def arpPacket (operation : UInt16) (senderMac : List UInt8) (senderIp : UInt32) (targetMac : List UInt8)
    (targetIp : UInt32) : List UInt8 :=
  bytes16 (netHtons 1) ++ (bytes16 (netHtons ethTypeIpv4) ++ ([6, 4] ++ (bytes16 (netHtons operation) ++
    (senderMac ++ (bytes32 senderIp ++ (targetMac ++ bytes32 targetIp))))))

def broadcastMac : List UInt8 := [0xFF, 0xFF, 0xFF, 0xFF, 0xFF, 0xFF]

/-- `arp_send_request`. -/
def arpSendRequest (config : NetConfig) (targetIp : UInt32) : List (Event H) :=
  [.netSendEthernet broadcastMac ethTypeArp
    (arpPacket arpRequest config.mac.toList config.ip (List.replicate 6 0) targetIp)]

/-- The arguments of `net_receive_packet`. -/
structure Packet where
  m : Mem
  data : Nat
  length : UInt16

def Packet.receive (p : Packet) (host : Host H) : Host H × List (Event H) := netReceivePacket host p.m p.data p.length

/-- What twenty calls of `e1000_interrupt_handler` pass on. -/
def receiveAll (host : Host H) : List Packet → Host H × List (Event H)
  | [] => (host, [])
  | p :: ps =>
    let (host, events) := p.receive host
    let (host, rest) := receiveAll host ps
    (host, events ++ rest)

/-- The inner loop of `arp_resolve`, for the next `n` rounds from round `k` on. -/
def arpWait (ip : UInt32) (rounds : Nat → List Packet) : Nat → Nat → Host H → Option Mac × Host H × List (Event H)
  | 0, _, host => (none, host, [])
  | n + 1, k, host =>
    let (host, events) := receiveAll host (rounds k)
    match arpCacheLookup host.arp ip with
    | some mac => (some mac, host, events)
    | none =>
      let (result, host, rest) := arpWait ip rounds n (k + 1) host
      (result, host, events ++ rest)

/-- The outer loop, for the next `n` requests. -/
def arpRetry (ip : UInt32) (rounds : Nat → List Packet) : Nat → Nat → Host H → Option Mac × Host H × List (Event H)
  | 0, _, host => (none, host, [])
  | n + 1, k, host =>
    let request := arpSendRequest host.config ip
    match arpWait ip rounds 500 k host with
    | (some mac, host, events) => (some mac, host, request ++ events)
    | (none, host, events) =>
      let (result, host, rest) := arpRetry ip rounds n (k + 500) host
      (result, host, request ++ events ++ rest)

/-- `arp_resolve`, when `rounds k` arrives before the lookup of round `k`. -/
def arpResolve (host : Host H) (ip : UInt32) (rounds : Nat → List Packet) : Option Mac × Host H × List (Event H) :=
  match arpCacheLookup host.arp ip with
  | some mac => (some mac, host, [])
  | none => arpRetry ip rounds 3 0 host

/-- The frames that the network card is given. -/
def framesOf (host : Host H) (events : List (Event H)) : List (List UInt8) :=
  events.flatMap fun
    | .netSendEthernet destMac ethertype payload =>
      (netSendEthernet host destMac ethertype payload).1.filterMap fun
        | .e1000SendPacket data => some data
        | _ => none
    | _ => []

/-- The frame lies in memory, and what follows it is padding. -/
def Packet.Carries (p : Packet) (frame : List UInt8) : Prop :=
  p.m.slice p.data frame.length = frame ∧ frame.length ≤ p.length.toNat

end Code

variable {ι H : Type}

/-! ## Frames -/

section Frames

variable {host : Host H} {m : Mem} {data : Nat} {length : UInt16}

/-- The frame of an ARP packet with the addresses of a host as those of the sender. -/
def arpFrame (config : NetConfig) (operation : UInt16) (destMac targetMac : List UInt8) (targetIp : UInt32) : List UInt8 :=
  ethFrame destMac config.mac ethTypeArp (arpPacket operation config.mac.toList config.ip targetMac targetIp)

theorem length_arpPacket {operation : UInt16} {mac : Mac} {senderIp targetIp : UInt32} {targetMac : List UInt8} :
    (arpPacket operation mac.toList senderIp targetMac targetIp).length = 22 + targetMac.length := by
  simp only [arpPacket, List.length_append, length_bytes16, length_bytes32, Vector.length_toList, List.length_cons,
    List.length_nil]
  omega

theorem loadVec_of_slice {mac : Mac} (h : m.slice data 6 = mac.toList) : m.loadVec data 6 = mac := by
  apply Vector.toList_inj.mp
  rw [← h]
  rfl

/-- The fields of a frame, as the receiver reads them. -/
structure ArpFields (m : Mem) (data : Nat) (operation : UInt16) (mac : Mac) (ip targetIp : UInt32) : Prop where
  ethertype : netHtons (m.load16 (data + 12)) = ethTypeArp
  operation : netHtons (m.load16 (data + 14 + 6)) = operation
  senderMac : m.slice (data + 14 + 8) 6 = mac.toList
  senderIp : m.load32 (data + 14 + 14) = ip
  targetIp : m.load32 (data + 14 + 24) = targetIp

theorem arpFrame_fields {config : NetConfig} {operation : UInt16} {destMac targetMac : List UInt8} {targetIp : UInt32}
    (hd : destMac.length = 6) (ht : targetMac.length = 6)
    (h : m.slice data (arpFrame config operation destMac targetMac targetIp).length =
      arpFrame config operation destMac targetMac targetIp) :
    ArpFields m data operation config.mac config.ip targetIp := by
  simp only [arpFrame, ethFrame, arpPacket, Mem.slice_eq_append, length_bytes16, length_bytes32, hd, ht,
    Vector.length_toList, List.length_cons, List.length_nil, Nat.add_assoc, Nat.reduceAdd] at h
  obtain ⟨-, -, htype, -, -, -, hop, hmac, hip, -, htarget⟩ := h
  exact ⟨by rw [Mem.load16_of_slice htype, netHtons_netHtons], by rw [Mem.load16_of_slice hop, netHtons_netHtons], hmac,
    Mem.load32_of_slice hip, Mem.load32_of_slice htarget⟩

theorem framesOf_append {es es' : List (Event H)} : framesOf host (es ++ es') = framesOf host es ++ framesOf host es' :=
  List.flatMap_append

/-- What `net_send_ethernet` is called with for an ARP packet becomes its frame. -/
theorem framesOf_arp {operation : UInt16} {destMac targetMac : List UInt8} {targetIp : UInt32} (hd : destMac.length = 6)
    (ht : targetMac.length = 6) : framesOf host [.netSendEthernet destMac ethTypeArp
      (arpPacket operation host.config.mac.toList host.config.ip targetMac targetIp)] =
        [arpFrame host.config operation destMac targetMac targetIp] := by
  simp only [framesOf, List.flatMap_cons, List.flatMap_nil, List.append_nil]
  rw [netSendEthernet_eq hd (by rw [length_arpPacket, ht]; omega)]
  rfl

theorem framesOf_request {config : NetConfig} (hc : host.config = config) (targetIp : UInt32) :
    framesOf host (arpSendRequest config targetIp) =
      [arpFrame config arpRequest broadcastMac (List.replicate 6 0) targetIp] := by
  subst hc
  exact framesOf_arp rfl rfl

/-- The other protocols do not call `net_send_ethernet` themselves. -/
theorem framesOf_icmpReceive {icmp : Icmp} {srcIp : UInt32} :
    framesOf host (icmpReceive icmp m srcIp data length).2 = [] := by
  unfold icmpReceive
  split
  · rfl
  · split
    · rfl
    · split <;> rfl

theorem framesOf_udpReceive {srcIp : UInt32} : framesOf host (udpReceive host.udpHandlers m srcIp data length) = [] := by
  unfold udpReceive
  split
  · rfl
  · dsimp only
    split
    · rfl
    · split <;> rfl

theorem framesOf_tcpHandle {sock : TcpSocket} : framesOf host (tcpHandle sock m data length).2 = [] := by
  unfold tcpHandle
  dsimp only
  split
  · split <;> rfl
  · split
    · rfl
    · split
      · split <;> rfl
      · rfl
  · split <;> rfl
  · rfl

theorem framesOf_tcpReceive {sockets : Fin 16 → TcpSocket} {srcIp : UInt32} :
    framesOf host (tcpReceive sockets m srcIp data length).2 = [] := by
  unfold tcpReceive
  split
  · rfl
  · split
    · rfl
    · exact framesOf_tcpHandle

/-- An IPv4 packet leaves the address and the cache, and no frame is sent before the handlers return. -/
theorem netReceiveIpv4_arp : (netReceiveIpv4 host m data).1.config = host.config ∧
    (netReceiveIpv4 host m data).1.arp = host.arp ∧ framesOf host (netReceiveIpv4 host m data).2 = [] := by
  unfold netReceiveIpv4
  dsimp only
  split
  · exact ⟨rfl, rfl, rfl⟩
  · split
    · exact ⟨rfl, rfl, by rw [framesOf_append, framesOf_icmpReceive]; rfl⟩
    · split
      · exact ⟨rfl, rfl, by rw [framesOf_append, framesOf_udpReceive]; rfl⟩
      · split
        · exact ⟨rfl, rfl, by rw [framesOf_append, framesOf_tcpReceive]; rfl⟩
        · exact ⟨rfl, rfl, rfl⟩

/-- **Receiving**, as far as ARP goes: the sender of an ARP packet is entered, and a request for the own address is
answered. -/
theorem netReceivePacket_arp :
    (netReceivePacket host m data length).1.config = host.config ∧
    (((netReceivePacket host m data length).1.arp = host.arp ∧ framesOf host (netReceivePacket host m data length).2 = []) ∨
      (netHtons (m.load16 (data + 12)) = ethTypeArp ∧
        (netReceivePacket host m data length).1.arp =
          arpCacheAdd host.arp (m.load32 (data + 14 + 14)) (m.loadVec (data + 14 + 8) 6) ∧
        framesOf host (netReceivePacket host m data length).2 =
          if netHtons (m.load16 (data + 14 + 6)) = arpRequest ∧ m.load32 (data + 14 + 24) = host.config.ip then
            [arpFrame host.config arpReply (m.slice (data + 14 + 8) 6) (m.slice (data + 14 + 8) 6)
              (m.load32 (data + 14 + 14))]
          else [])) := by
  unfold netReceivePacket
  split
  · exact ⟨rfl, .inl ⟨rfl, rfl⟩⟩
  · dsimp only
    split
    · rename_i htype
      unfold arpReceive
      split
      · exact ⟨rfl, .inl ⟨rfl, rfl⟩⟩
      · dsimp only
        split
        · refine ⟨rfl, .inr ⟨htype, rfl, ?_⟩⟩
          rw [framesOf_append, List.append_assoc, List.append_assoc, List.append_assoc, List.append_assoc, List.append_assoc,
            List.append_assoc]
          exact framesOf_arp Mem.length_slice Mem.length_slice
        · exact ⟨rfl, .inr ⟨htype, rfl, rfl⟩⟩
    · split
      · split
        · exact ⟨rfl, .inl ⟨rfl, rfl⟩⟩
        · obtain ⟨hconfig, harp⟩ := @netReceiveIpv4_arp H host m (data + 14)
          exact ⟨hconfig, .inl harp⟩
      · exact ⟨rfl, .inl ⟨rfl, rfl⟩⟩

/-- The frames depend on the address of the host only. -/
theorem framesOf_congr {host' : Host H} (h : host'.config = host.config) (events : List (Event H)) :
    framesOf host' events = framesOf host events := by
  unfold framesOf netSendEthernet
  rw [h]
  rfl

/-- A frame with the fields is not too short to be looked at. -/
theorem netReceivePacket_fields {operation : UInt16} {mac : Mac} {ip targetIp : UInt32} (hlen : 42 ≤ length.toNat)
    (h : ArpFields m data operation mac ip targetIp) :
    (netReceivePacket host m data length).1.arp = arpCacheAdd host.arp ip mac ∧
      framesOf host (netReceivePacket host m data length).2 =
        if operation = arpRequest ∧ targetIp = host.config.ip then
          [arpFrame host.config arpReply mac.toList mac.toList ip]
        else [] := by
  have h14 : ¬ length < 14 := by
    rw [UInt16.lt_iff_toNat_lt]
    simp only [UInt16.reduceToNat]
    omega
  have h28 : ¬ length - 14 < 28 := by
    rw [UInt16.lt_iff_toNat_lt, UInt16.toNat_sub_of_le _ _ (UInt16.not_lt.mp h14)]
    simp only [UInt16.reduceToNat]
    omega
  unfold netReceivePacket arpReceive
  simp only [h14, if_false, h.ethertype, if_true, h28, h.operation, h.targetIp, h.senderIp, loadVec_of_slice h.senderMac,
    h.senderMac]
  split
  · refine ⟨rfl, ?_⟩
    simp only [framesOf_append, List.append_assoc]
    exact framesOf_arp mac.length_toList mac.length_toList
  · exact ⟨rfl, rfl⟩

end Frames

/-! ## Truth -/

section Truth

variable {config : ι → NetConfig} {arp : Arp} {ip : UInt32} {mac : Mac}

/-- The addresses belong together. -/
def Owned (config : ι → NetConfig) (ip : UInt32) (mac : Mac) : Prop := ∃ j, (config j).ip = ip ∧ (config j).mac = mac

/-- The sender of the frame, if it is an ARP frame, is a host. -/
def Truthful (config : ι → NetConfig) (frame : List UInt8) : Prop :=
  ∀ (m : Mem) (data : Nat), m.slice data frame.length = frame → netHtons (m.load16 (data + 12)) = ethTypeArp →
    Owned config (m.load32 (data + 14 + 14)) (m.loadVec (data + 14 + 8) 6)

structure CacheTrue (config : ι → NetConfig) (arp : Arp) : Prop where
  owned : ∀ i, (arp.cache i).valid = true → Owned config (arp.cache i).ip (arp.cache i).mac
  distinct : ∀ i j, (arp.cache i).valid = true → (arp.cache j).valid = true → (arp.cache i).ip = (arp.cache j).ip → i = j

/-- `arp_cache_add` takes the entry of the address, or one of another address when there is none, or it does nothing. -/
theorem arpCacheAdd_cases (arp : Arp) (ip : UInt32) (mac : Mac) : arpCacheAdd arp ip mac = arp ∨
    ∃ idx, arpCacheAdd arp ip mac = arpPut arp idx ip mac ∧
      ∀ i, (arp.cache i).valid = true → (arp.cache i).ip = ip → arpFind arp.cache ip = some idx := by
  cases hfind : arpFind arp.cache ip with
  | some idx => exact .inr ⟨idx, arpCacheAdd_found hfind, fun _ _ _ => rfl⟩
  | none =>
    cases hslot : arpCacheSlot arp.cache (List.finRange 32) 0xFFFFFFFF none with
    | some idx => exact .inr ⟨idx, arpCacheAdd_new hfind hslot, fun i hi hip => absurd hip (arpFind_none hfind hi)⟩
    | none =>
      refine .inl ?_
      unfold arpFind at hfind
      rw [arpCacheAdd, hfind]
      dsimp only
      rw [hslot]

theorem CacheTrue.put (h : CacheTrue config arp) (ho : Owned config ip mac) {idx : Fin 32}
    (hidx : ∀ i, (arp.cache i).valid = true → (arp.cache i).ip = ip → i = idx) : CacheTrue config (arpPut arp idx ip mac) := by
  refine ⟨fun i hi => ?_, fun i j hi hj hij => ?_⟩
  · by_cases hii : i = idx
    · rw [hii, arpPut_self]
      exact ho
    · rw [arpPut_of_ne hii] at hi ⊢
      exact h.owned i hi
  · by_cases hii : i = idx
    · by_cases hjj : j = idx
      · rw [hii, hjj]
      · rw [hii, arpPut_self, arpPut_of_ne hjj] at hij
        rw [arpPut_of_ne hjj] at hj
        rw [hii, hidx j hj hij.symm]
    · rw [arpPut_of_ne hii] at hi hij
      by_cases hjj : j = idx
      · rw [hjj, arpPut_self] at hij
        rw [hjj, hidx i hi hij]
      · rw [arpPut_of_ne hjj] at hj hij
        exact h.distinct i j hi hj hij

/-- **Adding** a right address keeps the cache right. -/
theorem CacheTrue.add (h : CacheTrue config arp) (ho : Owned config ip mac) : CacheTrue config (arpCacheAdd arp ip mac) := by
  rcases arpCacheAdd_cases arp ip mac with he | ⟨idx, he, hidx⟩
  · rw [he]
    exact h
  · rw [he]
    refine h.put ho fun i hi hip => ?_
    obtain ⟨hvalid, hfound⟩ := arpFind_some (hidx i hi hip)
    exact h.distinct i idx hi hvalid (hip.trans hfound.symm)

theorem CacheTrue.lookup (h : CacheTrue config arp) : arpCacheLookup arp ip = some mac ↔
    ∃ i, (arp.cache i).valid = true ∧ (arp.cache i).ip = ip ∧ (arp.cache i).mac = mac := by
  unfold arpCacheLookup
  cases hfind : arpFind arp.cache ip with
  | none =>
    refine iff_of_false (by simp) ?_
    rintro ⟨i, hi, hip, -⟩
    exact arpFind_none hfind hi hip
  | some k =>
    obtain ⟨hvalid, hfound⟩ := arpFind_some hfind
    constructor
    · intro hmac
      exact ⟨k, hvalid, hfound, Option.some.inj hmac⟩
    · rintro ⟨i, hi, hip, rfl⟩
      rw [h.distinct k i hvalid hi (hfound.trans hip.symm)]
      rfl

theorem CacheTrue.lookup_owned (h : CacheTrue config arp) (hl : arpCacheLookup arp ip = some mac) : Owned config ip mac := by
  obtain ⟨i, hi, rfl, rfl⟩ := h.lookup.mp hl
  exact h.owned i hi

theorem truthful_arpFrame {j : ι} {operation : UInt16} {destMac targetMac : List UInt8} {targetIp : UInt32}
    (hd : destMac.length = 6) (ht : targetMac.length = 6) :
    Truthful config (arpFrame (config j) operation destMac targetMac targetIp) := by
  intro m data hm _
  have hf := arpFrame_fields hd ht hm
  exact ⟨j, hf.senderIp.symm, (loadVec_of_slice hf.senderMac).symm⟩

theorem truthful_other {destMac payload : List UInt8} {srcMac : Mac} {ethertype : UInt16} (hd : destMac.length = 6)
    (htype : ethertype ≠ ethTypeArp) : Truthful config (ethFrame destMac srcMac ethertype payload) := by
  intro m data hm hread
  simp only [ethFrame, Mem.slice_eq_append, length_bytes16, hd, Vector.length_toList, Nat.add_assoc, Nat.reduceAdd] at hm
  rw [Mem.load16_of_slice hm.2.2.1, netHtons_netHtons] at hread
  exact absurd hread htype

end Truth

/-! ## The network -/

/-- The hosts, and the frames that have been sent. -/
structure Lan (ι H : Type) where
  hosts : ι → Host H
  wire : List (List UInt8)

def Lan.send (l : Lan ι H) (i : ι) (events : List (Event H)) : Lan ι H :=
  { l with wire := l.wire ++ framesOf (l.hosts i) events }

section Steps

variable [DecidableEq ι]

def Lan.receive (l : Lan ι H) (i : ι) (p : Packet) : Lan ι H :=
  { l with hosts := Function.update l.hosts i (p.receive (l.hosts i)).1 }.send i (p.receive (l.hosts i)).2

/-- A host asks, a host receives a frame from the wire, or somebody sends a frame that is not ARP. -/
inductive LanStep : Lan ι H → Lan ι H → Prop
  | request (l : Lan ι H) (i : ι) (targetIp : UInt32) :
      LanStep l (l.send i (arpSendRequest (l.hosts i).config targetIp))
  | receive (l : Lan ι H) (i : ι) (p : Packet) (frame : List UInt8) (hwire : frame ∈ l.wire) (hp : p.Carries frame) :
      LanStep l (l.receive i p)
  | other (l : Lan ι H) (destMac : List UInt8) (srcMac : Mac) (ethertype : UInt16) (payload : List UInt8)
      (hmac : destMac.length = 6) (htype : ethertype ≠ ethTypeArp) :
      LanStep l { l with wire := l.wire ++ [ethFrame destMac srcMac ethertype payload] }

theorem Lan.receive_self (l : Lan ι H) (i : ι) (p : Packet) : (l.receive i p).hosts i = (p.receive (l.hosts i)).1 :=
  Function.update_self ..

theorem Lan.receive_of_ne (l : Lan ι H) {i j : ι} (p : Packet) (h : j ≠ i) : (l.receive i p).hosts j = l.hosts j :=
  Function.update_of_ne h ..

theorem Lan.receive_wire (l : Lan ι H) (i : ι) (p : Packet) :
    (l.receive i p).wire = l.wire ++ framesOf (l.hosts i) (p.receive (l.hosts i)).2 := by
  have hconfig : ((l.receive i p).hosts i).config = (l.hosts i).config := by
    rw [l.receive_self]
    exact netReceivePacket_arp.1
  rw [← framesOf_congr hconfig]
  rfl

/-- The network before the first request: nothing is cached. -/
def Lan.start (config : ι → NetConfig) : Lan ι H :=
  ⟨fun i => { bootHost with config := config i }, []⟩

abbrev LanRun : Lan ι H → Lan ι H → Prop := Relation.ReflTransGen LanStep


end Steps

/-! ## Safety -/

section Receiving

variable {config : ι → NetConfig} {host : Host H} {p : Packet} {ps : List Packet} {ip : UInt32} {mac : Mac}

/-- The packet carries a frame with a right sender, or one that is not ARP. -/
def Honest (config : ι → NetConfig) (p : Packet) : Prop := ∃ frame, p.Carries frame ∧ Truthful config frame

theorem Packet.receive_config : (p.receive host).1.config = host.config := netReceivePacket_arp.1

/-- What a received packet does to the cache: nothing, or it adds a right address. -/
theorem Packet.receive_cases (hp : Honest config p) : (p.receive host).1.arp = host.arp ∨
    ∃ ip mac, Owned config ip mac ∧ (p.receive host).1.arp = arpCacheAdd host.arp ip mac := by
  obtain ⟨frame, hcarries, htrue⟩ := hp
  rcases netReceivePacket_arp.2 with ⟨harp, -⟩ | ⟨htype, harp, -⟩
  · exact .inl harp
  · exact .inr ⟨_, _, htrue _ _ hcarries.1 htype, harp⟩

/-- What a host sends in turn is right, too. -/
theorem Packet.receive_frames {j : ι} (hj : host.config = config j) : ∀ frame ∈ framesOf host (p.receive host).2,
    Truthful config frame := by
  intro frame hf
  rcases (@netReceivePacket_arp H host p.m p.data p.length).2 with
    ⟨-, hnone⟩ | ⟨-, -, hsome⟩
  · rw [Packet.receive, hnone] at hf
    cases hf
  · rw [Packet.receive, hsome] at hf
    split at hf
    · rw [List.mem_singleton.mp hf, hj]
      exact truthful_arpFrame Mem.length_slice Mem.length_slice
    · cases hf

theorem CacheTrue.receive (h : CacheTrue config host.arp) (hp : Honest config p) :
    CacheTrue config (p.receive host).1.arp := by
  rcases Packet.receive_cases hp with harp | ⟨ip, mac, ho, harp⟩
  · rw [harp]
    exact h
  · rw [harp]
    exact h.add ho

theorem CacheTrue.receiveAll (h : CacheTrue config host.arp) (hps : ∀ p ∈ ps, Honest config p) :
    CacheTrue config (receiveAll host ps).1.arp := by
  induction ps generalizing host with
  | nil => exact h
  | cons p ps ih =>
    exact ih (h.receive (hps p List.mem_cons_self)) fun q hq => hps q (List.mem_cons_of_mem _ hq)

variable {rounds : Nat → List Packet}

/-- Each round of the loop may end it with what it finds in a right cache. -/
theorem arpWait_true (hr : ∀ k, ∀ p ∈ rounds k, Honest config p) {n k : Nat} (h : CacheTrue config host.arp) :
    CacheTrue config (arpWait ip rounds n k host).2.1.arp ∧
      ∀ mac, (arpWait ip rounds n k host).1 = some mac → Owned config ip mac := by
  induction n generalizing k host with
  | zero => exact ⟨h, fun mac hmac => nomatch hmac⟩
  | succ n ih =>
    have hnext := h.receiveAll (hr k)
    unfold arpWait
    dsimp only
    cases hl : arpCacheLookup (receiveAll host (rounds k)).1.arp ip with
    | some found =>
      refine ⟨hnext, fun mac hmac => ?_⟩
      obtain rfl : found = mac := Option.some.inj hmac
      exact hnext.lookup_owned hl
    | none => exact ih hnext

theorem arpRetry_true (hr : ∀ k, ∀ p ∈ rounds k, Honest config p) {n k : Nat} (h : CacheTrue config host.arp)
    (hmac : (arpRetry ip rounds n k host).1 = some mac) : Owned config ip mac := by
  induction n generalizing k host with
  | zero => cases hmac
  | succ n ih =>
    have hwait : CacheTrue config (arpWait ip rounds 500 k host).2.1.arp ∧
        ∀ mac, (arpWait ip rounds 500 k host).1 = some mac → Owned config ip mac := arpWait_true hr h
    obtain ⟨hnext, hfound⟩ := hwait
    unfold arpRetry at hmac
    dsimp only at hmac
    split at hmac
    · rename_i found host' events he
      rw [he] at hfound
      exact hfound mac hmac
    · rename_i host' events he
      rw [he] at hnext
      exact ih hnext hmac

/-- `arp_resolve` answers with a right address. -/
theorem arpResolve_true (hr : ∀ k, ∀ p ∈ rounds k, Honest config p) (h : CacheTrue config host.arp)
    (hmac : (arpResolve host ip rounds).1 = some mac) : Owned config ip mac := by
  unfold arpResolve at hmac
  split at hmac
  · rename_i found hl
    obtain rfl : found = mac := Option.some.inj hmac
    exact h.lookup_owned hl
  · exact arpRetry_true hr h hmac

end Receiving

/-- The hosts keep their addresses, and what is cached or on the wire is right. -/
structure LanInv (config : ι → NetConfig) (l : Lan ι H) : Prop where
  addresses : ∀ i, (l.hosts i).config = config i
  cache : ∀ i, CacheTrue config (l.hosts i).arp
  wire : ∀ frame ∈ l.wire, Truthful config frame

/-- Two hosts, the first of which has asked for the second. -/
def pairConfig (i : Fin 2) : NetConfig := ⟨Vector.replicate 6 (UInt8.ofNat (2 + i)), UInt32.ofNat (1 + i), 0x00FFFFFF, 0, true⟩

def pairLan : Lan (Fin 2) Unit := (Lan.start pairConfig).send 0 (arpSendRequest (pairConfig 0) (pairConfig 1).ip)

theorem pairLan_run : LanRun (Lan.start pairConfig) pairLan := .single (.request (Lan.start pairConfig) 0 (pairConfig 1).ip)

def requestFrame : List UInt8 := arpFrame (pairConfig 0) arpRequest broadcastMac (List.replicate 6 0) (pairConfig 1).ip

/-- The second host has received the request. -/
def heardLan : Lan (Fin 2) Unit := pairLan.receive 1 ⟨Mem.ofList requestFrame, 0, 42⟩

theorem heardLan_run : LanRun (Lan.start pairConfig) heardLan := by
  refine pairLan_run.tail (.receive pairLan 1 _ requestFrame ?_ ⟨by decide, by decide⟩)
  show requestFrame ∈ (Lan.start pairConfig).wire ++
    framesOf ((Lan.start pairConfig).hosts 0) (arpSendRequest (pairConfig 0) (pairConfig 1).ip)
  rw [framesOf_request (show ((Lan.start pairConfig : Lan (Fin 2) Unit).hosts 0).config = pairConfig 0 from rfl)]
  exact List.mem_append_right _ (List.mem_singleton_self _)

section Runs

variable {config : ι → NetConfig} {l l' : Lan ι H}

theorem lanInv_start (config : ι → NetConfig) : LanInv config (Lan.start config : Lan ι H) :=
  ⟨fun _ => rfl, fun _ => ⟨fun _ hi => (nomatch hi), fun _ _ hi => (nomatch hi)⟩, fun _ hf => (nomatch hf)⟩

theorem LanInv.honest (h : LanInv config l) {p : Packet} {frame : List UInt8} (hw : frame ∈ l.wire) (hp : p.Carries frame) :
    Honest config p :=
  ⟨frame, hp, h.wire frame hw⟩

/-- New frames on the wire. -/
theorem LanInv.append (h : LanInv config l) {frames : List (List UInt8)} (hf : ∀ frame ∈ frames, Truthful config frame) :
    LanInv config { l with wire := l.wire ++ frames } :=
  ⟨h.addresses, h.cache, fun frame hm => (List.mem_append.mp hm).elim (h.wire frame) (hf frame)⟩

/-- **A step** keeps the invariant. -/
theorem LanInv.step [DecidableEq ι] (h : LanInv config l) (hs : LanStep l l') : LanInv config l' := by
  cases hs with
  | request i targetIp =>
    refine h.append fun frame hf => ?_
    rw [framesOf_request rfl, List.mem_singleton] at hf
    rw [hf, h.addresses]
    exact truthful_arpFrame rfl (List.length_replicate ..)
  | other destMac srcMac ethertype payload hmac htype =>
    refine h.append fun frame hf => ?_
    rw [List.mem_singleton.mp hf]
    exact truthful_other hmac htype
  | receive i p frame hwire hp =>
    have hhonest := h.honest hwire hp
    refine ⟨fun j => ?_, fun j => ?_, ?_⟩
    · by_cases hji : j = i
      · rw [hji, l.receive_self, Packet.receive_config, h.addresses]
      · rw [l.receive_of_ne p hji, h.addresses]
    · by_cases hji : j = i
      · rw [hji, l.receive_self]
        exact (h.cache i).receive hhonest
      · rw [l.receive_of_ne p hji]
        exact h.cache j
    · rw [l.receive_wire]
      exact (h.append (Packet.receive_frames (h.addresses i))).wire

theorem LanInv.run [DecidableEq ι] (h : LanInv config l) (hr : LanRun l l') : LanInv config l' := by
  induction hr with
  | refl => exact h
  | tail _ hs ih => exact ih.step hs

/-- **Nobody is taken for another**: in every reachable state, what a host has cached for an address is the hardware address
of its owner, and so is what `arp_resolve` answers, whatever arrives from the wire while it waits. -/
theorem lan_safe [DecidableEq ι] (config : ι → NetConfig) {l : Lan ι H} (hl : LanRun (Lan.start config) l) (i : ι) :
    (∀ ip mac, arpCacheLookup (l.hosts i).arp ip = some mac → Owned config ip mac) ∧
    ∀ (ip : UInt32) (rounds : Nat → List Packet),
      (∀ k, ∀ p ∈ rounds k, ∃ l' frame, LanRun l l' ∧ frame ∈ l'.wire ∧ p.Carries frame) →
      ∀ mac, (arpResolve (l.hosts i) ip rounds).1 = some mac → Owned config ip mac := by
  have h : LanInv config l := (lanInv_start config).run hl
  refine ⟨fun ip mac hmac => (h.cache i).lookup_owned hmac, fun ip rounds hrounds mac hmac => ?_⟩
  refine arpResolve_true (fun k p hp => ?_) (h.cache i) hmac
  obtain ⟨l', frame, hrun, hwire, hcarries⟩ := hrounds k p hp
  exact (h.run hrun).honest hwire hcarries

theorem lan_safe_pair : arpCacheLookup (heardLan.hosts 1).arp (pairConfig 0).ip = some (pairConfig 0).mac ∧
    (∀ ip mac, arpCacheLookup (heardLan.hosts 1).arp ip = some mac → Owned pairConfig ip mac) ∧
    ∀ (ip : UInt32) (rounds : Nat → List Packet),
      (∀ k, ∀ p ∈ rounds k, ∃ l' frame, LanRun heardLan l' ∧ frame ∈ l'.wire ∧ p.Carries frame) →
      ∀ mac, (arpResolve (heardLan.hosts 1) ip rounds).1 = some mac → Owned pairConfig ip mac :=
  ⟨by decide +kernel, lan_safe pairConfig heardLan_run 1⟩

end Runs

/-! ## At most 32 hosts -/

section Small

variable {config : ι → NetConfig} {arp : Arp} {host : Host H} {p : Packet} {ps : List Packet} {ip ip' : UInt32} {mac mac' : Mac}

/-- A host that is not cached finds a free entry, because the others do not fill the cache. -/
theorem CacheTrue.room [Fintype ι] (hcard : Fintype.card ι ≤ 32) (h : CacheTrue config arp) (ho : Owned config ip mac)
    (hnew : arpFind arp.cache ip = none) : ∃ i, (arp.cache i).valid = false := by
  by_contra hfull
  have hall : ∀ i, (arp.cache i).valid = true := fun i => by
    by_contra hi
    exact hfull ⟨i, by simpa using hi⟩
  choose owner howner using fun i => h.owned i (hall i)
  obtain ⟨j, hj, -⟩ := ho
  have hinj : Function.Injective owner := fun a b hab =>
    h.distinct a b (hall a) (hall b) (by rw [← (howner a).1, hab, (howner b).1])
  have hnot : j ∉ Set.range owner := by
    rintro ⟨i, rfl⟩
    exact arpFind_none hnew (hall i) ((howner i).1.symm.trans hj)
  have hlt := Fintype.card_lt_of_injective_of_notMem owner hinj hnot
  rw [Fintype.card_fin] at hlt
  omega

/-- An addition takes the entry of the address or a free one. -/
theorem CacheTrue.add_eq [Fintype ι] (hcard : Fintype.card ι ≤ 32) (h : CacheTrue config arp) (ho : Owned config ip mac) :
    ∃ idx, arpCacheAdd arp ip mac = arpPut arp idx ip mac ∧ ((arp.cache idx).valid = true → (arp.cache idx).ip = ip) := by
  cases hfind : arpFind arp.cache ip with
  | some idx => exact ⟨idx, arpCacheAdd_found hfind, fun _ => (arpFind_some hfind).2⟩
  | none =>
    obtain ⟨f, hf⟩ := h.room hcard ho hfind
    obtain ⟨idx, hidx, hfree⟩ : ∃ idx, arpCacheSlot arp.cache (List.finRange 32) 0xFFFFFFFF none = some idx ∧
        (arp.cache idx).valid = false := arpCacheSlot_free ⟨f, List.mem_finRange f, hf⟩
    refine ⟨idx, arpCacheAdd_new hfind hidx, fun hvalid => ?_⟩
    rw [hfree] at hvalid
    cases hvalid

/-- What was added is found. -/
theorem CacheTrue.lookup_add [Fintype ι] (hcard : Fintype.card ι ≤ 32) (h : CacheTrue config arp)
    (ho : Owned config ip mac) : arpCacheLookup (arpCacheAdd arp ip mac) ip = some mac := by
  obtain ⟨idx, he, -⟩ := h.add_eq hcard ho
  rw [(h.add ho).lookup]
  refine ⟨idx, ?_⟩
  rw [he, arpPut_self]
  exact ⟨rfl, rfl, rfl⟩

/-- The addresses of different hosts are different. -/
theorem Owned.unique (hinj : Function.Injective fun i => (config i).ip) (h : Owned config ip mac)
    (h' : Owned config ip mac') : mac = mac' := by
  obtain ⟨j, hj, rfl⟩ := h
  obtain ⟨k, hk, rfl⟩ := h'
  rw [hinj (hj.trans hk.symm)]

/-- What was cached still is. -/
theorem CacheTrue.lookup_keep [Fintype ι] (hcard : Fintype.card ι ≤ 32) (hinj : Function.Injective fun i => (config i).ip)
    (h : CacheTrue config arp) (ho : Owned config ip mac) (hl : arpCacheLookup arp ip' = some mac') :
    arpCacheLookup (arpCacheAdd arp ip mac) ip' = some mac' := by
  by_cases hip : ip' = ip
  · subst hip
    rw [h.lookup_add hcard ho, ho.unique hinj (h.lookup_owned hl)]
  · obtain ⟨idx, he, hidx⟩ := h.add_eq hcard ho
    obtain ⟨i, hi, hiip, himac⟩ := h.lookup.mp hl
    have hne : i ≠ idx := by
      rintro rfl
      exact hip (hiip.symm.trans (hidx hi))
    rw [(h.add ho).lookup]
    refine ⟨i, ?_⟩
    rw [he, arpPut_of_ne hne]
    exact ⟨hi, hiip, himac⟩

theorem CacheTrue.receive_keep [Fintype ι] (hcard : Fintype.card ι ≤ 32) (hinj : Function.Injective fun i => (config i).ip)
    (h : CacheTrue config host.arp) (hp : Honest config p) (hl : arpCacheLookup host.arp ip = some mac) :
    arpCacheLookup (p.receive host).1.arp ip = some mac := by
  rcases Packet.receive_cases hp with harp | ⟨ip', mac', ho, harp⟩
  · rw [harp, hl]
  · rw [harp]
    exact h.lookup_keep hcard hinj ho hl

theorem CacheTrue.receiveAll_keep [Fintype ι] (hcard : Fintype.card ι ≤ 32)
    (hinj : Function.Injective fun i => (config i).ip) (h : CacheTrue config host.arp) (hps : ∀ p ∈ ps, Honest config p)
    (hl : arpCacheLookup host.arp ip = some mac) : arpCacheLookup (Network.receiveAll host ps).1.arp ip = some mac := by
  induction ps generalizing host with
  | nil => exact hl
  | cons p ps ih =>
    have hp := hps p List.mem_cons_self
    exact ih (h.receive hp) (fun q hq => hps q (List.mem_cons_of_mem _ hq)) (h.receive_keep hcard hinj hp hl)

/-- The packet carries an ARP frame of host `j`. -/
def FromHost (config : ι → NetConfig) (j : ι) (p : Packet) : Prop :=
  ∃ operation destMac targetMac targetIp, destMac.length = 6 ∧ targetMac.length = 6 ∧
    p.Carries (arpFrame (config j) operation destMac targetMac targetIp)

/-- The receiver enters the sender. -/
theorem FromHost.receive_arp {j : ι} (hj : FromHost config j p) :
    (p.receive host).1.arp = arpCacheAdd host.arp (config j).ip (config j).mac := by
  obtain ⟨operation, destMac, targetMac, targetIp, hd, ht, hslice, hlen⟩ := hj
  rw [arpFrame, length_ethFrame hd, length_arpPacket, ht] at hlen
  exact (netReceivePacket_fields (by omega) (arpFrame_fields hd ht hslice)).1

theorem CacheTrue.receiveAll_find [Fintype ι] (hcard : Fintype.card ι ≤ 32)
    (hinj : Function.Injective fun i => (config i).ip) (h : CacheTrue config host.arp) (hps : ∀ p ∈ ps, Honest config p)
    {j : ι} (hp : p ∈ ps) (hj : FromHost config j p) :
    arpCacheLookup (Network.receiveAll host ps).1.arp (config j).ip = some (config j).mac := by
  induction ps generalizing host with
  | nil => cases hp
  | cons q ps ih =>
    have hq := h.receive (hps q List.mem_cons_self)
    have hrest : ∀ r ∈ ps, Honest config r := fun r hr => hps r (List.mem_cons_of_mem _ hr)
    rcases List.mem_cons.mp hp with rfl | hp
    · have hfound : arpCacheLookup (p.receive host).1.arp (config j).ip = some (config j).mac := by
        rw [hj.receive_arp]
        exact h.lookup_add hcard ⟨j, rfl, rfl⟩
      show arpCacheLookup (Network.receiveAll (p.receive host).1 ps).1.arp (config j).ip = some (config j).mac
      exact hq.receiveAll_keep hcard hinj hrest hfound
    · exact ih hq hrest hp

variable {rounds : Nat → List Packet} {j : ι}

/-- A frame of the owner in one of the rounds ends the loop with success. -/
theorem arpWait_find [Fintype ι] (hcard : Fintype.card ι ≤ 32) (hinj : Function.Injective fun i => (config i).ip)
    (hr : ∀ k, ∀ p ∈ rounds k, Honest config p) {n k r : Nat} (h : CacheTrue config host.arp) (hn : r < n)
    (hp : p ∈ rounds (k + r)) (hj : FromHost config j p) : (arpWait (config j).ip rounds n k host).1.isSome := by
  induction n generalizing k r host with
  | zero => omega
  | succ n ih =>
    have hnext := h.receiveAll (hr k)
    unfold arpWait
    dsimp only
    cases hl : arpCacheLookup (Network.receiveAll host (rounds k)).1.arp (config j).ip with
    | some found => rfl
    | none =>
      cases r with
      | zero =>
        rw [h.receiveAll_find hcard hinj (hr k) hp hj] at hl
        cases hl
      | succ r => exact ih hnext (show r < n by omega) (by rwa [Nat.add_assoc, Nat.add_comm 1 r])

theorem arpRetry_find [Fintype ι] (hcard : Fintype.card ι ≤ 32) (hinj : Function.Injective fun i => (config i).ip)
    (hr : ∀ k, ∀ p ∈ rounds k, Honest config p) {n k r : Nat} (h : CacheTrue config host.arp) (hn : r < 500 * n)
    (hp : p ∈ rounds (k + r)) (hj : FromHost config j p) : (arpRetry (config j).ip rounds n k host).1.isSome := by
  induction n generalizing k r host with
  | zero => omega
  | succ n ih =>
    have hnext : CacheTrue config (arpWait (config j).ip rounds 500 k host).2.1.arp := (arpWait_true hr h).1
    unfold arpRetry
    dsimp only
    split
    · rfl
    · rename_i host' events he
      rw [he] at hnext
      by_cases hr500 : r < 500
      · have hfound := arpWait_find hcard hinj hr h hr500 hp hj
        rw [he] at hfound
        cases hfound
      · exact ih hnext (show r - 500 < 500 * n by omega) (by rwa [show k + 500 + (r - 500) = k + r by omega])

end Small

section SmallRuns

variable [DecidableEq ι] {config : ι → NetConfig} {l l' : Lan ι H}

/-- A step forgets nothing. -/
theorem LanInv.step_keep [Fintype ι] (hcard : Fintype.card ι ≤ 32) (hinj : Function.Injective fun i => (config i).ip)
    (h : LanInv config l) (hs : LanStep l l') {i : ι} {ip : UInt32} {mac : Mac}
    (hl : arpCacheLookup (l.hosts i).arp ip = some mac) : arpCacheLookup (l'.hosts i).arp ip = some mac := by
  cases hs with
  | request j targetIp => exact hl
  | other destMac srcMac ethertype payload hmac htype => exact hl
  | receive j p frame hwire hp =>
    by_cases hij : i = j
    · subst hij
      rw [l.receive_self]
      exact (h.cache i).receive_keep hcard hinj (h.honest hwire hp) hl
    · rwa [l.receive_of_ne p hij]

theorem LanInv.run_keep [Fintype ι] (hcard : Fintype.card ι ≤ 32) (hinj : Function.Injective fun i => (config i).ip)
    (h : LanInv config l) (hr : LanRun l l') {i : ι} {ip : UInt32} {mac : Mac}
    (hl : arpCacheLookup (l.hosts i).arp ip = some mac) : arpCacheLookup (l'.hosts i).arp ip = some mac := by
  induction hr with
  | refl => exact hl
  | tail hrun hs ih => exact (h.run hrun).step_keep hcard hinj hs ih

/-- The owner of an address enters who asks for it, and answers. -/
theorem LanInv.answer [Fintype ι] (hcard : Fintype.card ι ≤ 32) (h : LanInv config l) {i j : ι} {p : Packet}
    (hp : p.Carries (arpFrame (config i) arpRequest broadcastMac (List.replicate 6 0) (config j).ip)) :
    arpCacheLookup ((l.receive j p).hosts j).arp (config i).ip = some (config i).mac ∧
      arpFrame (config j) arpReply (config i).mac.toList (config i).mac.toList (config i).ip ∈ (l.receive j p).wire := by
  have hfields := arpFrame_fields rfl (List.length_replicate ..) hp.1
  have hlen := hp.2
  rw [arpFrame, length_ethFrame rfl, length_arpPacket, List.length_replicate] at hlen
  obtain ⟨harp, hframes⟩ := @netReceivePacket_fields H (l.hosts j) p.m p.data p.length _ _ _ _ (by omega) hfields
  constructor
  · rw [l.receive_self, Packet.receive, harp]
    exact (h.cache j).lookup_add hcard ⟨i, rfl, rfl⟩
  · rw [l.receive_wire, Packet.receive, hframes, h.addresses, if_pos ⟨rfl, rfl⟩]
    exact List.mem_append_right _ (List.mem_singleton_self _)

/-- **Resolving works** among at most 32 hosts with different addresses, from every reachable state: the owner of an
address answers the request that reaches it; a host that receives an ARP frame of the owner in one of the 1500 rounds of
`arp_resolve` gets its hardware address, whatever else arrives; and no host ever forgets an address. -/
theorem lan_resolves [Fintype ι] (hcard : Fintype.card ι ≤ 32) (hinj : Function.Injective fun i => (config i).ip)
    {l : Lan ι H} (hl : LanRun (Lan.start config) l) (i j : ι) :
    (∀ p : Packet, p.Carries (arpFrame (config i) arpRequest broadcastMac (List.replicate 6 0) (config j).ip) →
      arpCacheLookup ((l.receive j p).hosts j).arp (config i).ip = some (config i).mac ∧
      arpFrame (config j) arpReply (config i).mac.toList (config i).mac.toList (config i).ip ∈ (l.receive j p).wire) ∧
    (∀ rounds : Nat → List Packet,
      (∀ k, ∀ p ∈ rounds k, ∃ l' frame, LanRun l l' ∧ frame ∈ l'.wire ∧ p.Carries frame) →
      ∀ k < 1500, ∀ p ∈ rounds k, FromHost config j p →
        (arpResolve (l.hosts i) (config j).ip rounds).1 = some (config j).mac) ∧
    ∀ l', LanRun l l' → ∀ ip mac, arpCacheLookup (l.hosts i).arp ip = some mac →
      arpCacheLookup (l'.hosts i).arp ip = some mac := by
  have h : LanInv config l := (lanInv_start config).run hl
  refine ⟨fun p hp => h.answer hcard hp, fun rounds hrounds k hk p hp hj => ?_, fun l' hr ip mac hmac =>
    h.run_keep hcard hinj hr hmac⟩
  have hr : ∀ k, ∀ p ∈ rounds k, Honest config p := fun k p hp => by
    obtain ⟨l', frame, hrun, hwire, hcarries⟩ := hrounds k p hp
    exact (h.run hrun).honest hwire hcarries
  have hsome : (arpResolve (l.hosts i) (config j).ip rounds).1.isSome := by
    unfold arpResolve
    split
    · rfl
    · exact arpRetry_find hcard hinj hr (h.cache i) (show k < 500 * 3 by omega) (by rwa [Nat.zero_add]) hj
  obtain ⟨mac, hmac⟩ := Option.isSome_iff_exists.mp hsome
  rw [hmac, (arpResolve_true hr (h.cache i) hmac).unique hinj ⟨j, rfl, rfl⟩]

theorem lan_resolves_pair :
    (∀ p : Packet, p.Carries (arpFrame (pairConfig 0) arpRequest broadcastMac (List.replicate 6 0) (pairConfig 1).ip) →
      arpCacheLookup ((pairLan.receive 1 p).hosts 1).arp (pairConfig 0).ip = some (pairConfig 0).mac ∧
      arpFrame (pairConfig 1) arpReply (pairConfig 0).mac.toList (pairConfig 0).mac.toList (pairConfig 0).ip ∈
        (pairLan.receive 1 p).wire) ∧
    (∀ rounds : Nat → List Packet,
      (∀ k, ∀ p ∈ rounds k, ∃ l' frame, LanRun pairLan l' ∧ frame ∈ l'.wire ∧ p.Carries frame) →
      ∀ k < 1500, ∀ p ∈ rounds k, FromHost pairConfig 1 p →
        (arpResolve (pairLan.hosts 0) (pairConfig 1).ip rounds).1 = some (pairConfig 1).mac) ∧
    ∀ l', LanRun pairLan l' → ∀ ip mac, arpCacheLookup (pairLan.hosts 0).arp ip = some mac →
      arpCacheLookup (l'.hosts 0).arp ip = some mac :=
  lan_resolves (by decide) (by decide) pairLan_run 0 1

end SmallRuns

end AmqOs.Network
