import AmqOs.Lib.FirstSeen
import AmqOs.Network.Addresses
import AmqOs.Network.ArpLan

/-!
# The ping command

`cmd_ping` and `cmd_ping_fast` send four echo requests and wait for the reply to each. The network card is polled on the
way, and any packets may arrive at any poll: replies that are late, early, repeated or for nobody. `icmp_receive` notes the
first 16 different replies, so a reply is missed that arrives before the wait for it and after 16 others; one that arrives
during the wait is not (`pingCommand_lines`).
-/

set_option autoImplicit false

namespace AmqOs.Network

open AmqOs.Lib CString

variable {H : Type}

/-! ## The code -/

/-- What each poll of the network card passes on, and what `arp_resolve` answers after how many polls, if it is called at
a poll. -/
structure PingEnv where
  arrive : Nat → List Packet
  resolve : Nat → Option Mac × Nat

/-- The host after the `n` polls from `t` on. -/
def pollsFrom (env : PingEnv) : Nat → Nat → Host H → Host H
  | 0, _, host => host
  | n + 1, t, host => pollsFrom env n (t + 1) (receiveAll host (env.arrive t)).1

/-- An ICMP echo message. -/
def icmpPacket (type : UInt8) (id seq : UInt16) (data : List UInt8) : List UInt8 :=
  let rest := bytes16 (netHtons id) ++ (bytes16 (netHtons seq) ++ data)
  [type, 0] ++ (bytes16 (netChecksum ([type, 0, 0, 0] ++ rest)) ++ rest)

/-- The data of an echo request. -/
def pingData : List UInt8 := (List.range 56).map fun i => 0x41 + UInt8.ofNat (i % 26)

/-- `icmp_send_ping`. -/
def icmpSendPing (host : Host H) (arpResolve : UInt32 → Option Mac) (destIp : UInt32) (id seq : UInt16) :
    Host H × List (Event H) × Int :=
  netSendIpv4 host arpResolve destIp ipProtoIcmp (icmpPacket icmpTypeEchoRequest id seq pingData)

/-- The two loops of `icmp_wait_reply`, for the next `n` polls from `t` on. -/
def waitPolls (env : PingEnv) (id seq : UInt16) : Nat → Nat → Host H → Bool × Host H × Nat
  | 0, t, host => (checkReplyInArray host.icmp id seq, host, t)
  | n + 1, t, host =>
    let host := (receiveAll host (env.arrive t)).1
    if host.icmp.replyReceived || checkReplyInArray host.icmp id seq then (true, host, t + 1)
    else waitPolls env id seq n (t + 1) host

/-- `icmp_wait_reply`, from poll `t` on. -/
def icmpWaitReply (env : PingEnv) (id seq : UInt16) (timeoutMs t : Nat) (host : Host H) : Bool × Host H × Nat :=
  if checkReplyInArray host.icmp id seq then (true, host, t)
  else
    let icmp := { host.icmp with expectedId := id, expectedSeq := seq, waitingForReply := true, replyReceived := false }
    let (found, host, t) := waitPolls env id seq (timeoutMs * 10 * 100) t { host with icmp }
    (found, { host with icmp := { host.icmp with waitingForReply := false } }, t)

inductive PingResult
  | failed | timeout | reply
  deriving DecidableEq

/-- What is printed for a ping, and the poll at which it was sent. -/
structure PingLine where
  seq : UInt16
  time : Nat
  result : PingResult

/-- One turn of the loop of `cmd_ping`, up to the line for it. -/
def pingOnce (env : PingEnv) (timeoutMs : Nat) (destIp : UInt32) (id seq : UInt16) (t : Nat) (host : Host H) :
    PingLine × Host H × Nat :=
  let polls := (env.resolve t).2
  let sent := icmpSendPing (pollsFrom env polls t host) (fun _ => (env.resolve t).1) destIp id seq
  if sent.2.2 = 0 then
    let waited := icmpWaitReply env id seq timeoutMs (t + polls) sent.1
    (⟨seq, t, if waited.1 then .reply else .timeout⟩, waited.2)
  else (⟨seq, t, .failed⟩, sent.1, t + polls)

/-- The loop for the next `n` pings from the `i`-th on. -/
def pingLoop (env : PingEnv) (timeoutMs : Nat) (delay : Nat → Nat) (destIp : UInt32) (id : UInt16) :
    Nat → Nat → UInt16 → Nat → Host H → List PingLine × Host H × UInt16
  | 0, _, seq, _, host => ([], host, seq)
  | n + 1, i, seq, t, host =>
    let (line, host, t) := pingOnce env timeoutMs destIp id seq t host
    let (lines, host, seq) :=
      pingLoop env timeoutMs delay destIp id n (i + 1) (seq + 1) (t + delay i) (pollsFrom env (delay i) t host)
    (line :: lines, host, seq)

/-- The common part of the two commands: the lines, unless the address is no address, and `ping_id` and `ping_seq`. -/
def pingCommand (env : PingEnv) (timeoutMs : Nat) (delay : Nat → Nat) (target : CString) (pingId pingSeq : UInt16)
    (host : Host H) : Option (List PingLine) × Host H × UInt16 × UInt16 :=
  let destIp := netParseIp target
  if destIp = 0 then (none, host, pingId, pingSeq)
  else
    let host := { host with icmp := { host.icmp with replies := [] } }
    let (lines, host, seq) := pingLoop env timeoutMs delay destIp pingId 4 0 pingSeq 0 host
    (some lines, host, pingId + 1, seq)

/-- `cmd_ping`. -/
def cmdPing (env : PingEnv) (target : CString) (pingId pingSeq : UInt16) (host : Host H) :
    Option (List PingLine) × Host H × UInt16 × UInt16 :=
  pingCommand env 1000 (fun i => if i < 3 then 1000 * 10 else 0) target pingId pingSeq host

/-- `cmd_ping_fast`. -/
def cmdPingFast (env : PingEnv) (target : CString) (pingId pingSeq : UInt16) (host : Host H) :
    Option (List PingLine) × Host H × UInt16 × UInt16 :=
  pingCommand env 2000 (fun _ => 100 * 10) target pingId pingSeq host

/-! ## What arrives -/

/-- The number of an echo reply that a host with this address accepts. -/
def echoKey (config : NetConfig) (p : Packet) : Option (UInt16 × UInt16) :=
  let ip := p.data + 14
  let ipHeaderLen : UInt16 := (p.m ip &&& 0x0F).toUInt16 * 4
  let payload := ip + ipHeaderLen.toNat
  if 34 ≤ p.length ∧ netHtons (p.m.load16 (p.data + 12)) = ethTypeIpv4 ∧ notForUs config p.m ip = false ∧
      p.m (ip + 9) = ipProtoIcmp ∧ ¬ netHtons (p.m.load16 (ip + 2)) - ipHeaderLen < 8 ∧
      p.m payload = icmpTypeEchoReply then
    some (netHtons (p.m.load16 (payload + 4)), netHtons (p.m.load16 (payload + 6)))
  else none

/-- The replies that arrive in the polls from `s` to before `t`. -/
def echoesHeard (config : NetConfig) (env : PingEnv) (s t : Nat) : List (UInt16 × UInt16) :=
  (List.range' s (t - s)).flatMap fun u => (env.arrive u).filterMap (echoKey config)

/-- The numbers of the noted replies. -/
def Icmp.keys (icmp : Icmp) : List (UInt16 × UInt16) := icmp.replies.map fun r => (r.id, r.sequence)

section Receiving

variable {host : Host H} {icmp : Icmp} {p : Packet} {ps : List Packet} {id seq : UInt16}

theorem checkReplyInArray_iff : checkReplyInArray icmp id seq = true ↔ (id, seq) ∈ icmp.keys := by
  simp only [checkReplyInArray, Icmp.keys, List.any_eq_true, Bool.and_eq_true, beq_iff_eq, List.mem_map, Prod.mk.injEq]

theorem keys_enterReply {srcIp : UInt32} : (enterReply icmp srcIp id seq).keys = enter 16 icmp.keys (id, seq) := by
  unfold enterReply enter
  by_cases hc : (id, seq) ∈ icmp.keys
  · rw [if_pos (checkReplyInArray_iff.mpr hc), if_pos hc]
  · rw [if_neg (mt checkReplyInArray_iff.mp hc), if_neg hc]
    simp only [Icmp.keys, List.length_map]
    split <;> simp

/-- The address and the card stay. -/
structure SameHost (host host' : Host H) : Prop where
  config : host'.config = host.config
  card : host'.card = host.card

theorem SameHost.refl (host : Host H) : SameHost host host := ⟨rfl, rfl⟩

theorem SameHost.trans {host₁ host₂ host₃ : Host H} (h : SameHost host₁ host₂) (h' : SameHost host₂ host₃) :
    SameHost host₁ host₃ :=
  ⟨h'.config.trans h.config, h'.card.trans h.card⟩

theorem netReceiveIpv4_icmp (p : Packet) (h34 : ¬ p.length < 34)
    (htype : netHtons (p.m.load16 (p.data + 12)) = ethTypeIpv4) :
    SameHost host (netReceiveIpv4 host p.m (p.data + 14)).1 ∧ ∃ srcIp, (netReceiveIpv4 host p.m (p.data + 14)).1.icmp =
      match echoKey host.config p with
      | some (id, seq) => enterReply host.icmp srcIp id seq
      | none => host.icmp := by
  unfold netReceiveIpv4 echoKey
  dsimp only
  simp only [UInt16.not_lt.mp h34, htype, true_and]
  cases hus : notForUs host.config p.m (p.data + 14) with
  | true => exact ⟨.refl _, 0, rfl⟩
  | false =>
    simp only [Bool.false_eq_true, if_false, true_and]
    by_cases hicmp : p.m (p.data + 14 + 9) = ipProtoIcmp
    · refine ⟨⟨by simp [hicmp], by simp [hicmp]⟩, p.m.load32 (p.data + 14 + 12), ?_⟩
      simp only [hicmp, if_true, true_and]
      unfold icmpReceive
      split
      · rename_i hshort
        rw [if_neg fun h => h.1 hshort]
      · rename_i hlong
        have hreply : ¬ icmpTypeEchoRequest = icmpTypeEchoReply := by decide
        split
        · rename_i hreq
          rw [if_neg fun h => hreply (hreq.symm.trans h.2)]
        · split
          · rename_i hrep
            rw [if_pos ⟨hlong, hrep⟩]
          · rename_i hrep
            rw [if_neg fun h => hrep h.2]
    · simp only [hicmp, if_false, false_and]
      split
      · exact ⟨.refl _, 0, rfl⟩
      · split
        · exact ⟨⟨rfl, rfl⟩, 0, rfl⟩
        · exact ⟨.refl _, 0, rfl⟩

/-- **Receiving**, as far as echo replies go. -/
theorem receive_icmp : SameHost host (p.receive host).1 ∧ ∃ srcIp, (p.receive host).1.icmp =
    match echoKey host.config p with
    | some (id, seq) => enterReply host.icmp srcIp id seq
    | none => host.icmp := by
  have hip : ¬ ethTypeArp = ethTypeIpv4 := by decide
  unfold Packet.receive netReceivePacket
  split
  · rename_i h14
    have h34 : ¬ 34 ≤ p.length := by
      rw [UInt16.lt_iff_toNat_lt] at h14
      rw [UInt16.le_iff_toNat_le]
      simp only [UInt16.reduceToNat] at *
      omega
    exact ⟨.refl _, 0, by simp [echoKey, h34]⟩
  · dsimp only
    split
    · rename_i htype
      exact ⟨⟨rfl, rfl⟩, 0, by simp [echoKey, htype, hip]⟩
    · split
      · rename_i htype
        split
        · rename_i h34
          exact ⟨.refl _, 0, by simp [echoKey, UInt16.not_le.mpr h34]⟩
        · rename_i h34
          exact netReceiveIpv4_icmp p h34 htype
      · rename_i htype
        exact ⟨.refl _, 0, by simp [echoKey, htype]⟩

theorem receive_keys : (p.receive host).1.icmp.keys =
    (echoKey host.config p).toList.foldl (enter 16) host.icmp.keys := by
  obtain ⟨-, srcIp, hicmp⟩ := @receive_icmp H host p
  rw [hicmp]
  cases echoKey host.config p with
  | none => rfl
  | some key => exact keys_enterReply

/-- A host that waits for the reply with these numbers. -/
structure Waits (icmp : Icmp) (id seq : UInt16) : Prop where
  waiting : icmp.waitingForReply = true
  id : icmp.expectedId = id
  seq : icmp.expectedSeq = seq

/-- The reply is there. -/
def Answered (icmp : Icmp) (id seq : UInt16) : Prop := icmp.replyReceived = true ∨ (id, seq) ∈ icmp.keys

theorem answered_iff : (icmp.replyReceived || checkReplyInArray icmp id seq) = true ↔ Answered icmp id seq := by
  rw [Bool.or_eq_true, checkReplyInArray_iff]
  rfl

/-- A reply that is entered while the host waits for it is there, also if the log is full. -/
theorem Waits.enterReply {srcIp : UInt32} {id' seq' : UInt16} (h : Waits icmp id seq) :
    Waits (enterReply icmp srcIp id' seq') id seq ∧
      (Answered (Network.enterReply icmp srcIp id' seq') id seq ↔ Answered icmp id seq ∨ (id, seq) = (id', seq')) := by
  have hkeys : (Network.enterReply icmp srcIp id' seq').keys = enter 16 icmp.keys (id', seq') := keys_enterReply
  by_cases hc : (id', seq') ∈ icmp.keys
  · have hsame : Network.enterReply icmp srcIp id' seq' = icmp := if_pos (checkReplyInArray_iff.mpr hc)
    rw [hsame]
    refine ⟨h, (or_iff_left_of_imp fun he => .inr ?_).symm⟩
    rwa [he]
  · have hflag : (Network.enterReply icmp srcIp id' seq').replyReceived =
        (icmp.replyReceived || (id' == id && seq' == seq)) := by
      unfold Network.enterReply
      rw [if_neg (mt checkReplyInArray_iff.mp hc)]
      simp [h.waiting, h.id, h.seq]
    refine ⟨?_, ?_⟩
    · unfold Network.enterReply
      rw [if_neg (mt checkReplyInArray_iff.mp hc)]
      exact ⟨h.waiting, h.id, h.seq⟩
    · unfold Answered
      rw [hflag, hkeys, Prod.mk.injEq]
      unfold enter
      rw [if_neg hc]
      by_cases he : id = id' ∧ seq = seq'
      · simp [he]
      · have hne : ¬ (id' = id ∧ seq' = seq) := fun hh => he ⟨hh.1.symm, hh.2.symm⟩
        split <;> simp [he, hne]

theorem Waits.receive (h : Waits host.icmp id seq) : Waits (p.receive host).1.icmp id seq ∧
    (Answered (p.receive host).1.icmp id seq ↔ Answered host.icmp id seq ∨ echoKey host.config p = some (id, seq)) := by
  obtain ⟨-, srcIp, hicmp⟩ := @receive_icmp H host p
  rw [hicmp]
  cases hk : echoKey host.config p with
  | none => exact ⟨h, by simp⟩
  | some key =>
    obtain ⟨hw, ha⟩ := @Waits.enterReply _ id seq srcIp key.1 key.2 h
    exact ⟨hw, by rw [ha, Option.some.injEq, eq_comm]⟩

theorem receiveAll_same : SameHost host (receiveAll host ps).1 := by
  induction ps generalizing host with
  | nil => exact .refl _
  | cons p ps ih => exact receive_icmp.1.trans ih

theorem receiveAll_keys : (receiveAll host ps).1.icmp.keys =
    (ps.filterMap (echoKey host.config)).foldl (enter 16) host.icmp.keys := by
  induction ps generalizing host with
  | nil => rfl
  | cons p ps ih =>
    have hnext : (receiveAll host (p :: ps)).1.icmp.keys = (receiveAll (p.receive host).1 ps).1.icmp.keys := rfl
    rw [hnext, ih, receive_keys, receive_icmp.1.config]
    cases hk : echoKey host.config p with
    | none => simp [hk]
    | some key => simp [hk]

theorem Waits.receiveAll (h : Waits host.icmp id seq) : Waits (receiveAll host ps).1.icmp id seq ∧
    (Answered (Network.receiveAll host ps).1.icmp id seq ↔
      Answered host.icmp id seq ∨ (id, seq) ∈ ps.filterMap (echoKey host.config)) := by
  induction ps generalizing host with
  | nil => exact ⟨h, by simp [Network.receiveAll]⟩
  | cons p ps ih =>
    obtain ⟨hw, ha⟩ := h.receive (p := p)
    obtain ⟨hw', ha'⟩ := ih hw
    refine ⟨hw', ?_⟩
    rw [ha, receive_icmp.1.config] at ha'
    refine ha'.trans ?_
    rw [or_assoc, List.mem_filterMap, List.mem_filterMap]
    simp only [List.mem_cons, exists_eq_or_imp]

end Receiving

/-! ## Polls -/

section Polls

variable {config : NetConfig} {card : Bool} {env : PingEnv} {host : Host H} {s t u n : Nat} {id seq : UInt16}

theorem enterAll_append {K : Type} [DecidableEq K] {cap : Nat} {ks ks' : List K} :
    enterAll cap (ks ++ ks') = ks'.foldl (enter cap) (enterAll cap ks) :=
  List.foldl_append

theorem echoesHeard_append (hs : s ≤ t) (ht : t ≤ u) :
    echoesHeard config env s u = echoesHeard config env s t ++ echoesHeard config env t u := by
  unfold echoesHeard
  rw [show u - s = (t - s) + (u - t) by omega, ← List.range'_append_1, List.flatMap_append,
    show s + (t - s) = t by omega]

theorem echoesHeard_self : echoesHeard config env t t = [] := by simp [echoesHeard]

theorem echoesHeard_succ : echoesHeard config env t (t + 1) = (env.arrive t).filterMap (echoKey config) := by simp [echoesHeard]

/-- The host after the polls up to `t`. -/
structure Polled (config : NetConfig) (card : Bool) (env : PingEnv) (t : Nat) (host : Host H) : Prop where
  address : host.config = config
  onCard : host.card = card
  keys : host.icmp.keys = enterAll 16 (echoesHeard config env 0 t)

theorem Polled.poll (h : Polled config card env t host) :
    Polled config card env (t + 1) (receiveAll host (env.arrive t)).1 := by
  refine ⟨receiveAll_same.config.trans h.address, receiveAll_same.card.trans h.onCard, ?_⟩
  rw [receiveAll_keys, h.address, h.keys, echoesHeard_append (Nat.zero_le t) (Nat.le_succ t), echoesHeard_succ, enterAll_append]

theorem Polled.polls (h : Polled config card env t host) : Polled config card env (t + n) (pollsFrom env n t host) := by
  induction n generalizing t host with
  | zero => exact h
  | succ n ih =>
    have hnext := ih h.poll
    rwa [Nat.add_assoc, Nat.add_comm 1 n] at hnext

/-- The reply was noted before poll `t`. -/
theorem Polled.noted (h : Polled config card env t host) :
    checkReplyInArray host.icmp id seq = true ↔ InTime 16 (echoesHeard config env 0 t) (id, seq) := by
  rw [checkReplyInArray_iff, h.keys, mem_enterAll]

/-- Only the numbers of the noted replies count. -/
theorem Polled.congr (h : Polled config card env t host) (icmp : Icmp) (hk : icmp.replies = host.icmp.replies) :
    Polled config card env t { host with icmp } := by
  refine ⟨h.address, h.onCard, ?_⟩
  rw [← h.keys]
  unfold Icmp.keys
  rw [hk]

/-- **Waiting**: the reply is found exactly if it arrives in one of the polls. -/
theorem waitPolls_spec (n : Nat) (h : Polled config card env t host) (hw : Waits host.icmp id seq)
    (hno : ¬ Answered host.icmp id seq) :
    ∃ found host' t', waitPolls env id seq n t host = (found, host', t') ∧ Polled config card env t' host' ∧
      (found = true ↔ (id, seq) ∈ echoesHeard config env t (t + n)) := by
  induction n generalizing t host with
  | zero =>
    have hkey := mt Or.inr hno
    refine ⟨_, host, t, rfl, h, iff_of_false (mt checkReplyInArray_iff.mp hkey) ?_⟩
    rw [Nat.add_zero, echoesHeard_self]
    exact List.not_mem_nil
  | succ n ih =>
    obtain ⟨hw', ha⟩ := @Waits.receiveAll H host (env.arrive t) id seq hw
    rw [or_iff_right hno, h.address, ← echoesHeard_succ] at ha
    have hsplit : echoesHeard config env t (t + (n + 1)) =
        echoesHeard config env t (t + 1) ++ echoesHeard config env (t + 1) (t + 1 + n) := by
      rw [show t + (n + 1) = t + 1 + n by omega]
      exact echoesHeard_append (by omega) (by omega)
    unfold waitPolls
    dsimp only
    by_cases hfound : Answered (receiveAll host (env.arrive t)).1.icmp id seq
    · rw [if_pos (answered_iff.mpr hfound), hsplit]
      exact ⟨true, _, _, rfl, h.poll, iff_of_true rfl (List.mem_append_left _ (ha.mp hfound))⟩
    · rw [if_neg (mt answered_iff.mp hfound), hsplit]
      obtain ⟨found, host', t', he, hp, hiff⟩ := ih h.poll hw' hfound
      refine ⟨found, host', t', he, hp, hiff.trans ?_⟩
      rw [List.mem_append, or_iff_right (mt ha.mpr hfound)]

/-- **A whole wait.** -/
theorem icmpWaitReply_spec (id seq : UInt16) (timeoutMs : Nat) (h : Polled config card env t host) :
    ∃ found host' t', icmpWaitReply env id seq timeoutMs t host = (found, host', t') ∧ Polled config card env t' host' ∧
      (found = true ↔ InTime 16 (echoesHeard config env 0 t) (id, seq) ∨
        (id, seq) ∈ echoesHeard config env t (t + timeoutMs * 1000)) := by
  unfold icmpWaitReply
  by_cases hc : checkReplyInArray host.icmp id seq = true
  · rw [if_pos hc]
    exact ⟨true, host, t, rfl, h, iff_of_true rfl (.inl (h.noted.mp hc))⟩
  · rw [if_neg hc]
    let icmp : Icmp :=
      { host.icmp with expectedId := id, expectedSeq := seq, waitingForReply := true, replyReceived := false }
    have hno : ¬ Answered icmp id seq := by
      rintro (hflag | hkey)
      · cases hflag
      · exact hc (checkReplyInArray_iff.mpr hkey)
    have hwaits : Waits icmp id seq := ⟨rfl, rfl, rfl⟩
    obtain ⟨found, host', t', he, hp, hiff⟩ :=
      waitPolls_spec (timeoutMs * 10 * 100) (h.congr icmp rfl) hwaits hno
    dsimp only
    rw [he]
    refine ⟨found, _, t', rfl, hp.congr _ rfl, hiff.trans ?_⟩
    rw [or_iff_right (mt h.noted.mpr hc), Nat.mul_assoc]

end Polls

/-! ## Sending -/

section Sending

variable {host : Host H} {destIp : UInt32} {id seq : UInt16}

theorem length_icmpPacket {type : UInt8} {data : List UInt8} : (icmpPacket type id seq data).length = 8 + data.length := by
  simp only [icmpPacket, List.length_append, length_bytes16, List.length_cons, List.length_nil]
  omega

theorem length_echoRequest : (icmpPacket icmpTypeEchoRequest id seq pingData).length = 64 := length_icmpPacket

theorem netSendEthernet_result {destMac : List UInt8} {ethertype : UInt16} {payload : List UInt8}
    (hmac : destMac.length = 6) (hpayload : payload.length ≤ 8178) :
    (netSendEthernet host destMac ethertype payload).2 = 0 ↔ host.card = true := by
  have hlen : (ethFrame destMac host.config.mac ethertype payload).length ≤ 8192 := by
    rw [length_ethFrame hmac]
    omega
  have hevent : (netSendEthernet host destMac ethertype payload).1 =
      [.e1000SendPacket (ethFrame destMac host.config.mac ethertype payload)] := netSendEthernet_eq hmac hpayload
  unfold netSendEthernet e1000SendPacket at hevent ⊢
  dsimp only at hevent ⊢
  rw [List.cons.injEq] at hevent
  rw [Event.e1000SendPacket.inj hevent.1]
  cases hc : host.card with
  | true => simp [Nat.not_lt.mpr hlen]
  | false => simp

/-- **Sending a ping** to another host: it leaves the host as it is, and fails without a card or an address on the wire. -/
theorem icmpSendPing_spec (id seq : UInt16) (hown : ¬ (destIp = ownIp host.config ∧ ownIp host.config ≠ 0))
    (arpResolve : UInt32 → Option Mac) :
    (icmpSendPing host arpResolve destIp id seq).1 = host ∧
      ((icmpSendPing host arpResolve destIp id seq).2.2 = 0 ↔
        host.card = true ∧ (destMacFor host.config arpResolve destIp).isSome) := by
  unfold icmpSendPing
  cases hmac : destMacFor host.config arpResolve destIp with
  | some destMac =>
    rw [netSendIpv4_eq (by rw [length_echoRequest]; omega) hown hmac]
    refine ⟨rfl, (netSendEthernet_result (length_destMacFor hmac) ?_).trans (by simp)⟩
    rw [length_ipv4Packet, length_echoRequest]
    omega
  | none =>
    unfold netSendIpv4
    dsimp only
    rw [if_neg hown, hmac]
    simp

end Sending

/-! ## The command -/

section Command

variable {config : NetConfig} {card : Bool} {env : PingEnv} {host : Host H} {t n i : Nat} {id seq : UInt16}
  {destIp : UInt32} {timeoutMs : Nat} {delay : Nat → Nat}

/-- The line of a ping says what happened: it failed without a card or an address on the wire; there was a reply if one was
noted before the wait for it or arrived during the wait. -/
structure LineOk (config : NetConfig) (card : Bool) (env : PingEnv) (timeoutMs : Nat) (destIp : UInt32) (id : UInt16)
    (line : PingLine) : Prop where
  failed : line.result = .failed ↔
    ¬ (card = true ∧ (destMacFor config (fun _ => (env.resolve line.time).1) destIp).isSome)
  reply : line.result = .reply ↔ line.result ≠ .failed ∧
    (InTime 16 (echoesHeard config env 0 (line.time + (env.resolve line.time).2)) (id, line.seq) ∨
      (id, line.seq) ∈ echoesHeard config env (line.time + (env.resolve line.time).2)
        (line.time + (env.resolve line.time).2 + timeoutMs * 1000))

/-- One ping. -/
theorem pingOnce_spec (timeoutMs : Nat) (id seq : UInt16) (h : Polled config card env t host)
    (hown : ¬ (destIp = ownIp config ∧ ownIp config ≠ 0)) :
    ∃ line host' t', pingOnce env timeoutMs destIp id seq t host = (line, host', t') ∧
      Polled config card env t' host' ∧ line.seq = seq ∧ LineOk config card env timeoutMs destIp id line := by
  have hp : Polled config card env (t + (env.resolve t).2) (pollsFrom env (env.resolve t).2 t host) := h.polls
  obtain ⟨hsame, hsent⟩ := icmpSendPing_spec id seq (hp.address ▸ hown) fun _ => (env.resolve t).1
  rw [hp.address, hp.onCard] at hsent
  unfold pingOnce
  dsimp only
  rw [hsame]
  by_cases hr : (icmpSendPing (pollsFrom env (env.resolve t).2 t host) (fun _ => (env.resolve t).1) destIp id seq).2.2 = 0
  · rw [if_pos hr]
    obtain ⟨found, host', t', he, hp', hiff⟩ := icmpWaitReply_spec id seq timeoutMs hp
    rw [he]
    refine ⟨_, host', t', rfl, hp', rfl, ?_, ?_⟩
    · cases found <;> simp [hsent.mp hr]
    · rw [← hiff]
      cases found <;> simp
  · rw [if_neg hr]
    exact ⟨_, _, _, rfl, hp, rfl, iff_of_true rfl (mt hsent.mpr hr), iff_of_false (by simp) (by simp)⟩

theorem pingLoop_spec (timeoutMs : Nat) (delay : Nat → Nat) (n i : Nat) (id seq : UInt16)
    (h : Polled config card env t host)
    (hown : ¬ (destIp = ownIp config ∧ ownIp config ≠ 0)) :
    ∃ lines host', pingLoop env timeoutMs delay destIp id n i seq t host = (lines, host', seq + UInt16.ofNat n) ∧
      lines.length = n ∧ ∀ (k : Nat) (line : PingLine), lines[k]? = some line →
        line.seq = seq + UInt16.ofNat k ∧ LineOk config card env timeoutMs destIp id line := by
  induction n generalizing i seq t host with
  | zero => exact ⟨[], host, by simp [pingLoop], rfl, fun k line hk => by simp at hk⟩
  | succ n ih =>
    obtain ⟨first, host₁, t₁, he, hp, hseq, hok⟩ := pingOnce_spec timeoutMs id seq h hown
    have hnext : Polled config card env (t₁ + delay i) (pollsFrom env (delay i) t₁ host₁) := hp.polls
    obtain ⟨lines, host', hl, hlen, hlines⟩ := ih (i + 1) (seq + 1) hnext
    have hadd : ∀ k, seq + 1 + UInt16.ofNat k = seq + UInt16.ofNat (k + 1) := fun k => by
      rw [UInt16.ofNat_add, UInt16.add_comm (UInt16.ofNat k), ← UInt16.add_assoc]
      rfl
    refine ⟨first :: lines, host', ?_, by rw [List.length_cons, hlen], fun k line hk => ?_⟩
    · simp only [pingLoop, he, hl, hadd]
    · cases k with
      | zero =>
        obtain rfl : first = line := Option.some.inj hk
        exact ⟨by simpa using hseq, hok⟩
      | succ k =>
        obtain ⟨hk', hok'⟩ := hlines k line hk
        exact ⟨hk'.trans (hadd k), hok'⟩

/-- **The lines of a ping command** for another host, whatever arrives when: four requests with consecutive numbers go out,
and each line says whether there was a reply to this one of them. -/
theorem pingCommand_lines (env : PingEnv) (timeoutMs : Nat) (delay : Nat → Nat) {target : CString} (pingId pingSeq : UInt16)
    {host : Host H} (htarget : netParseIp target ≠ 0)
    (hown : ¬ (netParseIp target = ownIp host.config ∧ ownIp host.config ≠ 0)) :
    ∃ lines host', pingCommand env timeoutMs delay target pingId pingSeq host =
        (some lines, host', pingId + 1, pingSeq + 4) ∧
      lines.length = 4 ∧ ∀ (k : Nat) (line : PingLine), lines[k]? = some line →
        line.seq = pingSeq + UInt16.ofNat k ∧
        LineOk host.config host.card env timeoutMs (netParseIp target) pingId line := by
  have hstart : Polled host.config host.card env 0 { host with icmp := { host.icmp with replies := [] } } :=
    ⟨rfl, rfl, by rw [echoesHeard_self]; rfl⟩
  obtain ⟨lines, host', he, hlen, hlines⟩ := pingLoop_spec timeoutMs delay 4 0 pingId pingSeq hstart hown
  refine ⟨lines, host', ?_, hlen, hlines⟩
  simp only [pingCommand, if_neg htarget, he]
  rfl

/-- An empty network, but for a reply to ping 1 of command 7 in poll 3, at a host at 10.0.0.1. -/
def oneReply : PingEnv where
  arrive t := if t = 3 then [⟨Mem.ofList (ethFrame broadcastMac (Vector.replicate 6 3) ethTypeIpv4
    (ipv4Packet ipProtoIcmp 0x0200000A 0x0100000A (icmpPacket icmpTypeEchoReply 7 1 []))), 0, 42⟩] else []
  resolve _ := (some (Vector.replicate 6 3), 2)

/-- The host that the reply comes from, 10.0.0.2. -/
def pingTarget : CString := netPrintIp 0x0200000A

theorem echoesHeard_silent {s t : Nat} (h : t ≤ 3 ∨ 4 ≤ s) :
    echoesHeard (echoHost 0x0100000A).config oneReply s t = [] := by
  unfold echoesHeard
  rw [List.flatMap_eq_nil_iff]
  intro u hu
  obtain ⟨hus, hut⟩ := List.mem_range'_1.mp hu
  have hne : u ≠ 3 := by omega
  simp [oneReply, hne]

theorem echoesHeard_oneReply (n : Nat) :
    echoesHeard (echoHost 0x0100000A).config oneReply 0 (4 + n) = [(7, 1)] := by
  have hhead : echoesHeard (echoHost 0x0100000A).config oneReply 0 4 = [(7, 1)] := by decide +kernel
  rw [echoesHeard_append (Nat.zero_le 4) (by omega), hhead, echoesHeard_silent (.inr le_rfl), List.append_nil]

/-- The first ping is answered. -/
theorem pingCommand_lines_oneReply : ∃ lines host',
    pingCommand oneReply 1000 (fun i => if i < 3 then 1000 * 10 else 0) pingTarget 7 1 (echoHost 0x0100000A) =
      (some lines, host', 8, 5) ∧
    lines.length = 4 ∧ ∃ line, lines[0]? = some line ∧ line.seq = 1 ∧ line.result = .reply := by
  have htarget : netParseIp pingTarget ≠ 0 := by decide
  have hown : ¬ (netParseIp pingTarget = ownIp (echoHost 0x0100000A).config ∧ ownIp (echoHost 0x0100000A).config ≠ 0) := by
    decide
  obtain ⟨lines, host', he, hlen, hlines⟩ := pingCommand_lines oneReply 1000 (fun i => if i < 3 then 1000 * 10 else 0)
    7 1 htarget hown
  have h0 : lines[0]? = some lines[0] := List.getElem?_eq_getElem (by omega)
  obtain ⟨hseq, hfailed, hreply⟩ := hlines 0 _ h0
  refine ⟨lines, host', he, hlen, _, h0, hseq, hreply.mpr ⟨?_, ?_⟩⟩
  · exact mt hfailed.mp (not_not.mpr ⟨rfl, rfl⟩)
  · -- poll 3 is before the wait or in it, whenever the ping was sent
    have hheard : InTime 16 (echoesHeard (echoHost 0x0100000A).config oneReply 0 (lines[0].time + 2)) (7, lines[0].seq) ∨
        ((7 : UInt16), lines[0].seq) ∈ echoesHeard (echoHost 0x0100000A).config oneReply (lines[0].time + 2)
          (lines[0].time + 2 + 1000 * 1000) := by
      rw [hseq]
      generalize lines[0].time = t
      by_cases ht : 4 ≤ t + 2
      · obtain ⟨n, hn⟩ := Nat.exists_eq_add_of_le ht
        rw [hn, echoesHeard_oneReply]
        exact .inl ⟨[], [], rfl, by decide⟩
      · obtain ⟨n, hn⟩ := Nat.exists_eq_add_of_le (show 4 ≤ t + 2 + 1000 * 1000 by omega)
        have hsplit : echoesHeard (echoHost 0x0100000A).config oneReply 0 (4 + n) =
            echoesHeard (echoHost 0x0100000A).config oneReply 0 (t + 2) ++
              echoesHeard (echoHost 0x0100000A).config oneReply (t + 2) (4 + n) :=
          echoesHeard_append (by omega) (by omega)
        rw [echoesHeard_oneReply, echoesHeard_silent (.inl (by omega)), List.nil_append] at hsplit
        rw [hn, ← hsplit]
        exact .inr (List.mem_singleton.mpr rfl)
    exact hheard

end Command

end AmqOs.Network
