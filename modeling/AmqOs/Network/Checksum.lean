import AmqOs.Lib.OnesComplement
import AmqOs.Network.UdpRoundTrip

/-!
# Checksums

`net_checksum` folds the sum of the little-endian words of a text; `tcp_calculate_checksum` does so with the words of the
pseudo header. What is stored is the checksum of RFC 1071 in network byte order, and a text with its checksum in the field
gives zero (`netChecksum_field`). So does a segment of `tcp_send_packet`, unless its length has wrapped around so far that the
checksum field lies behind its end (`tcpSegment_verifies_iff`).
-/

set_option autoImplicit false

namespace AmqOs.Network

open AmqOs.Lib

variable {H : Type}

/-! ## TCP segments -/

/-- The header that `tcp_send_packet` fills in. -/
def tcpHeader (sock : TcpSocket) (flags : UInt8) (checksum : UInt16) : List UInt8 :=
  bytes16 (netHtons sock.localPort) ++ bytes16 (netHtons sock.remotePort) ++ bytes32 (netHtonl sock.seqNum) ++
    bytes32 (netHtonl sock.ackNum) ++ [(5 : UInt8) <<< 4, flags] ++ bytes16 (netHtons 8192) ++ bytes16 checksum ++ bytes16 0

/-- The sum of the words of the pseudo header. -/
def pseudoSum (srcIp destIp : UInt32) (length : UInt16) : Nat :=
  ((srcIp >>> 16) &&& 0xFFFF).toNat + (srcIp &&& 0xFFFF).toNat + ((destIp >>> 16) &&& 0xFFFF).toNat +
    (destIp &&& 0xFFFF).toNat + (netHtons ipProtoTcp.toUInt16).toNat + (netHtons length).toNat

/-- `tcp_calculate_checksum`, on `length` bytes. -/
def tcpCalculateChecksum (srcIp destIp : UInt32) (data : List UInt8) : UInt16 :=
  let sum := (pseudoSum srcIp destIp (UInt16.ofNat data.length) + sumWords data) % 2 ^ 32
  ~~~ UInt16.ofNat (foldCarry (2 ^ 32) sum)

/-- `total_len` of `tcp_send_packet`. -/
def tcpTotalLen (data : List UInt8) : UInt16 := 20 + UInt16.ofNat data.length

/-- The first `total_len` bytes of the buffer of `tcp_send_packet`, with a checksum; it writes the whole header and all of
the data, also where they are longer. -/
def tcpBuffer (sock : TcpSocket) (flags : UInt8) (checksum : UInt16) (data : List UInt8) : List UInt8 :=
  (tcpHeader sock flags checksum ++ data).take (tcpTotalLen data).toNat

/-- The segment that `tcp_send_packet` builds. -/
def tcpSegment (config : NetConfig) (sock : TcpSocket) (flags : UInt8) (data : List UInt8) : List UInt8 :=
  let checksum := tcpCalculateChecksum config.ip sock.remoteIp (tcpBuffer sock flags 0 data)
  tcpBuffer sock flags checksum data

/-- `tcp_send_packet`. -/
def tcpSendPacket (host : Host H) (arpResolve : UInt32 → Option Mac) (sock : TcpSocket) (flags : UInt8)
    (data : List UInt8) : Host H × List (Event H) × Int :=
  netSendIpv4 host arpResolve sock.remoteIp ipProtoTcp (tcpSegment host.config sock flags data)

/-! ## Sums -/

variable {data : List UInt8} {s off : Nat}

/-- The loop adds the carries until there are none. -/
theorem foldCarry_eq {fuel : Nat} (h : s ≤ fuel) : foldCarry fuel s = endAround s := by
  induction fuel generalizing s with
  | zero =>
    obtain rfl : s = 0 := by omega
    rfl
  | succ fuel ih =>
    rw [foldCarry, Nat.shiftRight_eq_div_pow]
    split
    · rw [endAround_of_le (by omega)]
    · rw [ih (by omega)]
      apply endAround_congr <;> omega

/-- The sum of a text of at most `2¹⁷` bytes fits 32 bits. -/
theorem sumWords_eq (h : data.length ≤ 2 ^ 17) : sumWords data = sumLE data := by
  induction data using sumLE.induct with
  | case1 => rfl
  | case2 b => rfl
  | case3 b c rest ih =>
    have hle := sumLE_le (b :: c :: rest)
    have hlen : (b :: c :: rest).length = rest.length + 2 := rfl
    rw [sumLE] at hle
    rw [sumWords, ih (by omega), sumLE, Nat.mod_eq_of_lt (by omega)]

/-- The complement of a folded sum. -/
theorem toNat_complement (s : Nat) : (~~~ UInt16.ofNat (endAround s)).toNat = 65535 - endAround s := by
  have hle := endAround_le s
  rw [UInt16.toNat_not, UInt16.toNat_ofNat', Nat.mod_eq_of_lt (by omega)]
  rfl

theorem netChecksum_eq (h : data.length ≤ 2 ^ 17) : netChecksum data = ~~~ UInt16.ofNat (endAround (sumLE data)) := by
  have hle := sumLE_le data
  rw [netChecksum, sumWords_eq h, foldCarry_eq (by omega)]

theorem complement_eq_zero_iff : ~~~ UInt16.ofNat (endAround s) = 0 ↔ endAround s = 65535 := by
  have hle := endAround_le s
  rw [← UInt16.toNat_inj, toNat_complement, UInt16.toNat_zero]
  omega

theorem sumLE_bytes16 (v : UInt16) : sumLE (bytes16 v) = v.toNat := by
  have hv := v.toNat_lt
  simp only [bytes16, sumLE, UInt16.toNat_toUInt8, UInt16.toNat_shiftRight, UInt16.reduceToNat, Nat.reduceMod,
    Nat.shiftRight_eq_div_pow]
  omega

/-! ## `net_checksum` -/

/-- The text with a 16-bit field stored in it. -/
def setField (data : List UInt8) (off : Nat) (v : UInt16) : List UInt8 := data.take off ++ (bytes16 v ++ data.drop (off + 2))

theorem length_setField {v : UInt16} (hoff : off + 2 ≤ data.length) : (setField data off v).length = data.length := by
  simp only [setField, List.length_append, List.length_take, List.length_drop, length_bytes16]
  omega

/-- A field at an even offset adds itself to the sum. -/
theorem sumLE_setField {v : UInt16} (heven : off % 2 = 0) (hoff : off + 2 ≤ data.length) :
    sumLE (setField data off v) = sumLE (setField data off 0) + v.toNat := by
  have htake : (data.take off).length % 2 = 0 := by
    rw [List.length_take]
    omega
  have hword : ∀ w : UInt16, (bytes16 w).length % 2 = 0 := fun w => by rw [length_bytes16]
  simp only [setField, sumLE_append htake, sumLE_append (hword _), sumLE_bytes16]
  rw [UInt16.toNat_zero]
  omega

/-- The stored bytes are the checksum of RFC 1071, the high byte first. -/
theorem bytes16_netChecksum (h : data.length ≤ 2 ^ 17) :
    bytes16 (netChecksum data) = [UInt8.ofNat (Rfc1071.checksum data / 256), UInt8.ofNat (Rfc1071.checksum data)] := by
  have hle : 65535 - endAround (sumLE data) ≤ 65535 := by omega
  have hlow : (netChecksum data).toUInt8 = UInt8.ofNat (Rfc1071.checksum data / 256) := by
    apply UInt8.toNat_inj.mp
    rw [UInt16.toNat_toUInt8, UInt8.toNat_ofNat', netChecksum_eq h, toNat_complement, checksum_eq, swapBytes_div hle]
    omega
  have hhigh : (netChecksum data >>> 8).toUInt8 = UInt8.ofNat (Rfc1071.checksum data) := by
    apply UInt8.toNat_inj.mp
    rw [UInt16.toNat_toUInt8, UInt8.toNat_ofNat', UInt16.toNat_shiftRight, netChecksum_eq h, toNat_complement,
      checksum_eq, show 2 ^ 8 = 256 from rfl, swapBytes_mod hle, Nat.shiftRight_eq_div_pow]
    simp only [UInt16.reduceToNat, Nat.reduceMod]
    omega
  rw [bytes16, hlow, hhigh]

/-- A text with its checksum in a field that was zero gives zero. -/
theorem netChecksum_field (heven : off % 2 = 0) (hoff : off + 2 ≤ data.length) (hlen : data.length ≤ 65535) :
    netChecksum (setField data off (netChecksum (setField data off 0))) = 0 := by
  have hle : (setField data off 0).length ≤ 2 ^ 17 := by
    rw [length_setField hoff]
    omega
  rw [netChecksum_eq (by rw [length_setField hoff]; omega), complement_eq_zero_iff, sumLE_setField heven hoff,
    netChecksum_eq hle, toNat_complement, endAround_complement]

/-! ## `tcp_calculate_checksum` -/

section Tcp

variable {config : NetConfig} {sock : TcpSocket} {flags : UInt8} {srcIp destIp : UInt32} {checksum : UInt16}

theorem toNat_and_word (v : UInt32) : (v &&& 0xFFFF).toNat ≤ 65535 := by
  have hmask : v.toNat &&& 65535 = v.toNat % 2 ^ 16 := Nat.and_two_pow_sub_one_eq_mod v.toNat 16
  rw [UInt32.toNat_and, show (0xFFFF : UInt32).toNat = 65535 from rfl, hmask]
  omega

/-- The sum of six words, of which the protocol is not zero. -/
theorem pseudoSum_bounds (srcIp destIp : UInt32) (length : UInt16) :
    0 < pseudoSum srcIp destIp length ∧ pseudoSum srcIp destIp length ≤ 6 * 65535 := by
  have h1 := toNat_and_word (srcIp >>> 16)
  have h2 := toNat_and_word srcIp
  have h3 := toNat_and_word (destIp >>> 16)
  have h4 := toNat_and_word destIp
  have h5 : (netHtons ipProtoTcp.toUInt16).toNat = 1536 := by decide
  have h6 := (netHtons length).toNat_lt
  unfold pseudoSum
  omega

theorem tcpCalculateChecksum_eq (h : data.length ≤ 65535) : tcpCalculateChecksum srcIp destIp data =
    ~~~ UInt16.ofNat (endAround (pseudoSum srcIp destIp (UInt16.ofNat data.length) + sumLE data)) := by
  have hle := sumLE_le data
  have hpseudo := (pseudoSum_bounds srcIp destIp (UInt16.ofNat data.length)).2
  unfold tcpCalculateChecksum
  dsimp only
  rw [sumWords_eq (by omega), Nat.mod_eq_of_lt (by omega), foldCarry_eq (by omega)]

theorem length_tcpHeader : (tcpHeader sock flags checksum).length = 20 := by
  simp only [tcpHeader, List.length_append, length_bytes16, length_bytes32, List.length_cons, List.length_nil]

theorem toNat_tcpTotalLen (h : data.length < 2 ^ 16) : (tcpTotalLen data).toNat = (20 + data.length) % 2 ^ 16 := by
  rw [tcpTotalLen, UInt16.toNat_add, UInt16.toNat_ofNat', Nat.mod_eq_of_lt h]
  rfl

theorem length_tcpBuffer (h : data.length < 2 ^ 16) :
    (tcpBuffer sock flags checksum data).length = (tcpTotalLen data).toNat := by
  rw [tcpBuffer, List.length_take, List.length_append, length_tcpHeader, toNat_tcpTotalLen h]
  omega

/-- The sum over the pseudo header and the segment before its checksum is stored. -/
def tcpSum (config : NetConfig) (sock : TcpSocket) (flags : UInt8) (data : List UInt8) : Nat :=
  pseudoSum config.ip sock.remoteIp (tcpTotalLen data) + sumLE (tcpBuffer sock flags 0 data)

theorem tcpCalculateChecksum_tcpBuffer (h : data.length < 2 ^ 16) :
    tcpCalculateChecksum config.ip sock.remoteIp (tcpBuffer sock flags checksum data) =
      ~~~ UInt16.ofNat (endAround (pseudoSum config.ip sock.remoteIp (tcpTotalLen data) +
        sumLE (tcpBuffer sock flags checksum data))) := by
  have hlt := (tcpTotalLen data).toNat_lt
  rw [tcpCalculateChecksum_eq (by rw [length_tcpBuffer h]; omega), length_tcpBuffer h, UInt16.ofNat_toNat]

/-- The checksum field lies in the segment, at offset 16. -/
theorem tcpBuffer_field (hfield : 18 ≤ (tcpTotalLen data).toNat) :
    tcpBuffer sock flags checksum data = setField (tcpBuffer sock flags 0 data) 16 checksum := by
  have hsplit : ∀ c : UInt16, tcpHeader sock flags c ++ data =
      (tcpHeader sock flags 0).take 16 ++ (bytes16 c ++ (bytes16 0 ++ data)) := by
    intro c
    simp [tcpHeader, bytes16, bytes32]
  obtain ⟨k, hk⟩ := Nat.exists_eq_add_of_le hfield
  unfold tcpBuffer
  rw [hk, hsplit checksum, hsplit 0]
  simp only [setField, tcpHeader, bytes16, bytes32, List.cons_append, List.nil_append, List.take_succ_cons,
    List.take_zero, List.drop_succ_cons, List.drop_zero, Nat.reduceAdd, show 18 + k = k + 18 by omega]

/-- The segment ends before the checksum field. -/
theorem tcpBuffer_short (hshort : (tcpTotalLen data).toNat ≤ 16) :
    tcpBuffer sock flags checksum data = tcpBuffer sock flags 0 data := by
  have htake : ∀ c : UInt16, (tcpHeader sock flags c).take 16 = (tcpHeader sock flags 0).take 16 := fun _ => rfl
  have hcut : ∀ c : UInt16, tcpBuffer sock flags c data =
      ((tcpHeader sock flags c).take 16).take (tcpTotalLen data).toNat := by
    intro c
    rw [tcpBuffer, List.take_append_of_le_length (by rw [length_tcpHeader]; omega), List.take_take, Nat.min_eq_left hshort]
  rw [hcut, htake, ← hcut]

/-- The segment ends in the checksum field. -/
theorem sumLE_tcpBuffer_cut (hcut : (tcpTotalLen data).toNat = 17) :
    sumLE (tcpBuffer sock flags checksum data) = sumLE (tcpBuffer sock flags 0 data) + checksum.toNat % 256 := by
  have hlow : ∀ c : UInt16, tcpBuffer sock flags c data = (tcpHeader sock flags 0).take 16 ++ [c.toUInt8] := by
    intro c
    rw [tcpBuffer, List.take_append_of_le_length (by rw [length_tcpHeader]; omega), hcut]
    rfl
  have heven : ((tcpHeader sock flags 0).take 16).length % 2 = 0 := by
    rw [List.length_take, length_tcpHeader]
    rfl
  rw [hlow checksum, hlow 0, sumLE_append heven, sumLE_append heven]
  simp [sumLE]

/-- When the checksum of a segment is zero once it is stored. -/
theorem tcpSegment_verifies_iff (h : data.length < 2 ^ 16) :
    tcpCalculateChecksum config.ip sock.remoteIp (tcpSegment config sock flags data) = 0 ↔
      18 ≤ (tcpTotalLen data).toNat ∨ tcpSum config sock flags data % 65535 = 0 ∨
        (tcpTotalLen data).toNat = 17 ∧ 65280 ≤ tcpSum config sock flags data % 65535 := by
  have hpos : 0 < tcpSum config sock flags data := by
    have hpseudo := (pseudoSum_bounds config.ip sock.remoteIp (tcpTotalLen data)).1
    unfold tcpSum
    omega
  have hstored : tcpCalculateChecksum config.ip sock.remoteIp (tcpBuffer sock flags 0 data) =
      ~~~ UInt16.ofNat (endAround (tcpSum config sock flags data)) := tcpCalculateChecksum_tcpBuffer h
  unfold tcpSegment
  dsimp only
  rw [hstored, tcpCalculateChecksum_tcpBuffer h, complement_eq_zero_iff]
  by_cases hfield : 18 ≤ (tcpTotalLen data).toNat
  · rw [tcpBuffer_field hfield, sumLE_setField (by norm_num) (by rw [length_tcpBuffer h]; omega),
      ← tcpBuffer_field hfield, toNat_complement, ← Nat.add_assoc, ← tcpSum, endAround_complement]
    simp [hfield]
  · by_cases hcut : (tcpTotalLen data).toNat = 17
    · rw [sumLE_tcpBuffer_cut hcut, toNat_complement, ← Nat.add_assoc, ← tcpSum]
      unfold endAround
      split <;> split <;> omega
    · rw [tcpBuffer_short (by omega), ← tcpSum]
      unfold endAround
      split <;> omega

end Tcp

/-- **Checksums**: the checksum of a text with a zero field is that of RFC 1071, stored in network byte order, and with it in
the field the text gives zero. A segment of `tcp_send_packet` gives zero exactly if its length reaches over the checksum field,
or if the words before it happen to give zero already. -/
theorem checksums_verify_iff (data : List UInt8) (off : Nat) (config : NetConfig) (sock : TcpSocket) (flags : UInt8)
    (payload : List UInt8) (hpayload : payload.length < 2 ^ 16) :
    (off % 2 = 0 → off + 2 ≤ data.length → data.length ≤ 65535 →
      netChecksum (setField data off (netChecksum (setField data off 0))) = 0 ∧
      bytes16 (netChecksum (setField data off 0)) =
        [UInt8.ofNat (Rfc1071.checksum (setField data off 0) / 256), UInt8.ofNat (Rfc1071.checksum (setField data off 0))]) ∧
    (tcpCalculateChecksum config.ip sock.remoteIp (tcpSegment config sock flags payload) = 0 ↔
      18 ≤ (tcpTotalLen payload).toNat ∨ tcpSum config sock flags payload % 65535 = 0 ∨
        (tcpTotalLen payload).toNat = 17 ∧ 65280 ≤ tcpSum config sock flags payload % 65535) := by
  refine ⟨fun heven hoff hlen => ⟨netChecksum_field heven hoff hlen, ?_⟩, tcpSegment_verifies_iff hpayload⟩
  apply bytes16_netChecksum
  rw [length_setField hoff]
  omega

/-- The socket of a connection that has just been made. -/
def freshSocket : TcpSocket := ⟨0, 49152, 80, 1000, 1, .established, true⟩

def freshConfig : NetConfig := ⟨Vector.replicate 6 0, 0, 0, 0, true⟩

/-- A segment with three bytes of data, and a field of a text of odd length. -/
theorem checksums_verify_three :
    netChecksum (setField [1, 2, 0, 0, 3] 2 (netChecksum (setField [1, 2, 0, 0, 3] 2 0))) = 0 ∧
      tcpCalculateChecksum freshConfig.ip freshSocket.remoteIp (tcpSegment freshConfig freshSocket tcpAck [1, 2, 3]) = 0 := by
  have h := checksums_verify_iff [1, 2, 0, 0, 3] 2 freshConfig freshSocket tcpAck [1, 2, 3] (by norm_num)
  exact ⟨(h.1 (by norm_num) (by norm_num) (by norm_num)).1, h.2.mpr (.inl (by decide))⟩

/-- With 65526 bytes of data the segment has a length of ten, and its checksum is not in it. -/
theorem tcpSegment_wrapped : ¬ ∀ (config : NetConfig) (sock : TcpSocket) (flags : UInt8) (payload : List UInt8),
    payload.length < 2 ^ 16 →
      tcpCalculateChecksum config.ip sock.remoteIp (tcpSegment config sock flags payload) = 0 := by
  intro h
  have hlen : (List.replicate 65526 (0 : UInt8)).length < 2 ^ 16 := by
    rw [List.length_replicate]
    norm_num
  have htotal : (tcpTotalLen (List.replicate 65526 0)).toNat = 10 := by
    rw [toNat_tcpTotalLen hlen, List.length_replicate]
    norm_num
  have hzero := h freshConfig freshSocket tcpAck (List.replicate 65526 0) hlen
  rw [tcpSegment_verifies_iff hlen, htotal] at hzero
  have hbuffer : tcpBuffer freshSocket tcpAck 0 (List.replicate 65526 0) = (tcpHeader freshSocket tcpAck 0).take 10 := by
    rw [tcpBuffer, htotal, List.take_append_of_le_length (by rw [length_tcpHeader]; norm_num)]
  have hpseudo : tcpTotalLen (List.replicate 65526 0) = 10 := UInt16.toNat_inj.mp htotal
  have hsum : tcpSum freshConfig freshSocket tcpAck (List.replicate 65526 0) = 84163 := by
    rw [tcpSum, hbuffer, hpseudo]
    decide
  omega

end AmqOs.Network
