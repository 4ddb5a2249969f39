import AmqOs.Network.DnsDefs

/-!
# Reading a datagram

`dns_handler` and `dhcp_rx` walk over labels, records and options whose lengths the sender chooses. A read inside of the
datagram is the byte there (`readByte_eq`); a cursor may run past the end, but is compared with the end before the next
read, and every turn of a loop moves it on. So both handlers end without a read outside of the datagram, whatever it
contains (`handlers_read_inside`), and what `dhcp_rx` computes from its reads is `dhcpRx`.
-/

set_option autoImplicit false

namespace AmqOs.Network

open AmqOs.Lib Guarded

/-! ## Reads -/

section Reads

variable {σ : Type} {data : List UInt8} {i : Nat}

theorem readByte_eq (h : i < data.length) : (readByte data i : Reader σ UInt8) = pure (byteAt data i) := if_pos h

theorem readBe16_eq (h : i + 1 < data.length) :
    (readBe16 data i : Reader σ UInt16) = pure (((byteAt data i).toUInt16 <<< 8) ||| (byteAt data (i + 1)).toUInt16) := by
  rw [readBe16, readByte_eq (by omega), pure_bind, readByte_eq h, pure_bind]

theorem readBytes4_eq {word : List UInt8 → Nat → UInt32} (h : i + 3 < data.length) :
    (readBytes4 data i word : Reader σ UInt32) = pure (word data i) := by
  rw [readBytes4, readByte_eq (by omega), pure_bind, readByte_eq (by omega), pure_bind, readByte_eq (by omega), pure_bind,
    readByte_eq h, pure_bind]

end Reads

/-! ## `dns_handler` -/

section Dns

variable {data : List UInt8} {ptr ptr' : Nat}

theorem safe_printFirst : Safe (printFirst data) := by
  refine safe_forLoop.mpr fun i hi t ht => ?_
  rw [readByte_eq (by omega), pure_bind]
  exact safe_pure _

/-- The cursor may jump past the end, which ends the loop. -/
theorem safe_skipQuestionLabels {fuel : Nat} (hfuel : 0 < fuel) (h : data.length < ptr + fuel) :
    Safe (skipQuestionLabels data fuel ptr) := by
  induction fuel generalizing ptr with
  | zero => omega
  | succ fuel ih =>
    rw [skipQuestionLabels]
    split
    · rename_i hin
      rw [readByte_eq hin, pure_bind]
      split
      · exact safe_pure _
      · split
        · exact safe_pure _
        · exact ih (by omega) (by omega)
    · exact safe_pure _

theorem skipZero_eq : skipZero data ptr = pure (if ptr < data.length ∧ byteAt data ptr = 0 then ptr + 1 else ptr) := by
  unfold skipZero
  split
  · rename_i hin
    rw [readByte_eq hin, pure_bind]
    simp [hin]
  · rename_i hin
    rw [if_neg fun h => hin h.1]

theorem safe_skipQuestions {q : Nat} : Safe (skipQuestions data q ptr) := by
  induction q generalizing ptr with
  | zero => exact safe_pure _
  | succ q ih =>
    rw [skipQuestions]
    split
    · refine safe_bind.mpr ⟨safe_skipQuestionLabels (by omega) (by omega), fun p hp => ?_⟩
      rw [skipZero_eq, pure_bind]
      exact ih
    · exact safe_pure _

/-- A label is printed up to the end of the datagram. -/
theorem printLabel_eq {n : Nat} (h : ptr ≤ data.length) : printLabel data n ptr = pure (min (ptr + n) data.length) := by
  induction n generalizing ptr with
  | zero => rw [printLabel, Nat.add_zero, Nat.min_eq_left h]
  | succ n ih =>
    rw [printLabel]
    split
    · rename_i hin
      rw [readByte_eq hin, pure_bind, ih (show ptr + 1 ≤ data.length from hin), Nat.add_assoc, Nat.add_comm 1 n]
    · rw [show min (ptr + (n + 1)) data.length = ptr by omega]

theorem safe_skipAnswerLabels {fuel : Nat} (hfuel : 0 < fuel) (h : data.length < ptr + fuel) :
    Safe (skipAnswerLabels data fuel ptr) := by
  induction fuel generalizing ptr with
  | zero => omega
  | succ fuel ih =>
    rw [skipAnswerLabels]
    split
    · rename_i hin
      rw [readByte_eq hin, pure_bind]
      split
      · exact safe_pure _
      · split
        · exact safe_pure _
        · rw [printLabel_eq (by omega), pure_bind, skipZero_eq, pure_bind]
          exact ih (by omega) (by omega)
    · exact safe_pure _

theorem safe_skipAnswerName (h : ptr < data.length) : Safe (skipAnswerName data ptr) := by
  rw [skipAnswerName, readByte_eq h, pure_bind]
  split
  · exact safe_pure _
  · refine safe_bind.mpr ⟨safe_skipAnswerLabels (by omega) (by omega), fun p hp => ?_⟩
    rw [skipZero_eq]
    exact safe_pure _

/-- The fields of an answer, and its address, lie inside of the datagram when they are read. -/
theorem safe_readAnswers {a : Nat} {s : Dns} : Safe (readAnswers data a ptr s) := by
  induction a generalizing ptr with
  | zero => exact safe_pure _
  | succ a ih =>
    rw [readAnswers]
    split
    · rename_i hin
      refine safe_bind.mpr ⟨safe_skipAnswerName hin, fun p hp => ?_⟩
      split
      · exact safe_pure _
      · rw [readBe16_eq (by omega), pure_bind, readBe16_eq (by omega), pure_bind, readBytes4_eq (by omega), pure_bind,
          readBe16_eq (by omega), pure_bind]
        dsimp only
        split
        · exact safe_pure _
        · rename_i hrdata
          split
          · rename_i haddress
            rw [haddress.2] at hrdata
            have hfour : (4 : UInt16).toNat = 4 := rfl
            rw [readBytes4_eq (by omega), pure_bind]
            exact safe_throw _
          · exact ih
    · exact safe_pure _

theorem safe_dnsHandler (s : Dns) (data : List UInt8) : Safe (dnsHandler s data) := by
  unfold dnsHandler
  split
  · exact safe_throw _
  · refine safe_bind.mpr ⟨safe_printFirst, fun _ _ => ?_⟩
    rw [readBe16_eq (by omega), pure_bind, readBe16_eq (by omega), pure_bind, readBe16_eq (by omega), pure_bind,
      readBe16_eq (by omega), pure_bind, readBe16_eq (by omega), pure_bind, readBe16_eq (by omega), pure_bind]
    split
    · exact safe_throw _
    split
    · exact safe_throw _
    split
    · exact safe_throw _
    split
    · exact safe_throw _
    refine safe_bind.mpr ⟨safe_skipQuestions, fun p hp => ?_⟩
    split
    · exact safe_throw _
    · exact safe_bind.mpr ⟨safe_readAnswers, fun _ _ => safe_pure _⟩

end Dns

/-! ## `dhcp_rx` -/

/-- The value of the option at `i`. -/
def readOption (data : List UInt8) (i : Nat) (opt olen : UInt8) (s : Dhcp × UInt8) : Reader Dhcp (Dhcp × UInt8) :=
  if opt = 53 ∧ olen = 1 then do
    let msgType ← readByte data (i + 2)
    pure (s.1, msgType)
  else if opt = 54 ∧ olen = 4 then do
    let serverIp ← readBytes4 data (i + 2) le32
    pure ({ s.1 with serverIp := serverIp }, s.2)
  else if opt = 1 ∧ olen = 4 then do
    let mask ← readBytes4 data (i + 2) le32
    pure ({ s.1 with mask := mask }, s.2)
  else if opt = 3 ∧ olen ≥ 4 then do
    let gw ← readBytes4 data (i + 2) le32
    pure ({ s.1 with gw := gw }, s.2)
  else if opt = 6 ∧ olen ≥ 4 then do
    let dns ← readBytes4 data (i + 2) le32
    pure ({ s.1 with dns := dns }, s.2)
  else pure s

/-- The loop over the options. -/
def readOptions (data : List UInt8) : Nat → Nat → Dhcp × UInt8 → Reader Dhcp (Dhcp × UInt8)
  | 0, _, _ => (none : Option (Except Dhcp (Dhcp × UInt8)))
  | fuel + 1, i, s =>
    if i < data.length - 2 then do
      let opt ← readByte data i
      if opt = 0xFF then pure s
      else if opt = 0 then readOptions data fuel (i + 1) s
      else do
        let olen ← readByte data (i + 1)
        if i + 2 + olen.toNat > data.length then pure s
        else do
          let s ← readOption data i opt olen s
          readOptions data fuel (i + 2 + olen.toNat) s
    else pure s

/-- `if (data[i] != b) return;` -/
def expectByte (data : List UInt8) (i : Nat) (b : UInt8) (s : Dhcp) : Reader Dhcp Unit := do
  let c ← readByte data i
  if c ≠ b then throw s else pure ()

/-- `dhcp_rx`, read by read. -/
def dhcpRxReads (s : Dhcp) (data : List UInt8) : Reader Dhcp Dhcp :=
  if data.length < 244 then throw s
  else do
    expectByte data 0 2 s
    let pktXid ← readBytes4 data 4 be32
    if pktXid ≠ s.xid then throw s
    else do
      let offerIp ← readBytes4 data 16 le32
      let s := { s with offerIp := offerIp }
      expectByte data 236 0x63 s
      expectByte data 237 0x82 s
      expectByte data 238 0x53 s
      expectByte data 239 0x63 s
      let (s, msgType) ← readOptions data data.length 240 (s, 0)
      pure (if msgType = 2 then { s with gotOffer := true } else if msgType = 5 then { s with gotAck := true } else s)

section Dhcp

variable {data : List UInt8} {i : Nat}

/-- The value lies inside of the datagram. -/
theorem readOption_eq {s : Dhcp × UInt8} (h : i + 2 + (byteAt data (i + 1)).toNat ≤ data.length) :
    readOption data i (byteAt data i) (byteAt data (i + 1)) s = pure (dhcpOption data i s) := by
  have hone : byteAt data (i + 1) = 1 → (byteAt data (i + 1)).toNat = 1 := fun h => by rw [h]; rfl
  have hfour : byteAt data (i + 1) = 4 → (byteAt data (i + 1)).toNat = 4 := fun h => by rw [h]; rfl
  have hmore : byteAt data (i + 1) ≥ 4 → 4 ≤ (byteAt data (i + 1)).toNat := UInt8.le_iff_toNat_le.mp
  unfold readOption dhcpOption
  dsimp only
  split
  · rename_i hopt
    have := hone hopt.2
    rw [readByte_eq (by omega), pure_bind]
  split
  · rename_i hopt
    have := hfour hopt.2
    rw [readBytes4_eq (by omega), pure_bind]
  split
  · rename_i hopt
    have := hfour hopt.2
    rw [readBytes4_eq (by omega), pure_bind]
  split
  · rename_i hopt
    have := hmore hopt.2
    rw [readBytes4_eq (by omega), pure_bind]
  split
  · rename_i hopt
    have := hmore hopt.2
    rw [readBytes4_eq (by omega), pure_bind]
  · rfl

/-- The cursor stays inside of the datagram, and there is fuel for the bytes that are left. -/
theorem readOptions_eq {fuel : Nat} {s : Dhcp × UInt8} (hi : i ≤ data.length) (hfuel : data.length < i + fuel) :
    readOptions data fuel i s = pure (dhcpOptions data fuel i s) := by
  induction fuel generalizing i s with
  | zero => omega
  | succ fuel ih =>
    rw [readOptions, dhcpOptions]
    by_cases hin : i < data.length - 2
    · rw [if_pos hin, readByte_eq (by omega), pure_bind]
      by_cases hend : byteAt data i = 0xFF
      · have hstop : ¬ (i < data.length - 2 ∧ byteAt data i ≠ 0xFF) := fun h => h.2 hend
        rw [if_pos hend, if_neg hstop]
      have hgo : i < data.length - 2 ∧ byteAt data i ≠ 0xFF := ⟨hin, hend⟩
      rw [if_neg hend, if_pos hgo]
      by_cases hpad : byteAt data i = 0
      · rw [if_pos hpad, if_pos hpad]
        exact ih (by omega) (by omega)
      rw [if_neg hpad, if_neg hpad, readByte_eq (by omega), pure_bind]
      by_cases hlong : i + 2 + (byteAt data (i + 1)).toNat > data.length
      · rw [if_pos hlong, if_pos hlong]
      · rw [if_neg hlong, if_neg hlong, readOption_eq (by omega), pure_bind]
        exact ih (by omega) (by omega)
    · have hstop : ¬ (i < data.length - 2 ∧ byteAt data i ≠ 0xFF) := fun h => hin h.1
      rw [if_neg hin, if_neg hstop]

theorem expectByte_eq {b : UInt8} {s : Dhcp} (h : i < data.length) :
    expectByte data i b s = if byteAt data i ≠ b then throw s else pure () := by
  rw [expectByte, readByte_eq h, pure_bind]

/-- What is computed from the reads. -/
theorem final_dhcpRxReads (s : Dhcp) (data : List UInt8) : final (dhcpRxReads s data) = some (dhcpRx s data) := by
  unfold dhcpRxReads dhcpRx
  by_cases hlen : data.length < 244
  · rw [if_pos hlen, if_pos hlen]
    rfl
  rw [if_neg hlen, if_neg hlen, expectByte_eq (by omega)]
  by_cases hop : byteAt data 0 ≠ 2
  · rw [if_pos hop, if_pos hop]
    rfl
  rw [if_neg hop, if_neg hop, pure_bind, readBytes4_eq (by omega), pure_bind]
  by_cases hxid : be32 data 4 ≠ s.xid
  · rw [if_pos hxid, if_pos hxid]
    rfl
  rw [if_neg hxid, if_neg hxid, readBytes4_eq (by omega), pure_bind]
  dsimp only
  rw [expectByte_eq (by omega), expectByte_eq (by omega), expectByte_eq (by omega), expectByte_eq (by omega),
    readOptions_eq (by omega) (by omega), pure_bind]
  -- the first byte of the cookie that differs ends the handler
  by_cases h0 : byteAt data 236 ≠ 0x63
  · rw [if_pos h0, if_pos fun h : HasCookie data => h0 h.1]
    rfl
  rw [if_neg h0, pure_bind]
  by_cases h1 : byteAt data 237 ≠ 0x82
  · rw [if_pos h1, if_pos fun h : HasCookie data => h1 h.2.1]
    rfl
  rw [if_neg h1, pure_bind]
  by_cases h2 : byteAt data 238 ≠ 0x53
  · rw [if_pos h2, if_pos fun h : HasCookie data => h2 h.2.2.1]
    rfl
  rw [if_neg h2, pure_bind]
  by_cases h3 : byteAt data 239 ≠ 0x63
  · rw [if_pos h3, if_pos fun h : HasCookie data => h3 h.2.2.2]
    rfl
  have hcookie : HasCookie data := ⟨not_not.mp h0, not_not.mp h1, not_not.mp h2, not_not.mp h3⟩
  rw [if_neg h3, pure_bind, if_neg (not_not.mpr hcookie)]
  rfl

end Dhcp

/-- **The handlers** end without a read outside of the datagram, for every sequence of bytes. -/
theorem handlers_read_inside (s : Dns) (d : Dhcp) (data : List UInt8) :
    Safe (dnsHandler s data) ∧ Safe (dhcpRxReads d data) ∧ final (dhcpRxReads d data) = some (dhcpRx d data) :=
  ⟨safe_dnsHandler s data, safe_iff_final.mpr ⟨_, final_dhcpRxReads d data⟩, final_dhcpRxReads d data⟩

end AmqOs.Network
