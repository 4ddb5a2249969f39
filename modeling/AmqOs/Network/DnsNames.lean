import AmqOs.Lib.Scan
import AmqOs.Network.PayloadReads

/-!
# The name in a DNS query

`dns_encode_name` writes what it finds between two dots as a label, with its length modulo 256 before it. A decoder
(`decodeQname`) reads back the parts of the hostname exactly when each of them has 1 to 63 characters and the name is not too
long; an empty part ends the name early, and a length from 192 on stands for a pointer. `dns_resolve` sends the query for
every hostname that is not an address (`dnsResolve_query_iff`).
-/

set_option autoImplicit false

namespace AmqOs.Network

open AmqOs.Lib Guarded

/-! ## Decoding -/

/-- The labels of a name up to the zero that ends it, and what follows. -/
def decodeLabels : Nat → List UInt8 → Option (List (List UInt8) × List UInt8)
  | 0, _ => none
  | _ + 1, [] => none
  | fuel + 1, b :: rest =>
    if b = 0 then some ([], rest)
    else if b.toNat ≤ 63 ∧ b.toNat ≤ rest.length then
      (decodeLabels fuel (rest.drop b.toNat)).map fun out => (rest.take b.toNat :: out.1, out.2)
    else none

/-- The labels of a name of at most 255 bytes, and what follows. -/
def decodeQname (bytes : List UInt8) : Option (List (List UInt8) × List UInt8) :=
  (decodeLabels bytes.length bytes).filter fun out => bytes.length - out.2.length ≤ 255

/-- The parts of a hostname between its dots. -/
def hostLabels (hostname : CString) : List (List UInt8) := (hostname.splitOn dot).map fun l => l.map Subtype.val

/-- A query that fits its buffer and asks for the address of the hostname. -/
def QueryOk (hostname : CString) (query : List UInt8) : Prop :=
  query.length ≤ 512 ∧ decodeQname (query.drop 12) = some (hostLabels hostname, [0, 1, 0, 1])

instance (hostname : CString) (query : List UInt8) : Decidable (QueryOk hostname query) :=
  inferInstanceAs (Decidable (_ ∧ _))

/-- Parts of 1 to 63 characters, 255 bytes in all. -/
def NameOk (hostname : CString) : Prop :=
  hostname.length ≤ 253 ∧ ∀ l ∈ hostname.splitOn dot, 1 ≤ l.length ∧ l.length ≤ 63

/-- A label as it is encoded. -/
def encodeLabel (l : CString) : List UInt8 := UInt8.ofNat l.length :: l.map Subtype.val

/-! ## Encoding -/

section Encoding

variable {hostname l : CString} {ls : List CString} {bytes rest : List UInt8} {fuel : Nat}

theorem dot_notMem_of_mem_splitOn (hl : l ∈ hostname.splitOn dot) : dot ∉ l := by
  induction hostname generalizing l with
  | nil =>
    rw [List.splitOn_nil, List.mem_singleton] at hl
    simp [hl]
  | cons c s ih =>
    obtain ⟨g, gs, hs⟩ := List.exists_cons_of_ne_nil (List.splitOn_ne_nil dot s)
    rw [List.splitOn_cons_eq_if_modifyHead, hs] at hl
    rw [hs] at ih
    split at hl
    · rcases List.mem_cons.mp hl with rfl | hl
      · simp
      · exact ih hl
    · rename_i hc
      rcases List.mem_cons.mp hl with rfl | hl
      · intro hmem
        rcases List.mem_cons.mp hmem with hdot | hmem
        · exact hc (beq_iff_eq.mpr hdot.symm)
        · exact ih List.mem_cons_self hmem
      · exact ih (List.mem_cons_of_mem _ hl)

theorem bne_dot_of_notMem (h : dot ∉ l) : ∀ c ∈ l, (c != dot) = true := by
  intro c hc
  rw [bne_iff_ne]
  rintro rfl
  exact h hc

/-- One label, and the rest of the hostname after the dot. -/
theorem encodeLabels_label {s : CString} (hl : l ≠ []) (hdot : dot ∉ l) :
    encodeLabels (fuel + 1) (l ++ dot :: s) = encodeLabel l ++ encodeLabels fuel s := by
  have hstop : StopsAt (· != dot) (dot :: s) := stopsAt_cons (bne_self_eq_false dot)
  obtain ⟨c, l', rfl⟩ := List.exists_cons_of_ne_nil hl
  have htake := takeWhile_append (bne_dot_of_notMem hdot) hstop
  have hdrop := dropWhile_append (bne_dot_of_notMem hdot) hstop
  rw [List.cons_append] at htake hdrop ⊢
  rw [encodeLabels, htake, hdrop]
  rfl

/-- The last label. -/
theorem encodeLabels_last (hl : l ≠ []) (hdot : dot ∉ l) : encodeLabels (fuel + 1) l = encodeLabel l := by
  obtain ⟨c, l', rfl⟩ := List.exists_cons_of_ne_nil hl
  have htake := takeWhile_append (bne_dot_of_notMem hdot) (stopsAt_nil)
  have hdrop := dropWhile_append (bne_dot_of_notMem hdot) (stopsAt_nil)
  rw [List.append_nil] at htake hdrop
  rw [encodeLabels, htake, hdrop]
  cases fuel <;> simp [encodeLabels, encodeLabel]

/-- The labels, one after the other. -/
theorem encodeLabels_intercalate (hne : ls ≠ []) (hls : ∀ l ∈ ls, l ≠ [] ∧ dot ∉ l)
    (hfuel : ([dot].intercalate ls).length ≤ fuel) :
    encodeLabels fuel ([dot].intercalate ls) = ls.flatMap encodeLabel := by
  induction ls generalizing fuel with
  | nil => exact absurd rfl hne
  | cons l ls ih =>
    obtain ⟨hl, hdot⟩ := hls l List.mem_cons_self
    have hpos := List.length_pos_iff.mpr hl
    cases ls with
    | nil =>
      rw [List.intercalate_singleton] at hfuel ⊢
      cases fuel with
      | zero => omega
      | succ fuel => rw [encodeLabels_last hl hdot, List.flatMap_singleton]
    | cons m ms =>
      rw [List.intercalate_cons_cons] at hfuel ⊢
      rw [List.append_assoc, List.singleton_append] at hfuel ⊢
      cases fuel with
      | zero => simp at hfuel
      | succ fuel =>
        rw [List.length_append, List.length_cons] at hfuel
        rw [encodeLabels_label hl hdot, ih (by simp) (fun l hl => hls l (List.mem_cons_of_mem _ hl)) (by omega)]
        rfl

theorem length_encodeLabels_le : (encodeLabels fuel hostname).length ≤ hostname.length + 1 := by
  induction fuel generalizing hostname with
  | zero => simp [encodeLabels]
  | succ fuel ih =>
    cases hostname with
    | nil => simp [encodeLabels]
    | cons c s =>
      have hsplit := congrArg List.length (List.takeWhile_append_dropWhile (p := (· != dot)) (l := c :: s))
      rw [List.length_append] at hsplit
      rw [encodeLabels]
      cases hrest : (c :: s).dropWhile (· != dot) with
      | nil =>
        rw [hrest] at hsplit
        cases fuel <;> simp [encodeLabels] at hsplit ⊢ <;> omega
      | cons d r =>
        have hle := @ih r
        rw [hrest] at hsplit
        simp only [List.length_cons, List.length_append, List.length_map, List.drop_one, List.tail_cons] at hsplit ⊢
        omega

/-- Every label is as long as the part and the dot after it. -/
theorem length_flatMap_encodeLabel (hne : ls ≠ []) :
    (ls.flatMap encodeLabel).length = ([dot].intercalate ls).length + 1 := by
  induction ls with
  | nil => exact absurd rfl hne
  | cons l ls ih =>
    have hlabel : (encodeLabel l).length = l.length + 1 := by simp [encodeLabel]
    cases ls with
    | nil => rw [List.flatMap_singleton, List.intercalate_singleton, hlabel]
    | cons m ms =>
      rw [List.flatMap_cons, List.length_append, ih (by simp), List.intercalate_cons_cons, hlabel]
      simp only [List.length_append, List.length_singleton]
      omega

end Encoding

/-! ## The query -/

section Query

variable {hostname : CString} {ls : List CString} {bytes rest : List UInt8} {fuel : Nat} {queryId : UInt16}

/-- The decoder reads labels of the right length back. -/
theorem decodeLabels_flatMap (hls : ∀ l ∈ ls, 1 ≤ l.length ∧ l.length ≤ 63) (hfuel : ls.length < fuel) :
    decodeLabels fuel (ls.flatMap encodeLabel ++ 0 :: rest) = some (ls.map fun l => l.map Subtype.val, rest) := by
  induction ls generalizing fuel with
  | nil =>
    cases fuel with
    | zero => omega
    | succ fuel => rfl
  | cons l ls ih =>
    obtain ⟨h1, h63⟩ := hls l List.mem_cons_self
    have hbyte : (UInt8.ofNat l.length).toNat = l.length := by
      rw [UInt8.toNat_ofNat']
      omega
    have hne : UInt8.ofNat l.length ≠ 0 := by
      intro h0
      rw [h0] at hbyte
      exact absurd hbyte.symm (by simpa using Nat.one_le_iff_ne_zero.mp h1)
    cases fuel with
    | zero => omega
    | succ fuel =>
      have hrest := ih (fun l hl => hls l (List.mem_cons_of_mem _ hl)) (Nat.lt_of_succ_lt_succ hfuel)
      have hlen : (l.map Subtype.val).length = l.length := List.length_map _
      rw [List.flatMap_cons, List.append_assoc, encodeLabel, List.cons_append, decodeLabels, if_neg hne, hbyte,
        if_pos ⟨h63, by simp⟩, ← hlen, List.drop_left, List.take_left, hrest]
      rfl

/-- Whatever is decoded has labels of the right length. -/
theorem length_of_mem_decodeLabels {out : List (List UInt8)} (h : decodeLabels fuel bytes = some (out, rest)) :
    ∀ l ∈ out, 1 ≤ l.length ∧ l.length ≤ 63 := by
  induction fuel generalizing bytes out with
  | zero => cases h
  | succ fuel ih =>
    cases bytes with
    | nil => cases h
    | cons b bytes =>
      rw [decodeLabels] at h
      split at h
      · cases h
        simp
      · rename_i hne
        split at h
        · rename_i hin
          obtain ⟨out', hout', heq⟩ := Option.map_eq_some_iff.mp h
          cases heq
          intro l hl
          rcases List.mem_cons.mp hl with rfl | hl
          · have hpos : b.toNat ≠ 0 := fun h0 => hne (UInt8.toNat_inj.mp h0)
            rw [List.length_take]
            omega
          · exact ih hout' l hl
        · cases h

theorem length_dnsQuery_le : (dnsQuery queryId hostname).length ≤ hostname.length + 18 := by
  have hle : (encodeLabels hostname.length hostname).length ≤ hostname.length + 1 := length_encodeLabels_le
  simp only [dnsQuery, dnsEncodeName, List.length_append, List.length_cons, List.length_nil]
  omega

theorem drop_dnsQuery : (dnsQuery queryId hostname).drop 12 =
    encodeLabels hostname.length hostname ++ 0 :: [0, 1, 0, 1] := by
  show encodeLabels hostname.length hostname ++ [0] ++ [0, 1, 0, 1] = _
  rw [List.append_assoc]
  rfl

/-- The parts of the hostname as they are encoded, when none is empty. -/
theorem encodeLabels_splitOn (h : ∀ l ∈ hostname.splitOn dot, l ≠ []) :
    encodeLabels hostname.length hostname = (hostname.splitOn dot).flatMap encodeLabel := by
  have hfuel : ([dot].intercalate (hostname.splitOn dot)).length ≤ hostname.length := by rw [List.intercalate_splitOn]
  have hencode := encodeLabels_intercalate (List.splitOn_ne_nil dot hostname)
    (fun l hl => ⟨h l hl, dot_notMem_of_mem_splitOn hl⟩) hfuel
  rwa [List.intercalate_splitOn] at hencode

/-- A query asks for the hostname exactly when the hostname is a name. -/
theorem queryOk_iff (hlen : hostname.length ≤ 255) : QueryOk hostname (dnsQuery queryId hostname) ↔ NameOk hostname := by
  have hfit : (dnsQuery queryId hostname).length ≤ 512 := by
    have hle : (dnsQuery queryId hostname).length ≤ hostname.length + 18 := length_dnsQuery_le
    omega
  -- both sides say that the parts have the right length; for such parts the decoder is right
  have hdecode : (∀ l ∈ hostname.splitOn dot, 1 ≤ l.length ∧ l.length ≤ 63) →
      (QueryOk hostname (dnsQuery queryId hostname) ↔ hostname.length ≤ 253) := by
    intro hls
    have hbytes := encodeLabels_splitOn fun l hl => List.length_pos_iff.mp (hls l hl).1
    have htotal := length_flatMap_encodeLabel (List.splitOn_ne_nil dot hostname)
    rw [List.intercalate_splitOn] at htotal
    have hcount : (hostname.splitOn dot).length ≤ ((hostname.splitOn dot).flatMap encodeLabel).length := by
      rw [List.length_flatMap]
      have hone : ∀ n ∈ (hostname.splitOn dot).map fun l => (encodeLabel l).length, 1 ≤ n := by
        intro n hn
        obtain ⟨l, -, rfl⟩ := List.mem_map.mp hn
        simp [encodeLabel]
      simpa using List.length_le_sum_of_one_le _ hone
    have hlabels : decodeLabels ((hostname.splitOn dot).flatMap encodeLabel ++ 0 :: [0, 1, 0, 1]).length
        ((hostname.splitOn dot).flatMap encodeLabel ++ 0 :: [0, 1, 0, 1]) = some (hostLabels hostname, [0, 1, 0, 1]) := by
      apply decodeLabels_flatMap hls
      rw [List.length_append, List.length_cons]
      omega
    unfold QueryOk decodeQname
    rw [drop_dnsQuery, hbytes, hlabels, Option.filter_some, List.length_append, htotal]
    simp only [List.length_cons, List.length_nil]
    by_cases h253 : hostname.length ≤ 253
    · simp [h253, hfit]
    · simp [h253]
  constructor
  · intro h
    have hls : ∀ l ∈ hostname.splitOn dot, 1 ≤ l.length ∧ l.length ≤ 63 := by
      intro l hl
      obtain ⟨hsome, -⟩ := Option.filter_eq_some_iff.mp h.2
      have hmem : l.map Subtype.val ∈ hostLabels hostname := List.mem_map_of_mem hl
      simpa using length_of_mem_decodeLabels hsome _ hmem
    exact ⟨(hdecode hls).mp h, hls⟩
  · intro h
    exact (hdecode h.2).mpr h.1

end Query

/-! ## What is sent -/

section Sent

variable (polls : Nat → List (List UInt8)) (query : List UInt8)

theorem exists_dnsReceive (s : Dns) (datagrams : List (List UInt8)) : ∃ s', dnsReceive s datagrams = some s' := by
  induction datagrams generalizing s with
  | nil => exact ⟨s, rfl⟩
  | cons data datagrams ih =>
    obtain ⟨s₁, h₁⟩ := safe_iff_final.mp (safe_dnsHandler s data)
    obtain ⟨s', h'⟩ := ih s₁
    refine ⟨s', ?_⟩
    rw [dnsReceive, List.foldlM_cons, h₁]
    exact h'

theorem exists_dnsWait (fuel n : Nat) (s : Dns) : ∃ n' s', dnsWait polls fuel n s = some (n', s') := by
  induction fuel generalizing n s with
  | zero => exact ⟨n, s, rfl⟩
  | succ fuel ih =>
    rw [dnsWait]
    split
    · obtain ⟨s₁, h₁⟩ := exists_dnsReceive s (polls n)
      obtain ⟨n', s', h'⟩ := ih (n + 1) s₁
      exact ⟨n', s', by rw [h₁]; exact h'⟩
    · exact ⟨n, s, rfl⟩

/-- Every attempt sends the query. -/
theorem exists_dnsAttempts (attempts n : Nat) (s : Dns) : ∃ sent s', dnsAttempts polls query attempts n s = some (sent, s') ∧
    (∀ q ∈ sent, q = query) ∧ (attempts ≠ 0 → query ∈ sent) := by
  induction attempts generalizing n s with
  | zero => exact ⟨[], s, rfl, by simp, fun h => absurd rfl h⟩
  | succ attempts ih =>
    obtain ⟨s₁, h₁⟩ := exists_dnsReceive s (polls n)
    obtain ⟨n₂, s₂, h₂⟩ : ∃ n₂ s₂, dnsWait polls (2000 * 100) (n + 1) s₁ = some (n₂, s₂) := exists_dnsWait _ _ _ _
    rw [dnsAttempts, h₁, Option.bind_eq_bind, Option.bind_some, h₂, Option.bind_eq_bind, Option.bind_some]
    dsimp only
    split
    · obtain ⟨sent, s', h', hsent, -⟩ := ih n₂ s₂
      refine ⟨query :: sent, s', by rw [h']; rfl, ?_, fun _ => List.mem_cons_self⟩
      intro q hq
      rcases List.mem_cons.mp hq with rfl | hq
      · rfl
      · exact hsent q hq
    · exact ⟨[query], s₂, rfl, by simp, fun _ => List.mem_cons_self⟩

end Sent

/-- For a hostname that is not an address, the query is sent at least once, and nothing else is. -/
theorem exists_dnsResolve (s : Dns) {hostname : CString} (polls : Nat → List (List UInt8))
    (hname : isIpAddress hostname = false) : ∃ ip sent s', dnsResolve s hostname polls = some (ip, sent, s') ∧
      (∀ q ∈ sent, q = dnsQuery (s.queryId + 1) hostname) ∧ dnsQuery (s.queryId + 1) hostname ∈ sent := by
  unfold dnsResolve
  rw [if_neg (by simp [hname])]
  obtain ⟨sent, s', h', hsent, hmem⟩ := exists_dnsAttempts polls (dnsQuery (s.queryId + 1) hostname) 3 0
    ⟨if s.server = 0 then 0x08080808 else s.server, 0, true, s.queryId + 1⟩
  refine ⟨if s'.resolvedIp = 0 then none else some s'.resolvedIp, sent, s', ?_, hsent, hmem (by omega)⟩
  dsimp only
  rw [h']
  rfl

/-- **The query.** Whatever arrives, all that `dns_resolve` sends for a hostname asks for this hostname exactly when it is a
name. -/
theorem dnsResolve_query_iff (s : Dns) {hostname : CString} (polls : Nat → List (List UInt8)) (hlen : hostname.length ≤ 255)
    (hname : isIpAddress hostname = false) : ∃ ip sent s', dnsResolve s hostname polls = some (ip, sent, s') ∧
      ((∀ query ∈ sent, QueryOk hostname query) ↔ NameOk hostname) := by
  obtain ⟨ip, sent, s', h', hsent, hmem⟩ := exists_dnsResolve s polls hname
  refine ⟨ip, sent, s', h', ?_⟩
  have hiff : QueryOk hostname (dnsQuery (s.queryId + 1) hostname) ↔ NameOk hostname := queryOk_iff hlen
  rw [← hiff]
  constructor
  · intro h
    exact h _ hmem
  · intro h query hquery
    rw [hsent query hquery]
    exact h

/-- `a.b` -/
def twoLabels : CString := CString.ofBytes [0x61, dot.val, 0x62]

theorem dnsResolve_query_twoLabels : ∃ ip sent s',
    dnsResolve ⟨0, 0, false, 0x1234⟩ twoLabels (fun _ => []) = some (ip, sent, s') ∧
    ((∀ query ∈ sent, QueryOk twoLabels query) ↔ NameOk twoLabels) :=
  dnsResolve_query_iff _ _ (by decide) (by decide)

/-- `a..b` -/
def emptyLabel : CString := CString.ofBytes [0x61, dot.val, dot.val, 0x62]

/-- The empty part is taken for the end of the name. -/
theorem emptyLabel_cut : ¬ ∀ (s : Dns) (hostname : CString) (polls : Nat → List (List UInt8)), hostname.length ≤ 255 →
    isIpAddress hostname = false → ∃ ip sent s', dnsResolve s hostname polls = some (ip, sent, s') ∧
      ∀ query ∈ sent, QueryOk hostname query := by
  intro h
  obtain ⟨ip, sent, s', hrun, hok⟩ := h ⟨0, 0, false, 0x1234⟩ emptyLabel (fun _ => []) (by decide) (by decide)
  obtain ⟨ip₁, sent₁, s₁, hrun₁, -, hmem⟩ := exists_dnsResolve ⟨0, 0, false, 0x1234⟩ (fun _ => [])
    (show isIpAddress emptyLabel = false by decide)
  rw [hrun₁] at hrun
  cases hrun
  exact absurd (hok _ hmem) (by decide)

end AmqOs.Network
