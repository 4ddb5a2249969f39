import AmqOs.Lib.Decimal
import AmqOs.Lib.Loop

/-!
# Addresses as text

The model of `is_ip_address` of `dns.c` and of `net_print_ip` and `net_parse_ip` of `net.c`, with the digits that
`print_unsigned` prints. The recogniser accepts four groups of one to three digits (`isIpAddress_iff`), whatever their
values; the parser reads the groups into four words and puts these together. An accepted text is read right as long as no
group is above 255 (`netParseIp_accepted_iff`), and what is printed reads back as the address (`netParseIp_netPrintIp`).
-/

set_option autoImplicit false

namespace AmqOs.Network

open AmqOs.Lib CString

/-! ## The code -/

/-- `'.'`. -/
def dot : CChar := ⟨46, by decide⟩

/-- The loop of `is_ip_address`. -/
def isIpFrom : CString → Nat → Nat → Bool
  | [], dots, digits => dots == 3 && digits > 0 && digits ≤ 3
  | p :: str, dots, digits =>
    if p = dot then
      if digits = 0 || digits > 3 then false else isIpFrom str (dots + 1) 0
    else if isDigit p then isIpFrom str dots (digits + 1)
    else false

/-- `is_ip_address`. -/
def isIpAddress (str : CString) : Bool := isIpFrom str 0 0

/-- The loop of `net_parse_ip`. -/
def parseIpFrom : CString → Vector UInt32 4 → Nat → Vector UInt32 4
  | [], octets, _ => octets
  | c :: str, octets, idx =>
    if idx < 4 then
      if isDigit c then parseIpFrom str (put octets idx (entry octets idx * 10 + UInt32.ofNat (digitVal c))) idx
      else if c = dot then parseIpFrom str octets (idx + 1)
      else parseIpFrom str octets idx
    else octets

/-- `octets[0] | (octets[1] << 8) | (octets[2] << 16) | (octets[3] << 24)`. -/
def ofOctets (octets : Vector UInt32 4) : UInt32 :=
  octets[0] ||| (octets[1] <<< 8) ||| (octets[2] <<< 16) ||| (octets[3] <<< 24)

/-- `net_parse_ip`. -/
def netParseIp (str : CString) : UInt32 := ofOctets (parseIpFrom str (Vector.replicate 4 0) 0)

/-- `print_unsigned` in base 10, with its buffer of 32 digits. -/
def printUnsigned (num : Nat) : CString := if num = 0 then [digitChar 0] else (digitsOf 32 num).reverse

/-- The arguments of the format in `net_print_ip`. -/
def octets (ip : UInt32) : List UInt32 := [(ip >>> 0) &&& 0xFF, (ip >>> 8) &&& 0xFF, (ip >>> 16) &&& 0xFF, (ip >>> 24) &&& 0xFF]

/-- `net_print_ip`. -/
def netPrintIp (ip : UInt32) : CString := [dot].intercalate ((octets ip).map fun o => printUnsigned o.toNat)

/-! ## What is accepted -/

/-- Four groups of one to three digits. -/
def DottedQuad (str : CString) : Prop :=
  (str.splitOn dot).length = 4 ∧
    ∀ g ∈ str.splitOn dot, 1 ≤ g.length ∧ g.length ≤ 3 ∧ ∀ c ∈ g, isDigit c = true

/-- The groups that are left, after `dots` dots and `digits` digits of the first of them. -/
def Groups (dots digits : Nat) : List CString → Prop
  | [] => False
  | g :: gs => dots + gs.length = 3 ∧ (1 ≤ digits + g.length ∧ digits + g.length ≤ 3 ∧ ∀ c ∈ g, isDigit c = true) ∧
      ∀ h ∈ gs, 1 ≤ h.length ∧ h.length ≤ 3 ∧ ∀ c ∈ h, isDigit c = true

theorem isDigit_dot : isDigit dot = false := rfl

theorem groups_nil_cons {dots digits : Nat} {gs : List CString} (hgs : gs ≠ []) :
    Groups dots digits ([] :: gs) ↔ 1 ≤ digits ∧ digits ≤ 3 ∧ Groups (dots + 1) 0 gs := by
  cases gs with
  | nil => exact absurd rfl hgs
  | cons g gs =>
    simp only [Groups, List.length_cons, List.length_nil, Nat.add_zero, Nat.zero_add, List.not_mem_nil, false_imp_iff,
      implies_true, and_true, List.forall_mem_cons]
    constructor
    · rintro ⟨hlen, ⟨h1, h3⟩, hg, hgs⟩
      exact ⟨h1, h3, by omega, hg, hgs⟩
    · rintro ⟨h1, h3, hlen, hg, hgs⟩
      exact ⟨by omega, ⟨h1, h3⟩, hg, hgs⟩

theorem groups_cons_cons {dots digits : Nat} {c : CChar} {gs : List CString} (hgs : gs ≠ []) :
    Groups dots digits (gs.modifyHead (c :: ·)) ↔ isDigit c = true ∧ Groups dots (digits + 1) gs := by
  cases gs with
  | nil => exact absurd rfl hgs
  | cons g gs =>
    simp only [List.modifyHead_cons, Groups, List.length_cons, List.forall_mem_cons, ← Nat.add_assoc,
      Nat.add_right_comm digits g.length 1]
    constructor
    · rintro ⟨hlen, ⟨h1, h3, hc, hg⟩, hrest⟩
      exact ⟨hc, hlen, ⟨h1, h3, hg⟩, hrest⟩
    · rintro ⟨hc, hlen, ⟨h1, h3, hg⟩, hrest⟩
      exact ⟨hlen, ⟨h1, h3, hc, hg⟩, hrest⟩

/-- The loop accepts the groups that are left. -/
theorem isIpFrom_iff {str : CString} {dots digits : Nat} :
    isIpFrom str dots digits = true ↔ Groups dots digits (str.splitOn dot) := by
  induction str generalizing dots digits with
  | nil =>
    simp only [isIpFrom, Bool.and_eq_true, beq_iff_eq, decide_eq_true_eq, List.splitOn_nil, Groups]
    simp
    omega
  | cons c str ih =>
    have hne : str.splitOn dot ≠ [] := List.splitOn_ne_nil dot str
    rw [isIpFrom, List.splitOn_cons_eq_if_modifyHead]
    by_cases hc : c = dot
    · rw [if_pos hc, if_pos (beq_iff_eq.mpr hc), groups_nil_cons hne, ← ih]
      by_cases hd : digits = 0 || digits > 3
      · rw [if_pos hd]
        simp only [Bool.or_eq_true, decide_eq_true_eq] at hd
        simp only [Bool.false_eq_true, false_iff]
        omega
      · rw [if_neg hd]
        simp only [Bool.or_eq_true, decide_eq_true_eq] at hd
        constructor
        · exact fun h => ⟨by omega, by omega, h⟩
        · exact fun h => h.2.2
    · rw [if_neg hc, if_neg (mt beq_iff_eq.mp hc), groups_cons_cons hne, ← ih]
      by_cases hd : isDigit c = true
      · simp [hd]
      · simp [hd]

/-- **The recogniser.** -/
theorem isIpAddress_iff {str : CString} : isIpAddress str = true ↔ DottedQuad str := by
  rw [isIpAddress, isIpFrom_iff, DottedQuad]
  cases hs : str.splitOn dot with
  | nil => exact absurd hs (List.splitOn_ne_nil dot str)
  | cons g gs =>
    simp only [Groups, List.length_cons, List.forall_mem_cons, Nat.zero_add]
    constructor
    · rintro ⟨hlen, hg, hgs⟩
      exact ⟨by omega, hg, hgs⟩
    · rintro ⟨hlen, hg, hgs⟩
      exact ⟨by omega, hg, hgs⟩

/-! ## What is read -/

/-- The address is the one that the groups of the text stand for, none of them above 255. -/
def ReadsAs (ip : UInt32) (str : CString) : Prop :=
  (∀ g ∈ str.splitOn dot, decimal g ≤ 255) ∧ (octets ip).map UInt32.toNat = (str.splitOn dot).map decimal

theorem put_entry_self {v : Vector UInt32 4} {i : Nat} : put v i (entry v i) = v := by
  apply entry_ext
  intro j hj
  rw [entry_put _ _ _ hj]
  split
  · rename_i h
    rw [h]
  · rfl

theorem put_put {v : Vector UInt32 4} {i : Nat} {a b : UInt32} : put (put v i a) i b = put v i b := by
  apply entry_ext
  intro j hj
  rw [entry_put _ _ _ hj, entry_put _ _ _ hj, entry_put _ _ _ hj]
  split
  · rfl
  · rfl

/-- A group of digits is read into its word. -/
theorem parseIpFrom_digits {g rest : CString} {v : Vector UInt32 4} {idx n : Nat} (hg : ∀ c ∈ g, isDigit c = true)
    (hidx : idx < 4) (hv : entry v idx = UInt32.ofNat n) :
    parseIpFrom (g ++ rest) v idx = parseIpFrom rest (put v idx (UInt32.ofNat (decimalFrom n g))) idx := by
  induction g generalizing v n with
  | nil =>
    rw [List.nil_append, decimalFrom, List.foldl_nil, ← hv, put_entry_self]
  | cons c g ih =>
    have hc := hg c List.mem_cons_self
    have hword : entry v idx * 10 + UInt32.ofNat (digitVal c) = UInt32.ofNat (n * 10 + digitVal c) := by
      rw [hv, UInt32.ofNat_add, UInt32.ofNat_mul]
      rfl
    have hput : entry (put v idx (UInt32.ofNat (n * 10 + digitVal c))) idx = UInt32.ofNat (n * 10 + digitVal c) := by
      rw [entry_put _ _ _ hidx, if_pos rfl]
    rw [List.cons_append, parseIpFrom, if_pos hidx, if_pos hc, hword, ih (fun d hd => hg d (List.mem_cons_of_mem _ hd)) hput,
      put_put]
    rfl

theorem parseIpFrom_dot {rest : CString} {v : Vector UInt32 4} {idx : Nat} (hidx : idx < 4) :
    parseIpFrom (dot :: rest) v idx = parseIpFrom rest v (idx + 1) := by
  rw [parseIpFrom, if_pos hidx, isDigit_dot]
  rfl

/-- The words of four groups of digits. -/
theorem parseIpFrom_groups {a b c d : CString} (ha : ∀ x ∈ a, isDigit x = true) (hb : ∀ x ∈ b, isDigit x = true)
    (hc : ∀ x ∈ c, isDigit x = true) (hd : ∀ x ∈ d, isDigit x = true) :
    parseIpFrom ([dot].intercalate [a, b, c, d]) (Vector.replicate 4 0) 0 = #v[UInt32.ofNat (decimal a),
      UInt32.ofNat (decimal b), UInt32.ofNat (decimal c), UInt32.ofNat (decimal d)] := by
  have htext : [dot].intercalate [a, b, c, d] = a ++ dot :: (b ++ dot :: (c ++ dot :: (d ++ []))) := by
    simp [List.intercalate]
  have hzero : ∀ i < 4, entry (Vector.replicate 4 (0 : UInt32)) i = UInt32.ofNat 0 := by decide
  rw [htext, parseIpFrom_digits ha (by omega) (hzero 0 (by omega)), parseIpFrom_dot (by omega),
    parseIpFrom_digits hb (by omega) (by rw [entry_put _ _ _ (by omega), if_neg (by omega)]; exact hzero 1 (by omega)),
    parseIpFrom_dot (by omega),
    parseIpFrom_digits hc (by omega) (by
      rw [entry_put _ _ _ (by omega), if_neg (by omega), entry_put _ _ _ (by omega), if_neg (by omega)]
      exact hzero 2 (by omega)),
    parseIpFrom_dot (by omega),
    parseIpFrom_digits hd (by omega) (by
      rw [entry_put _ _ _ (by omega), if_neg (by omega), entry_put _ _ _ (by omega), if_neg (by omega),
        entry_put _ _ _ (by omega), if_neg (by omega)]
      exact hzero 3 (by omega))]
  rfl

theorem toNat_octets (ip : UInt32) : (octets ip).map UInt32.toNat =
    [ip.toNat % 256, ip.toNat / 256 % 256, ip.toNat / 65536 % 256, ip.toNat / 16777216 % 256] := by
  have hmask : ∀ n : Nat, n &&& 255 = n % 256 := fun n => Nat.and_two_pow_sub_one_eq_mod n 8
  simp [octets, Nat.shiftRight_eq_div_pow, hmask]

/-- The address with four octets. -/
theorem toNat_ofOctets {a b c d : Nat} (ha : a < 256) (hb : b < 256) (hc : c < 256) (hd : d < 256) :
    (ofOctets #v[UInt32.ofNat a, UInt32.ofNat b, UInt32.ofNat c, UInt32.ofNat d]).toNat =
      a + 256 * b + 65536 * c + 16777216 * d := by
  have hword : ∀ n k : Nat, n < 256 → k ≤ 24 → (UInt32.ofNat n <<< UInt32.ofNat k).toNat = n <<< k := by
    intro n k hn hk
    have hpow : 2 ^ k ≤ 2 ^ 24 := Nat.pow_le_pow_right (by omega) hk
    have hlt : n * 2 ^ k < 2 ^ 32 := by nlinarith
    rw [UInt32.toNat_shiftLeft, UInt32.toNat_ofNat', UInt32.toNat_ofNat', Nat.mod_eq_of_lt (show n < 2 ^ 32 by omega),
      Nat.mod_eq_of_lt (show k < 2 ^ 32 by omega), Nat.mod_eq_of_lt (show k < 32 by omega), Nat.shiftLeft_eq,
      Nat.mod_eq_of_lt hlt]
  have hor : ∀ x y k, x < 2 ^ k → x ||| y <<< k = x + y * 2 ^ k := by
    intro x y k hx
    rw [Nat.or_comm, ← Nat.shiftLeft_add_eq_or_of_lt hx, Nat.shiftLeft_eq, Nat.add_comm]
  have hof : ofOctets #v[UInt32.ofNat a, UInt32.ofNat b, UInt32.ofNat c, UInt32.ofNat d] =
      UInt32.ofNat a ||| UInt32.ofNat b <<< UInt32.ofNat 8 ||| UInt32.ofNat c <<< UInt32.ofNat 16 |||
        UInt32.ofNat d <<< UInt32.ofNat 24 := rfl
  rw [hof, UInt32.toNat_or, UInt32.toNat_or, UInt32.toNat_or, hword b 8 hb (by omega), hword c 16 hc (by omega),
    hword d 24 hd (by omega), UInt32.toNat_ofNat', Nat.mod_eq_of_lt (show a < 2 ^ 32 by omega), hor a b 8 (by omega),
    hor _ c 16 (by omega), hor _ d 24 (by omega)]
  omega

/-- **Reading** four groups of digits that are not above 255. -/
theorem toNat_octets_netParseIp {a b c d : CString} (ha : ∀ x ∈ a, isDigit x = true) (hb : ∀ x ∈ b, isDigit x = true)
    (hc : ∀ x ∈ c, isDigit x = true) (hd : ∀ x ∈ d, isDigit x = true) (hvalues : ∀ g ∈ [a, b, c, d], decimal g ≤ 255) :
    (octets (netParseIp ([dot].intercalate [a, b, c, d]))).map UInt32.toNat = [a, b, c, d].map decimal := by
  simp only [List.forall_mem_cons] at hvalues
  obtain ⟨hva, hvb, hvc, hvd, -⟩ := hvalues
  rw [netParseIp, parseIpFrom_groups ha hb hc hd, toNat_octets, toNat_ofOctets (by omega) (by omega) (by omega) (by omega)]
  simp only [List.map_cons, List.map_nil, List.cons.injEq, and_true]
  omega

/-! ## Printing -/

theorem isDigit_of_mem_printUnsigned {num : Nat} {c : CChar} (h : c ∈ printUnsigned num) : isDigit c = true := by
  unfold printUnsigned at h
  split at h
  · rw [List.mem_singleton] at h
    rw [h]
    exact isDigit_digitChar 0
  · exact isDigit_of_mem_digitsOf (List.mem_reverse.mp h)

/-- A printed number reads back. -/
theorem decimal_printUnsigned {num : Nat} (h : num < 10 ^ 32) : decimal (printUnsigned num) = num := by
  unfold printUnsigned
  split
  · rename_i h0
    rw [h0]
    rfl
  · exact decimal_reverse_digitsOf h

/-- **Printing and reading** an address. -/
theorem netParseIp_print (ip : UInt32) : netParseIp (netPrintIp ip) = ip := by
  have hlt : ∀ o ∈ octets ip, o.toNat < 256 := by
    intro o ho
    have hmem : o.toNat ∈ (octets ip).map UInt32.toNat := List.mem_map_of_mem ho
    rw [toNat_octets] at hmem
    simp only [List.mem_cons, List.not_mem_nil, or_false] at hmem
    omega
  have hdecimal : ∀ o ∈ octets ip, decimal (printUnsigned o.toNat) = o.toNat := by
    intro o ho
    exact decimal_printUnsigned (lt_trans (hlt o ho) (by norm_num))
  have hread : (octets (netParseIp (netPrintIp ip))).map UInt32.toNat = (octets ip).map UInt32.toNat := by
    have hgroups := fun n => fun x (hx : x ∈ printUnsigned n) => isDigit_of_mem_printUnsigned hx
    have hparse := toNat_octets_netParseIp (hgroups ((ip >>> 0) &&& 0xFF).toNat) (hgroups ((ip >>> 8) &&& 0xFF).toNat)
      (hgroups ((ip >>> 16) &&& 0xFF).toNat) (hgroups ((ip >>> 24) &&& 0xFF).toNat) (by
        intro g hg
        obtain ⟨o, ho, rfl⟩ := List.mem_map.mp (show g ∈ (octets ip).map fun o => printUnsigned o.toNat from hg)
        rw [hdecimal o ho]
        have := hlt o ho
        omega)
    refine hparse.trans ?_
    show ((octets ip).map fun o => printUnsigned o.toNat).map decimal = _
    rw [List.map_map]
    exact List.map_congr_left hdecimal
  rw [toNat_octets, toNat_octets] at hread
  simp only [List.cons.injEq, and_true] at hread
  apply UInt32.toNat_inj.mp
  have h1 := (netParseIp (netPrintIp ip)).toNat_lt
  have h2 := ip.toNat_lt
  omega

/-- **Addresses as text.** An accepted text is read right exactly when no group of it is above 255, and every address
reads back from what is printed. -/
theorem netParseIp_accepted_iff (str : CString) (ip : UInt32) :
    ((isIpAddress str = true → ReadsAs (netParseIp str) str) ↔
      ¬ (DottedQuad str ∧ ∃ g ∈ str.splitOn dot, 255 < decimal g)) ∧ netParseIp (netPrintIp ip) = ip := by
  refine ⟨?_, netParseIp_print ip⟩
  rw [isIpAddress_iff]
  constructor
  · rintro h ⟨hquad, g, hg, hbig⟩
    have := (h hquad).1 g hg
    omega
  · intro h hquad
    have hvalues : ∀ g ∈ str.splitOn dot, decimal g ≤ 255 := by
      intro g hg
      by_contra hbig
      exact h ⟨hquad, g, hg, by omega⟩
    refine ⟨hvalues, ?_⟩
    obtain ⟨hlen, hgroups⟩ := hquad
    obtain ⟨a, b, c, d, hs⟩ := List.length_eq_four.mp hlen
    have htext : str = [dot].intercalate [a, b, c, d] := by rw [← hs, List.intercalate_splitOn]
    rw [hs] at hvalues hgroups ⊢
    rw [htext]
    exact toNat_octets_netParseIp (hgroups a (by simp)).2.2 (hgroups b (by simp)).2.2 (hgroups c (by simp)).2.2
      (hgroups d (by simp)).2.2 hvalues

/-- `999.1.1.1`. -/
def bigGroup : CString := [digitChar 9, digitChar 9, digitChar 9, dot, digitChar 1, dot, digitChar 1, dot, digitChar 1]

/-- It is accepted. -/
theorem bigGroup_accepted : ¬ ∀ (str : CString) (ip : UInt32),
    (isIpAddress str = true → ReadsAs (netParseIp str) str) ∧ netParseIp (netPrintIp ip) = ip := by
  intro h
  have hvalues := ((h bigGroup 0).1 (by decide)).1
  exact absurd hvalues (by decide)

end AmqOs.Network
