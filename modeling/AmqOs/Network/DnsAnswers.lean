import AmqOs.Network.PayloadReads

/-!
# The answers of a DNS response

A response as its sender means it (`DnsResponse`), with names that are labels, a pointer, or labels followed by a pointer,
and its bytes. `dns_handler` steps over the names with a cursor. When the label loop has jumped over a pointer, the test for
the zero at the end of a name is made all the same: it takes the high byte of a type below 256 for this zero, and every later
field is read one byte too late. Where no name that is read is of this kind, the handler finds the first address
(`dnsHandler_address`); in a message of at most 1024 bytes, an address behind such a name is lost (`dnsHandler_lost`).
-/

set_option autoImplicit false

namespace AmqOs.Network

open AmqOs.Lib Guarded

/-! ## Responses -/

/-- The bytes of a label. -/
abbrev DnsLabel := { l : List UInt8 // 1 ≤ l.length ∧ l.length ≤ 63 }

/-- A name: labels, and a pointer to an earlier name or the root. -/
structure DnsName where
  labels : List DnsLabel
  pointer : Option (Fin 0x4000)

structure DnsQuestion where
  name : DnsName
  qtype : UInt16
  qclass : UInt16

structure DnsRecord where
  name : DnsName
  type : UInt16
  cls : UInt16
  ttl : UInt32
  rdata : { l : List UInt8 // l.length < 2 ^ 16 }

/-- Sections have 16-bit counts. -/
abbrev DnsSection (α : Type) := { l : List α // l.length < 2 ^ 16 }

/-- A response without an error. -/
structure DnsResponse where
  id : UInt16
  flags : UInt16
  questions : DnsSection DnsQuestion
  answers : DnsSection DnsRecord
  authority : DnsSection DnsRecord
  additional : DnsSection DnsRecord
  response : flags &&& 0x8000 ≠ 0
  noError : flags &&& 0x000F = 0

/-- The high byte of a word, then the low one. -/
def wire16 (v : UInt16) : List UInt8 := [(v >>> 8).toUInt8, v.toUInt8]

def wire32 (v : UInt32) : List UInt8 := [(v >>> 24).toUInt8, (v >>> 16).toUInt8, (v >>> 8).toUInt8, v.toUInt8]

def DnsLabel.wire (l : DnsLabel) : List UInt8 := UInt8.ofNat l.val.length :: l.val

/-- The end of a name. -/
def DnsName.tailWire (n : DnsName) : List UInt8 :=
  match n.pointer with
  | none => [0]
  | some p => [0xC0 ||| UInt8.ofNat (p.val / 256), UInt8.ofNat (p.val % 256)]

def DnsName.wire (n : DnsName) : List UInt8 := n.labels.flatMap DnsLabel.wire ++ n.tailWire

def DnsQuestion.wire (q : DnsQuestion) : List UInt8 := q.name.wire ++ (wire16 q.qtype ++ wire16 q.qclass)

/-- The fields of a record after its name and before its data. -/
def DnsRecord.fields (r : DnsRecord) : List UInt8 :=
  wire16 r.type ++ (wire16 r.cls ++ (wire32 r.ttl ++ wire16 (UInt16.ofNat r.rdata.val.length)))

def DnsRecord.wire (r : DnsRecord) : List UInt8 := r.name.wire ++ (r.fields ++ r.rdata.val)

def DnsResponse.wire (r : DnsResponse) : List UInt8 :=
  wire16 r.id ++ (wire16 r.flags ++ (wire16 (UInt16.ofNat r.questions.val.length) ++
    (wire16 (UInt16.ofNat r.answers.val.length) ++ (wire16 (UInt16.ofNat r.authority.val.length) ++
      (wire16 (UInt16.ofNat r.additional.val.length) ++ (r.questions.val.flatMap DnsQuestion.wire ++
        (r.answers.val.flatMap DnsRecord.wire ++ (r.authority.val.flatMap DnsRecord.wire ++
          r.additional.val.flatMap DnsRecord.wire))))))))

/-- A record of type A with four bytes of data. -/
def DnsRecord.IsAddress (r : DnsRecord) : Prop := r.type = 1 ∧ r.rdata.val.length = 4

instance (r : DnsRecord) : Decidable r.IsAddress := inferInstanceAs (Decidable (_ ∧ _))

/-- The address in the first record that has one. -/
def firstAddress (answers : List DnsRecord) : Option UInt32 :=
  (answers.find? fun r => r.IsAddress).map fun r => le32 r.rdata.val 0

/-! ## Names that are read right -/

/-- After a pointer that the label loop of the questions comes to, a type from 256 on. -/
def DnsQuestion.Clear (q : DnsQuestion) : Prop := q.name.pointer ≠ none → 256 ≤ q.qtype.toNat

/-- After a pointer that the label loop of the answers comes to, a type from 256 on. -/
def DnsRecord.Clear (r : DnsRecord) : Prop := r.name.labels ≠ [] → r.name.pointer ≠ none → 256 ≤ r.type.toNat

/-- The records up to the first address are read right. -/
def AnswersClear : List DnsRecord → Prop
  | [] => True
  | r :: rs => r.Clear ∧ (r.IsAddress ∨ AnswersClear rs)

/-- The names that are read are read right; without answers no name is read. -/
def DnsResponse.Clear (r : DnsResponse) : Prop :=
  (r.answers.val ≠ [] → ∀ q ∈ r.questions.val, q.Clear) ∧ AnswersClear r.answers.val

/-! ## Reading at a cursor -/

section Cursor

variable {σ : Type} {data l rest : List UInt8} {p k : Nat} {b : UInt8}

theorem lt_of_drop (h : data.drop p = b :: rest) : p < data.length := by
  have hlen := congrArg List.length h
  rw [List.length_drop, List.length_cons] at hlen
  omega

theorem add_le_of_drop (h : data.drop p = l ++ rest) (hl : l ≠ []) : p + l.length ≤ data.length := by
  have hlen := congrArg List.length h
  have hpos := List.length_pos_iff.mpr hl
  rw [List.length_drop, List.length_append] at hlen
  omega

theorem drop_add_of_drop (h : data.drop p = l ++ rest) : data.drop (p + l.length) = rest := by
  rw [← List.drop_drop, h, List.drop_left]

theorem byteAt_of_drop (h : data.drop p = l ++ rest) (hk : k < l.length) : byteAt data (p + k) = byteAt l k := by
  have hget : (data.drop p)[k]? = l[k]? := by rw [h, List.getElem?_append_left hk]
  rw [List.getElem?_drop] at hget
  simp only [byteAt, List.getD_eq_getElem?_getD, hget]

theorem byteAt_cons_of_drop (h : data.drop p = b :: rest) : byteAt data p = b :=
  byteAt_of_drop (k := 0) (show data.drop p = [b] ++ rest from h) (by simp)

theorem readByte_of_drop (h : data.drop p = b :: rest) : (readByte data p : Reader σ UInt8) = pure b := by
  rw [readByte_eq (lt_of_drop h), byteAt_cons_of_drop h]

theorem ofBytes_wire16 (v : UInt16) : ((v >>> 8).toUInt8.toUInt16 <<< 8) ||| v.toUInt8.toUInt16 = v := by
  apply UInt16.toNat_inj.mp
  have hv := v.toNat_lt
  have hhigh : ((v >>> 8).toUInt8.toUInt16 <<< 8).toNat = (v.toNat / 256) <<< 8 := by
    simp only [UInt16.toNat_shiftLeft, UInt8.toNat_toUInt16, UInt16.toNat_toUInt8, UInt16.toNat_shiftRight,
      UInt16.reduceToNat, Nat.reduceMod, Nat.shiftRight_eq_div_pow, Nat.shiftLeft_eq]
    omega
  have hlow : v.toUInt8.toUInt16.toNat = v.toNat % 256 := by
    simp only [UInt8.toNat_toUInt16, UInt16.toNat_toUInt8]
  rw [UInt16.toNat_or, hhigh, hlow, ← Nat.shiftLeft_add_eq_or_of_lt (by omega), Nat.shiftLeft_eq]
  omega

theorem readBe16_of_drop {v : UInt16} (h : data.drop p = wire16 v ++ rest) :
    (readBe16 data p : Reader σ UInt16) = pure v := by
  have hlen := add_le_of_drop h (by simp [wire16])
  have h0 := byteAt_of_drop (k := 0) h (by simp [wire16])
  have h1 := byteAt_of_drop (k := 1) h (by simp [wire16])
  rw [readBe16_eq (by simp [wire16] at hlen; omega)]
  rw [Nat.add_zero] at h0
  rw [h0, h1]
  exact congrArg _ (ofBytes_wire16 v)

theorem le32_of_drop (h : data.drop p = l ++ rest) (hl : l.length = 4) : le32 data p = le32 l 0 := by
  have h0 := byteAt_of_drop (k := 0) h (by omega)
  have h1 := byteAt_of_drop (k := 1) h (by omega)
  have h2 := byteAt_of_drop (k := 2) h (by omega)
  have h3 := byteAt_of_drop (k := 3) h (by omega)
  rw [Nat.add_zero] at h0
  simp only [le32, h0, h1, h2, h3]

end Cursor

/-! ## Names -/

section Names

variable {data rest : List UInt8} {p : Nat}

/-- The length byte of a label. -/
theorem label_byte (l : DnsLabel) : UInt8.ofNat l.val.length ≠ 0 ∧ UInt8.ofNat l.val.length &&& 0xC0 ≠ 0xC0 ∧
    (UInt8.ofNat l.val.length).toNat = l.val.length := by
  obtain ⟨h1, h63⟩ := l.property
  have hall : ∀ n : Fin 64, 1 ≤ n.val → UInt8.ofNat n.val ≠ 0 ∧ UInt8.ofNat n.val &&& 0xC0 ≠ 0xC0 ∧
      (UInt8.ofNat n.val).toNat = n.val := by decide
  exact hall ⟨l.val.length, by omega⟩ h1

/-- The first byte of a pointer. -/
theorem pointer_byte (x : UInt8) : 0xC0 ||| x ≠ 0 ∧ (0xC0 ||| x) &&& 0xC0 = (0xC0 : UInt8) := by
  have hmask : (0xC0 ||| x) &&& 0xC0 = (0xC0 : UInt8) := by
    apply UInt8.eq_of_toBitVec_eq
    simp only [UInt8.toBitVec_and, UInt8.toBitVec_or]
    ext i
    simp only [BitVec.getElem_and, BitVec.getElem_or]
    cases h : (UInt8.toBitVec 0xC0)[i] <;> simp
  refine ⟨fun h => ?_, hmask⟩
  rw [h] at hmask
  exact absurd hmask (by decide)

theorem length_label_wire (l : DnsLabel) : l.wire.length = l.val.length + 1 := rfl

theorem length_le_labels_wire (ls : List DnsLabel) : ls.length ≤ (ls.flatMap DnsLabel.wire).length := by
  induction ls with
  | nil => exact Nat.le_refl _
  | cons l ls ih =>
    rw [List.flatMap_cons, List.length_append, length_label_wire, List.length_cons]
    omega

theorem tailWire_ne_nil (n : DnsName) : n.tailWire ≠ [] := by
  unfold DnsName.tailWire
  cases n.pointer <;> simp

theorem wire_ne_nil (n : DnsName) : n.wire ≠ [] := by
  unfold DnsName.wire
  simp [tailWire_ne_nil]

/-- There is fuel for the labels of a name. -/
theorem labels_lt_of_drop {n : DnsName} (h : data.drop p = n.wire ++ rest) : n.labels.length < data.length + 1 := by
  have hlen := add_le_of_drop h (wire_ne_nil n)
  have hlabels := length_le_labels_wire n.labels
  rw [DnsName.wire, List.length_append] at hlen
  omega

/-- The label loop of the questions jumps over the labels. -/
theorem skipQuestionLabels_labels {ls : List DnsLabel} {fuel : Nat} (h : data.drop p = ls.flatMap DnsLabel.wire ++ rest) :
    skipQuestionLabels data (fuel + ls.length) p =
      skipQuestionLabels data fuel (p + (ls.flatMap DnsLabel.wire).length) := by
  induction ls generalizing p with
  | nil => rfl
  | cons l ls ih =>
    rw [List.flatMap_cons, List.append_assoc] at h
    have hcons : data.drop p = UInt8.ofNat l.val.length :: (l.val ++ (ls.flatMap DnsLabel.wire ++ rest)) := h
    obtain ⟨hzero, hpointer, hlen⟩ := label_byte l
    rw [List.length_cons, ← Nat.add_assoc, skipQuestionLabels, if_pos (lt_of_drop hcons), readByte_of_drop hcons, pure_bind,
      if_neg hzero, if_neg hpointer, hlen, ← length_label_wire, ih (drop_add_of_drop h), List.flatMap_cons,
      List.length_append, Nat.add_assoc]

/-- The label loop of the answers prints the labels. -/
theorem skipAnswerLabels_labels {ls : List DnsLabel} {fuel : Nat} (h : data.drop p = ls.flatMap DnsLabel.wire ++ rest) :
    skipAnswerLabels data (fuel + ls.length) p =
      skipAnswerLabels data fuel (p + (ls.flatMap DnsLabel.wire).length) := by
  induction ls generalizing p with
  | nil => rfl
  | cons l ls ih =>
    rw [List.flatMap_cons, List.append_assoc] at h
    have hcons : data.drop p = UInt8.ofNat l.val.length :: (l.val ++ (ls.flatMap DnsLabel.wire ++ rest)) := h
    have hin := add_le_of_drop h (by simp [DnsLabel.wire])
    obtain ⟨hzero, hpointer, hlen⟩ := label_byte l
    rw [length_label_wire] at hin
    rw [List.length_cons, ← Nat.add_assoc, skipAnswerLabels, if_pos (lt_of_drop hcons), readByte_of_drop hcons, pure_bind,
      if_neg hzero, if_neg hpointer, hlen, printLabel_eq (by omega), pure_bind, skipZero_eq, pure_bind,
      Nat.min_eq_left (by omega), Nat.add_assoc p 1, Nat.add_comm 1, ← length_label_wire, ih (drop_add_of_drop h),
      List.flatMap_cons, List.length_append, Nat.add_assoc]

/-- The end of a name: a loop that stops at a zero and jumps over a pointer leaves the cursor behind the pointer, or at the
zero that is left to skip. -/
theorem loop_tail {n : DnsName} {loop : Nat → Reader Dns Nat}
    (hzero : ∀ q r, data.drop q = 0 :: r → loop q = pure q)
    (hpointer : ∀ q b r, data.drop q = b :: r → b ≠ 0 → b &&& 0xC0 = 0xC0 → loop q = pure (q + 2))
    (h : data.drop p = n.tailWire ++ rest) :
    ∃ q, loop p = pure q ∧ data.drop q = if n.pointer = none then 0 :: rest else rest := by
  unfold DnsName.tailWire at h
  cases hn : n.pointer with
  | none =>
    simp only [hn] at h
    exact ⟨p, hzero p rest h, by rw [if_pos rfl]; exact h⟩
  | some t =>
    simp only [hn] at h
    obtain ⟨hne, hmask⟩ := pointer_byte (UInt8.ofNat (t.val / 256))
    exact ⟨p + 2, hpointer p _ _ h hne hmask, by rw [if_neg (by simp)]; exact drop_add_of_drop h⟩

/-- The cursor after the label loop of the questions. -/
theorem skipQuestionLabels_name {n : DnsName} (h : data.drop p = n.wire ++ rest) :
    ∃ q, skipQuestionLabels data (data.length + 1) p = pure q ∧
      data.drop q = if n.pointer = none then 0 :: rest else rest := by
  obtain ⟨fuel, hfuel⟩ := Nat.exists_eq_add_of_lt (labels_lt_of_drop h)
  rw [DnsName.wire, List.append_assoc] at h
  rw [show data.length + 1 = fuel + 1 + n.labels.length by omega, skipQuestionLabels_labels h]
  apply loop_tail _ _ (drop_add_of_drop h)
  · intro q r hq
    rw [skipQuestionLabels, if_pos (lt_of_drop hq), readByte_of_drop hq, pure_bind, if_pos rfl]
  · intro q b r hq hne hmask
    rw [skipQuestionLabels, if_pos (lt_of_drop hq), readByte_of_drop hq, pure_bind, if_neg hne, if_pos hmask]

/-- The cursor after the label loop of the answers. -/
theorem skipAnswerLabels_name {n : DnsName} (h : data.drop p = n.wire ++ rest) :
    ∃ q, skipAnswerLabels data (data.length + 1) p = pure q ∧
      data.drop q = if n.pointer = none then 0 :: rest else rest := by
  obtain ⟨fuel, hfuel⟩ := Nat.exists_eq_add_of_lt (labels_lt_of_drop h)
  rw [DnsName.wire, List.append_assoc] at h
  rw [show data.length + 1 = fuel + 1 + n.labels.length by omega, skipAnswerLabels_labels h]
  apply loop_tail _ _ (drop_add_of_drop h)
  · intro q r hq
    rw [skipAnswerLabels, if_pos (lt_of_drop hq), readByte_of_drop hq, pure_bind, if_pos rfl]
  · intro q b r hq hne hmask
    rw [skipAnswerLabels, if_pos (lt_of_drop hq), readByte_of_drop hq, pure_bind, if_neg hne, if_pos hmask]

/-- The test for the zero after the name: a zero that is there is skipped, and a word from 256 on is left alone. -/
theorem skipZero_name {n : DnsName} {v : UInt16} {q : Nat} (hv : n.pointer ≠ none → 256 ≤ v.toNat)
    (hq : data.drop q = if n.pointer = none then 0 :: (wire16 v ++ rest) else wire16 v ++ rest) :
    ∃ q', skipZero data q = pure q' ∧ data.drop q' = wire16 v ++ rest := by
  rw [skipZero_eq]
  by_cases hn : n.pointer = none
  · rw [if_pos hn] at hq
    rw [if_pos ⟨lt_of_drop hq, byteAt_cons_of_drop hq⟩]
    exact ⟨q + 1, rfl, drop_add_of_drop (show data.drop q = [0] ++ (wire16 v ++ rest) from hq)⟩
  · rw [if_neg hn] at hq
    have hbyte := byteAt_cons_of_drop hq
    have hne : (v >>> 8).toUInt8 ≠ 0 := by
      intro h0
      have hnat := congrArg UInt8.toNat h0
      have hlt := v.toNat_lt
      have h256 := hv hn
      simp only [UInt16.toNat_toUInt8, UInt16.toNat_shiftRight, UInt16.reduceToNat, Nat.reduceMod,
        Nat.shiftRight_eq_div_pow, UInt8.toNat_zero] at hnat
      omega
    rw [if_neg fun h => hne (hbyte ▸ h.2)]
    exact ⟨q, rfl, hq⟩

/-- The name of an answer. -/
theorem skipAnswerName_name {n : DnsName} {v : UInt16} (hv : n.labels ≠ [] → n.pointer ≠ none → 256 ≤ v.toNat)
    (h : data.drop p = n.wire ++ (wire16 v ++ rest)) :
    ∃ q, skipAnswerName data p = pure q ∧ data.drop q = wire16 v ++ rest := by
  obtain ⟨q, hloop, hq⟩ := skipAnswerLabels_name h
  cases hlabels : n.labels with
  | nil =>
    rw [DnsName.wire, hlabels, List.flatMap_nil, List.nil_append] at h
    cases hn : n.pointer with
    | none =>
      obtain ⟨q', hskip, hq'⟩ := skipZero_name (n := n) (fun hne => absurd hn hne) hq
      simp only [DnsName.tailWire, hn] at h
      refine ⟨q', ?_, hq'⟩
      rw [skipAnswerName, readByte_of_drop (show data.drop p = 0 :: (wire16 v ++ rest) from h), pure_bind,
        if_neg (by decide), hloop, pure_bind, hskip]
    | some t =>
      simp only [DnsName.tailWire, hn] at h
      obtain ⟨hne, hmask⟩ := pointer_byte (UInt8.ofNat (t.val / 256))
      refine ⟨p + 2, ?_, drop_add_of_drop h⟩
      rw [skipAnswerName, readByte_of_drop h, pure_bind, if_pos hmask]
  | cons l ls =>
    obtain ⟨q', hskip, hq'⟩ := skipZero_name (n := n) (hv (by simp [hlabels])) hq
    rw [DnsName.wire, hlabels] at h
    obtain ⟨hzero, hpointer, hlen⟩ := label_byte l
    refine ⟨q', ?_, hq'⟩
    rw [skipAnswerName, readByte_of_drop h, pure_bind, if_neg hpointer, hloop, pure_bind, hskip]

end Names

/-! ## Sections -/

section Sections

variable {data rest : List UInt8} {p : Nat}

/-- The questions are skipped. -/
theorem skipQuestions_wire {qs : List DnsQuestion} (h : data.drop p = qs.flatMap DnsQuestion.wire ++ rest)
    (hclear : ∀ q ∈ qs, q.Clear) : ∃ p', skipQuestions data qs.length p = pure p' ∧ data.drop p' = rest := by
  induction qs generalizing p with
  | nil => exact ⟨p, rfl, h⟩
  | cons q qs ih =>
    rw [List.flatMap_cons, List.append_assoc, DnsQuestion.wire, List.append_assoc, List.append_assoc] at h
    obtain ⟨p₁, hloop, h₁⟩ := skipQuestionLabels_name h
    obtain ⟨p₂, hskip, h₂⟩ := skipZero_name (hclear q List.mem_cons_self) h₁
    have h₃ : data.drop (p₂ + 4) = qs.flatMap DnsQuestion.wire ++ rest := by
      rw [← List.append_assoc] at h₂
      exact drop_add_of_drop h₂
    obtain ⟨p', hrest, hp'⟩ := ih h₃ fun r hr => hclear r (List.mem_cons_of_mem _ hr)
    have hin := add_le_of_drop h (wire_ne_nil q.name)
    have hpos := List.length_pos_iff.mpr (wire_ne_nil q.name)
    refine ⟨p', ?_, hp'⟩
    rw [List.length_cons, skipQuestions, if_pos (by omega), hloop, pure_bind, hskip, pure_bind, hrest]

/-- One record with a name that is read right. -/
theorem readAnswers_record {r : DnsRecord} (hr : r.Clear) (s : Dns) (n : Nat) (h : data.drop p = r.wire ++ rest) :
    ∃ p', data.drop p' = rest ∧ readAnswers data (n + 1) p s =
      if r.IsAddress then throw { s with resolvedIp := le32 r.rdata.val 0, waiting := false } else readAnswers data n p' s := by
  rw [DnsRecord.wire, List.append_assoc, DnsRecord.fields] at h
  simp only [List.append_assoc] at h
  obtain ⟨q, hname, hq⟩ := skipAnswerName_name hr h
  have hin := add_le_of_drop h (wire_ne_nil r.name)
  have hpos := List.length_pos_iff.mpr (wire_ne_nil r.name)
  have hrdlen : (UInt16.ofNat r.rdata.val.length).toNat = r.rdata.val.length := by
    rw [UInt16.toNat_ofNat']
    exact Nat.mod_eq_of_lt r.rdata.property
  have h₂ : data.drop (q + 2) = _ := drop_add_of_drop hq
  have h₄ : data.drop (q + 4) = _ := drop_add_of_drop h₂
  have h₈ : data.drop (q + 8) = _ := drop_add_of_drop h₄
  have h₁₀ : data.drop (q + 10) = _ := drop_add_of_drop h₈
  have hfields := add_le_of_drop h₈ (by simp [wire16])
  have hdata : q + 10 + r.rdata.val.length ≤ data.length := by
    have hlen := congrArg List.length h₁₀
    rw [List.length_drop, List.length_append] at hlen
    simp only [wire16, List.length_cons, List.length_nil] at hfields
    omega
  refine ⟨q + 10 + r.rdata.val.length, drop_add_of_drop h₁₀, ?_⟩
  rw [readAnswers, if_pos (by omega), hname, pure_bind, if_neg (by omega), readBe16_of_drop hq, pure_bind,
    readBe16_of_drop h₂, pure_bind, readBytes4_eq (by omega), pure_bind, readBe16_of_drop h₈, pure_bind]
  dsimp only
  rw [hrdlen, if_neg (by omega)]
  by_cases haddr : r.IsAddress
  · have hfour : r.type = 1 ∧ UInt16.ofNat r.rdata.val.length = 4 := ⟨haddr.1, by rw [haddr.2]; rfl⟩
    have hle := haddr.2
    rw [if_pos hfour, if_pos haddr, readBytes4_eq (by omega), pure_bind, le32_of_drop h₁₀ haddr.2]
  · have hother : ¬ (r.type = 1 ∧ UInt16.ofNat r.rdata.val.length = 4) := by
      rintro ⟨htype, hlen⟩
      exact haddr ⟨htype, by rw [← hrdlen, hlen]; rfl⟩
    rw [if_neg hother, if_neg haddr]

/-- The answers up to the first address are read. -/
theorem readAnswers_wire {rs : List DnsRecord} {s : Dns} (h : data.drop p = rs.flatMap DnsRecord.wire ++ rest)
    (hclear : AnswersClear rs) : readAnswers data rs.length p s =
      match firstAddress rs with
      | some ip => throw { s with resolvedIp := ip, waiting := false }
      | none => pure s := by
  induction rs generalizing p with
  | nil => rfl
  | cons r rs ih =>
    obtain ⟨hr, hrest⟩ := hclear
    rw [List.flatMap_cons, List.append_assoc] at h
    obtain ⟨p', hp', hread⟩ := readAnswers_record hr s rs.length h
    rw [List.length_cons, hread]
    by_cases haddr : r.IsAddress
    · rw [if_pos haddr]
      simp [firstAddress, haddr]
    · rw [if_neg haddr, ih hp' (hrest.resolve_left haddr)]
      simp [firstAddress, haddr]

/-- Records before the first address. -/
theorem readAnswers_before {rs : List DnsRecord} (s : Dns) (n : Nat) (h : data.drop p = rs.flatMap DnsRecord.wire ++ rest)
    (hrs : ∀ r ∈ rs, r.Clear ∧ ¬ r.IsAddress) :
    ∃ p', data.drop p' = rest ∧ readAnswers data (n + rs.length) p s = readAnswers data n p' s := by
  induction rs generalizing p with
  | nil => exact ⟨p, h, rfl⟩
  | cons r rs ih =>
    obtain ⟨hr, haddr⟩ := hrs r List.mem_cons_self
    rw [List.flatMap_cons, List.append_assoc] at h
    obtain ⟨p₁, hp₁, hread⟩ := readAnswers_record hr s (n + rs.length) h
    obtain ⟨p', hp', hrest⟩ := ih hp₁ fun r' hr' => hrs r' (List.mem_cons_of_mem _ hr')
    refine ⟨p', hp', ?_⟩
    rw [List.length_cons, ← Nat.add_assoc, hread, if_neg haddr, hrest]

/-- An address behind a name that is not read right: its length is read as 1024 and more. -/
theorem readAnswers_late {r : DnsRecord} (haddr : r.IsAddress) (hlate : ¬ r.Clear) (hlen : data.length ≤ 1024) (s : Dns)
    (n : Nat) (h : data.drop p = r.wire ++ rest) : readAnswers data (n + 1) p s = pure s := by
  obtain ⟨htype, hrdata⟩ := haddr
  unfold DnsRecord.Clear at hlate
  push Not at hlate
  obtain ⟨hlabels, hpointer, -⟩ := hlate
  rw [DnsRecord.wire, List.append_assoc, DnsRecord.fields] at h
  simp only [List.append_assoc] at h
  have hin := add_le_of_drop h (wire_ne_nil r.name)
  have hpos := List.length_pos_iff.mpr (wire_ne_nil r.name)
  obtain ⟨q, hloop, hq⟩ := skipAnswerLabels_name h
  rw [if_neg hpointer] at hq
  have h₂ : data.drop (q + 2) = _ := drop_add_of_drop hq
  have h₄ : data.drop (q + 4) = _ := drop_add_of_drop h₂
  have h₈ : data.drop (q + 8) = _ := drop_add_of_drop h₄
  have h₁₀ : data.drop (q + 10) = _ := drop_add_of_drop h₈
  have hend := add_le_of_drop h₁₀ (by
    intro h0
    rw [h0] at hrdata
    cases hrdata)
  -- the high byte of the type is taken for the end of the name
  have hname : skipAnswerName data p = pure (q + 1) := by
    obtain ⟨l, ls, hcons⟩ := List.exists_cons_of_ne_nil hlabels
    rw [DnsName.wire, hcons] at h
    obtain ⟨-, hmask, -⟩ := label_byte l
    have hzero : byteAt data q = 0 := by
      rw [htype] at hq
      exact byteAt_cons_of_drop hq
    rw [skipAnswerName, readByte_of_drop h, pure_bind, if_neg hmask, hloop, pure_bind, skipZero_eq,
      if_pos ⟨by omega, hzero⟩]
  have hfour : byteAt data (q + 9) = 4 := by
    have hbyte := byteAt_of_drop (k := 1) h₈ (by simp [wire16])
    rw [hrdata] at hbyte
    exact hbyte
  have hbig : 1024 ≤ (((byteAt data (q + 1 + 8)).toUInt16 <<< 8) ||| (byteAt data (q + 1 + 8 + 1)).toUInt16).toNat := by
    rw [UInt16.toNat_or, show q + 1 + 8 = q + 9 by omega, hfour]
    exact Nat.left_le_or
  rw [readAnswers, if_pos (by omega), hname, pure_bind, if_neg (by omega), readBe16_eq (by omega), pure_bind,
    readBe16_eq (by omega), pure_bind, readBytes4_eq (by omega), pure_bind, readBe16_eq (by omega), pure_bind]
  dsimp only
  rw [if_pos (by omega)]

end Sections

/-! ## The handler -/

/-- What the variables say after a response. -/
def AddressFound (s : Dns) (r : DnsResponse) : Prop :=
  ∃ s', final (dnsHandler s r.wire) = some s' ∧ s'.resolvedIp = (firstAddress r.answers.val).getD 0

theorem printFirst_eq (data : List UInt8) : printFirst data = pure () := by
  have hloop : ∀ n ≤ data.length, forLoop (fun i (_ : Unit) => do
      let _ ← (readByte data i : Reader Dns UInt8)
      pure ()) n () = pure () := by
    intro n hn
    induction n with
    | zero => rfl
    | succ n ih => rw [forLoop, ih (by omega), pure_bind, readByte_eq (by omega), pure_bind]
  exact hloop _ (Nat.min_le_right _ _)

/-- The header of a response is read: without answers the handler returns, else it goes on to the questions. -/
theorem dnsHandler_header {s : Dns} {r : DnsResponse} (hid : r.id = s.queryId) :
    ∃ rest, r.wire.drop 12 = r.questions.val.flatMap DnsQuestion.wire ++ (r.answers.val.flatMap DnsRecord.wire ++ rest) ∧
      dnsHandler s r.wire =
        if r.answers.val = [] then throw { s with waiting := false }
        else skipQuestions r.wire r.questions.val.length 12 >>= fun ptr =>
          if ptr ≥ r.wire.length then throw { s with waiting := false }
          else readAnswers r.wire r.answers.val.length ptr s >>= fun s =>
            pure (if s.resolvedIp = 0 then { s with waiting := false } else s) := by
  have hcount : ∀ {α : Type} (l : DnsSection α), (UInt16.ofNat l.val.length).toNat = l.val.length := by
    intro α l
    rw [UInt16.toNat_ofNat']
    exact Nat.mod_eq_of_lt l.property
  have h₀ : r.wire.drop 0 = wire16 r.id ++ _ := rfl
  have h₂ : r.wire.drop 2 = _ := drop_add_of_drop h₀
  have h₄ : r.wire.drop 4 = _ := drop_add_of_drop h₂
  have h₆ : r.wire.drop 6 = _ := drop_add_of_drop h₄
  have h₈ : r.wire.drop 8 = _ := drop_add_of_drop h₆
  have h₁₀ : r.wire.drop 10 = _ := drop_add_of_drop h₈
  have h₁₂ : r.wire.drop 12 = _ := drop_add_of_drop h₁₀
  have hheader := add_le_of_drop h₁₀ (by simp [wire16])
  simp only [wire16, List.length_cons, List.length_nil] at hheader
  refine ⟨_, h₁₂, ?_⟩
  unfold dnsHandler
  rw [if_neg (by omega), printFirst_eq, pure_bind, readBe16_of_drop h₀, pure_bind, readBe16_of_drop h₂, pure_bind,
    readBe16_of_drop h₄, pure_bind, readBe16_of_drop h₆, pure_bind, readBe16_of_drop h₈, pure_bind, readBe16_of_drop h₁₀,
    pure_bind, if_neg (not_not.mpr hid), if_neg (not_not.mpr r.noError), if_neg r.response, hcount, hcount]
  by_cases hanswers : r.answers.val = []
  · rw [if_pos (by rw [hanswers]; rfl), if_pos hanswers]
  · have hnone : UInt16.ofNat r.answers.val.length ≠ 0 := by
      intro h0
      have hzero := hcount r.answers
      rw [h0] at hzero
      exact hanswers (List.length_eq_zero_iff.mp hzero.symm)
    rw [if_neg hnone, if_neg hanswers]

/-- The handler comes to the answers. -/
theorem dnsHandler_answers {s : Dns} {r : DnsResponse} (hid : r.id = s.queryId) (hne : r.answers.val ≠ [])
    (hclear : ∀ q ∈ r.questions.val, q.Clear) :
    ∃ p rest, r.wire.drop p = r.answers.val.flatMap DnsRecord.wire ++ rest ∧ dnsHandler s r.wire =
      readAnswers r.wire r.answers.val.length p s >>= fun s =>
        pure (if s.resolvedIp = 0 then { s with waiting := false } else s) := by
  obtain ⟨rest, h₁₂, hheader⟩ := dnsHandler_header hid
  obtain ⟨p, hskip, hp⟩ := skipQuestions_wire h₁₂ hclear
  have hin : p < r.wire.length := by
    obtain ⟨a, as, hcons⟩ := List.exists_cons_of_ne_nil hne
    rw [hcons, List.flatMap_cons, List.append_assoc, DnsRecord.wire, List.append_assoc] at hp
    have hle := add_le_of_drop hp (wire_ne_nil a.name)
    have hpos := List.length_pos_iff.mpr (wire_ne_nil a.name)
    omega
  refine ⟨p, rest, hp, ?_⟩
  rw [hheader, if_neg hne, hskip, pure_bind, if_neg (by omega)]

/-- **The answers.** The handler finds the first address, and no other, as long as no type below 256 follows a pointer that
a label loop came to. -/
theorem dnsHandler_address {s : Dns} {r : DnsResponse} (hid : r.id = s.queryId) (hip : s.resolvedIp = 0) (hclear : r.Clear) :
    AddressFound s r := by
  unfold AddressFound
  by_cases hnil : r.answers.val = []
  · obtain ⟨_, _, hheader⟩ := dnsHandler_header hid
    rw [hheader, if_pos hnil, hnil]
    exact ⟨_, rfl, hip⟩
  obtain ⟨p, rest, hp, hhandler⟩ := dnsHandler_answers hid hnil (hclear.1 hnil)
  rw [hhandler, readAnswers_wire hp hclear.2]
  cases firstAddress r.answers.val with
  | none =>
    rw [pure_bind, if_pos hip]
    exact ⟨_, rfl, hip⟩
  | some ip => exact ⟨_, rfl, rfl⟩

/-- **What is lost**: in a message of at most 1024 bytes, every address behind a name that is not read right. -/
theorem dnsHandler_lost {s : Dns} {r : DnsResponse} {before after : List DnsRecord} {a : DnsRecord} (hid : r.id = s.queryId)
    (hip : s.resolvedIp = 0) (hquestions : ∀ q ∈ r.questions.val, q.Clear) (hanswers : r.answers.val = before ++ a :: after)
    (hbefore : ∀ b ∈ before, b.Clear ∧ ¬ b.IsAddress) (haddr : a.IsAddress) (hlate : ¬ a.Clear) (hlen : r.wire.length ≤ 1024) :
    AddressFound s r ↔ le32 a.rdata.val 0 = 0 := by
  have hne : r.answers.val ≠ [] := by simp [hanswers]
  obtain ⟨p, rest, hp, hhandler⟩ := dnsHandler_answers hid hne hquestions
  have hfirst : firstAddress r.answers.val = some (le32 a.rdata.val 0) := by
    have hnone : before.find? (fun b => decide b.IsAddress) = none := by
      rw [List.find?_eq_none]
      intro b hb
      simp [(hbefore b hb).2]
    simp [firstAddress, hanswers, List.find?_append, hnone, haddr]
  rw [hanswers, List.flatMap_append, List.flatMap_cons, List.append_assoc, List.append_assoc] at hp
  obtain ⟨p', hp', hread⟩ := readAnswers_before s (after.length + 1) hp hbefore
  have hcount : r.answers.val.length = after.length + 1 + before.length := by
    rw [hanswers, List.length_append, List.length_cons]
    omega
  have hfinal : final (dnsHandler s r.wire) = some { s with waiting := false } := by
    rw [hhandler, hcount, hread, readAnswers_late haddr hlate hlen s _ hp', pure_bind, if_pos hip]
    rfl
  unfold AddressFound
  rw [hfinal, hfirst]
  constructor
  · rintro ⟨s', hs', heq⟩
    obtain rfl := Option.some.inj hs'
    exact heq.symm.trans hip
  · intro h0
    exact ⟨_, rfl, hip.trans h0.symm⟩

/-- A query with id 0x1235 is outstanding. -/
def askingDns : Dns := ⟨0x08080808, 0, true, 0x1235⟩

/-- The response to it for the name `a`, with these answers. -/
def responseWith (answers : DnsSection DnsRecord) : DnsResponse where
  id := 0x1235
  flags := 0x8180
  questions := ⟨[⟨⟨[⟨[0x61], by decide⟩], none⟩, 1, 1⟩], by decide⟩
  answers := answers
  authority := ⟨[], by decide⟩
  additional := ⟨[], by decide⟩
  response := by decide
  noError := by decide

/-- A CNAME record for the name at offset 12, `b`, and the address of `b`. -/
def aliasAnswers : DnsSection DnsRecord :=
  ⟨[⟨⟨[], some 12⟩, 5, 1, 60, ⟨[1, 0x62, 0], by decide⟩⟩,
    ⟨⟨[⟨[0x62], by decide⟩], none⟩, 1, 1, 60, ⟨[10, 0, 0, 1], by decide⟩⟩], by decide⟩

theorem dnsHandler_address_alias : AddressFound askingDns (responseWith aliasAnswers) := by
  refine dnsHandler_address rfl rfl ⟨?_, ⟨?_, .inr ⟨?_, .inl ⟨rfl, rfl⟩⟩⟩⟩
  · intro _ q hq hpointer
    obtain rfl := List.mem_singleton.mp hq
    exact absurd rfl hpointer
  · intro hlabels
    exact absurd rfl hlabels
  · intro _ hpointer
    exact absurd rfl hpointer

/-- The address of `b.a`, with the owner name written as the label `b` and a pointer to `a`. -/
def suffixAnswers : DnsSection DnsRecord :=
  ⟨[⟨⟨[⟨[0x62], by decide⟩], some 12⟩, 1, 1, 60, ⟨[10, 0, 0, 1], by decide⟩⟩], by decide⟩

/-- The address is not found. -/
theorem suffixAnswers_lost : ¬ ∀ (s : Dns) (r : DnsResponse), r.id = s.queryId → s.resolvedIp = 0 → AddressFound s r := by
  intro h
  obtain ⟨s', hs', hip⟩ := h askingDns (responseWith suffixAnswers) rfl rfl
  have hlost : (final (dnsHandler askingDns (responseWith suffixAnswers).wire)).map Dns.resolvedIp = some 0 := by
    decide
  rw [hs', Option.map_some, hip] at hlost
  exact absurd hlost (by decide)

end AmqOs.Network
