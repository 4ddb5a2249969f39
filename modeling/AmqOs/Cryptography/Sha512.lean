import AmqOs.Cryptography.Sha512Defs

/-!
# SHA-512: the code and FIPS 180-4

`sha512_transform` is the compression of the standard (`sha512Transform_eq`). The invariant `StreamInv ctx msg` says what a
context holds after the bytes `msg`: the bit counter, the hash of the complete blocks, and the bytes after them.
`sha512_update` keeps it (`StreamInv.update`), and as the padding goes through `sha512_update` as well, the digest is that
of the standard however the message was cut (`sha512_stream`).
-/

set_option autoImplicit false

namespace AmqOs.Cryptography

open Lib
open Fips180 (Hash bytesBE wordBE roundConst rootFrac compress schedule)

/-! ## The constants -/

/-- `x` are the first 64 bits of the fractional part of the `e`-th root of `p`, and `q` is its integer part. -/
def IsRootFrac (e p : Nat) (x : UInt64) : Prop :=
  ∃ q < 8, (q * 2 ^ 64 + x.toNat) ^ e ≤ p * 2 ^ (64 * e) ∧ p * 2 ^ (64 * e) < (q * 2 ^ 64 + x.toNat + 1) ^ e

theorem IsRootFrac.rootFrac_eq {e p : Nat} {x : UInt64} (h : IsRootFrac e p x) : rootFrac e p = x := by
  obtain ⟨q, -, hle, hlt⟩ := h
  rw [rootFrac, Nat.nthRoot_eq_of_le_of_lt hle hlt]
  apply UInt64.toNat_inj.mp
  have hx := x.toNat_lt
  rw [UInt64.toNat_ofNat']
  omega

theorem kTable_isRootFrac : ∀ t < 80, IsRootFrac 3 (Fips180.primes.getD t 0) (kTable.getD t 0) := by
  unfold IsRootFrac
  decide

theorem kTable_eq {t : Nat} (ht : t < 80) : kTable.getD t 0 = roundConst t :=
  (kTable_isRootFrac t ht).rootFrac_eq.symm

theorem initState_isRootFrac : ∀ t < 8, IsRootFrac 2 (Fips180.primes.getD t 0) (initState.words.getD t 0) := by
  unfold IsRootFrac
  decide

theorem initState_eq : initState = Fips180.initialHash := by
  have hw : ∀ t < 8, rootFrac 2 (Fips180.primes.getD t 0) = initState.words.getD t 0 :=
    fun t ht => (initState_isRootFrac t ht).rootFrac_eq
  simp (disch := omega) only [Fips180.initialHash, hw]
  rfl

/-! ## Words and bytes -/

theorem toUInt8_and_mask (w : UInt64) : (w &&& 0xFF).toUInt8 = w.toUInt8 := by
  apply UInt8.toNat_inj.mp
  have hmask : w.toNat &&& 255 = w.toNat % 2 ^ 8 := Nat.and_two_pow_sub_one_eq_mod w.toNat 8
  rw [UInt64.toNat_toUInt8, UInt64.toNat_toUInt8, UInt64.toNat_and, show (0xFF : UInt64).toNat = 255 from rfl, hmask]
  omega

theorem toUInt8_shiftRight (w : UInt64) {k : Nat} (hk : k < 64) :
    (w >>> UInt64.ofNat k).toUInt8 = UInt8.ofNat (w.toNat / 2 ^ k) := by
  apply UInt8.toNat_inj.mp
  have hmod : (UInt64.ofNat k).toNat % 64 = k := by
    rw [UInt64.toNat_ofNat']
    omega
  rw [UInt64.toNat_toUInt8, UInt64.toNat_shiftRight, hmod, Nat.shiftRight_eq_div_pow, UInt8.toNat_ofNat']

theorem wordToBytes_eq (w : UInt64) : wordToBytes w = bytesBE 8 w.toNat := by
  simp (disch := omega) only [wordToBytes, toUInt8_and_mask, List.range, List.range.loop, List.map, bytesBE,
    toUInt8_shiftRight, Nat.div_div_eq_div_mul]
  norm_num

theorem length_bytesBE (k n : Nat) : (bytesBE k n).length = k := by
  induction k generalizing n with
  | zero => rfl
  | succ k ih => rw [bytesBE, List.length_append, ih, List.length_singleton]

theorem bytesBE_add (j k n : Nat) : bytesBE (j + k) n = bytesBE j (n / 256 ^ k) ++ bytesBE k n := by
  induction k generalizing n with
  | zero => simp [bytesBE]
  | succ k ih =>
    rw [← Nat.add_assoc, bytesBE, ih, bytesBE, List.append_assoc, Nat.div_div_eq_div_mul, Nat.pow_succ, Nat.mul_comm]

theorem bytesBE_mod (k n : Nat) : bytesBE k (n % 256 ^ k) = bytesBE k n := by
  induction k generalizing n with
  | zero => rfl
  | succ k ih =>
    rw [bytesBE, bytesBE, Nat.pow_succ, Nat.mul_comm, Nat.mod_mul_right_div_self, ih]
    congr 2
    apply UInt8.toNat_inj.mp
    rw [UInt8.toNat_ofNat', UInt8.toNat_ofNat']
    exact Nat.mod_mul_right_mod n 256 (256 ^ k)

theorem loadWord_eq (data : List UInt8) {i : Nat} (hi : 8 * i + 8 ≤ data.length) :
    loadWord data i = wordBE ((data.drop (8 * i)).take 8) := by
  have hbytes : (data.drop (8 * i)).take 8 = (List.range 8).map fun k => data.getD (i * 8 + k) 0 := by
    apply List.ext_getElem
    · simp
      omega
    · intro k h1 h2
      have hk : 8 * i + k = i * 8 + k := by omega
      rw [List.length_map, List.length_range] at h2
      simp only [List.getElem_take, List.getElem_drop, List.getElem_map, List.getElem_range, hk]
      rw [List.getD_eq_getElem _ _ (by omega)]
  rw [hbytes]
  simp (disch := decide) [List.range, List.range.loop, wordBE, loadWord, wide, UInt64.shiftLeft_or, ← UInt64.shiftLeft_add]

/-! ## The compression -/

/-- The first `n` words of `W` are the first `n` of the schedule. -/
structure SameW (n : Nat) (w : Vector UInt64 80) (l : List UInt64) : Prop where
  length : l.length = n
  words : ∀ j < n, entry w j = l.getD j 0

theorem SameW.put {n : Nat} {w : Vector UInt64 80} {l : List UInt64} (h : SameW n w l) (hn : n < 80) (x : UInt64) :
    SameW (n + 1) (put w n x) (l ++ [x]) := by
  obtain ⟨rfl, hw⟩ := h
  refine ⟨by simp, fun j hj => ?_⟩
  rw [entry_put _ _ _ (by omega)]
  split
  · rename_i hj
    simp [← hj]
  · rw [hw j (by omega), List.getD_append _ _ _ _ (by omega)]

theorem fillW_eq (data : List UInt8) (hdata : data.length = 128) (w : Vector UInt64 80) :
    SameW 80 (fillW data w) (schedule data) := by
  have hload : SameW 16 (forUpTo (fun i w => put w i (loadWord data i)) 16 w) (Fips180.blockWords data) := by
    refine ⟨by simp [Fips180.blockWords], ?_⟩
    have hinv : ∀ j < 16, entry (forUpTo (fun i w => put w i (loadWord data i)) 16 w) j = loadWord data j := by
      apply forUpTo_inv (fun i w => ∀ j < i, entry w j = loadWord data j)
      · intro j hj
        omega
      · intro i w hi h j hj
        rw [entry_put _ _ _ (by omega)]
        split
        · rename_i hij
          rw [hij]
        · exact h j (by omega)
    intro j hj
    rw [hinv j hj, loadWord_eq data (by omega)]
    simp [Fips180.blockWords, hj]
  have hfill : SameW (16 + 64) (fillW data w) (schedule data) := by
    unfold fillW schedule
    refine forUpTo_rel (fun i => SameW (16 + i)) hload fun i w l hi h => ?_
    have hnext : GAMMA1 (entry w (16 + i - 2)) + entry w (16 + i - 7) + GAMMA0 (entry w (16 + i - 15)) +
        entry w (16 + i - 16) = Fips180.nextWord l i := by
      rw [h.words _ (by omega), h.words _ (by omega), h.words _ (by omega), h.words _ (by omega),
        show 16 + i - 2 = i + 14 by omega, show 16 + i - 7 = i + 9 by omega, show 16 + i - 15 = i + 1 by omega,
        show 16 + i - 16 = i by omega]
      rfl
    rw [hnext]
    exact h.put (by omega) _
  exact hfill

theorem sha512Transform_eq (state : Hash) (data : List UInt8) (hdata : data.length = 128) :
    sha512Transform state data = compress state data := by
  have hw := (fillW_eq data hdata (Vector.replicate 80 0)).words
  have hloop : forUpTo (sha512Round (fillW data (Vector.replicate 80 0))) 80 state =
      forUpTo (fun t v => Fips180.step (roundConst t) ((schedule data).getD t 0) v) 80 state := by
    apply forUpTo_rel (fun _ v v' => v = v') rfl
    rintro t v v' ht rfl
    rw [← kTable_eq ht, ← hw t ht]
    rfl
  rw [sha512Transform, hloop, compress]
  simp only [UInt64.add_comm]

/-! ## The bit counter -/

def Sha512Ctx.bits (ctx : Sha512Ctx) : Nat := ctx.count1.toNat * 2 ^ 64 + ctx.count0.toNat

@[simp] theorem addCount_state (ctx : Sha512Ctx) (len : UInt64) : (ctx.addCount len).state = ctx.state := rfl

@[simp] theorem addCount_buffer (ctx : Sha512Ctx) (len : UInt64) : (ctx.addCount len).buffer = ctx.buffer := rfl

theorem bits_addCount (ctx : Sha512Ctx) {len : Nat} (h : len < 2 ^ 64) :
    (ctx.addCount (UInt64.ofNat len)).bits = (ctx.bits + 8 * len) % 2 ^ 128 := by
  have hlen : (UInt64.ofNat len).toNat = len := by
    rw [UInt64.toNat_ofNat']
    omega
  have hlow : (UInt64.ofNat len <<< 3).toNat = 8 * len % 2 ^ 64 := by
    rw [UInt64.toNat_shiftLeft, hlen, show (3 : UInt64).toNat % 64 = 3 from rfl, Nat.shiftLeft_eq]
    omega
  have hhigh : (UInt64.ofNat len >>> 61).toNat = len / 2 ^ 61 := by
    rw [UInt64.toNat_shiftRight, hlen, show (61 : UInt64).toNat % 64 = 61 from rfl, Nat.shiftRight_eq_div_pow]
  have h0 := ctx.count0.toNat_lt
  have h1 := ctx.count1.toNat_lt
  simp only [Sha512Ctx.bits, Sha512Ctx.addCount]
  -- The sum in the low word is below its summand exactly if it has a carry.
  split
  · rename_i hcarry
    rw [UInt64.lt_iff_toNat_lt, UInt64.toNat_add, hlow] at hcarry
    rw [UInt64.toNat_add, UInt64.toNat_add, UInt64.toNat_add, hlow, hhigh, show (1 : UInt64).toNat = 1 from rfl]
    omega
  · rename_i hcarry
    rw [UInt64.lt_iff_toNat_lt, UInt64.toNat_add, hlow] at hcarry
    rw [UInt64.toNat_add, UInt64.toNat_add, hlow, hhigh]
    omega

/-! ## The buffer -/

theorem take_copyIn (buffer : Vector UInt8 128) {index i n : Nat} {data : List UInt8} (h : index + n ≤ 128)
    (hd : i + n ≤ data.length) :
    (copyIn buffer index data i n).toList.take (index + n) = buffer.toList.take index ++ (data.drop i).take n := by
  induction n with
  | zero => simp [copyIn, forUpTo]
  | succ n ih =>
    have hdata : (data.drop i)[n]? = some (data.getD (i + n) 0) := by
      rw [List.getElem?_drop, List.getElem?_eq_getElem (by omega), List.getD_eq_getElem _ _ (by omega)]
    have hset : ((copyIn buffer index data i n).toList.set (index + n) (data.getD (i + n) 0))[index + n]? =
        some (data.getD (i + n) 0) := by
      rw [List.getElem?_set_self (by simp; omega)]
    rw [copyIn, forUpTo, ← copyIn, put, Vector.toList_setIfInBounds, ← Nat.add_assoc, List.take_add_one, hset,
      List.take_set_of_le (le_refl _), ih (by omega) (by omega), List.take_add_one, hdata, List.append_assoc]

/-- The loop of `sha512_update` ends with the blocks of `data` from `i` on behind it. -/
theorem transformLoop_spec (data : List UInt8) (hd : data.length + 128 < 2 ^ 64) {i fuel : Nat} (hi : i ≤ data.length)
    (hf : (data.length - i) / 128 < fuel) (state : Hash) :
    ∃ j, transformLoop data fuel i state = some (absorb 128 sha512Transform state (data.drop i), j) ∧ j ≤ data.length ∧
      data.drop j = rest 128 (data.drop i) := by
  induction fuel generalizing i state with
  | zero => omega
  | succ fuel ih =>
    have hmod : (i + 128) % 2 ^ 64 = i + 128 := Nat.mod_eq_of_lt (by omega)
    rw [transformLoop, hmod]
    split
    · rename_i hle
      obtain ⟨j, hloop, hj, hrest⟩ := ih (i := i + 128) hle (by omega) (sha512Transform state ((data.drop i).take 128))
      have hblock : ((data.drop i).take 128).length = 128 := by
        simp
        omega
      have hcut : data.drop i = (data.drop i).take 128 ++ data.drop (i + 128) := by
        rw [← List.drop_drop, List.take_append_drop]
      refine ⟨j, ?_, hj, ?_⟩
      · rw [hloop, hcut, absorb_block (by omega) hblock, ← hcut]
      · rw [hrest, hcut, rest_block (by omega) hblock]
    · have hlt : (data.drop i).length < 128 := by
        rw [List.length_drop]
        omega
      exact ⟨i, by rw [absorb_of_lt hlt], hi, (rest_of_lt hlt).symm⟩

/-! ## The stream -/

/-- `sizeof(sha512_ctx_t)`: eight words, the counter and the buffer. -/
def sizeofCtx : Nat := 8 * 8 + 2 * 8 + 128

/-- The bytes lie in the 64-bit address space beside the context. -/
def InMemory (data : List UInt8) : Prop := data.length + sizeofCtx ≤ 2 ^ 64

/-- What the context holds after the bytes `msg`. -/
structure StreamInv (ctx : Sha512Ctx) (msg : List UInt8) : Prop where
  bits : ctx.bits = 8 * msg.length % 2 ^ 128
  state : ctx.state = absorb 128 compress Fips180.initialHash msg
  buffer : ctx.buffer.toList.take (msg.length % 128) = rest 128 msg

theorem StreamInv.init (ctx : Sha512Ctx) : StreamInv (sha512Init ctx) [] where
  bits := by simp [Sha512Ctx.bits, sha512Init]
  state := by
    rw [absorb_of_lt (by simp)]
    exact initState_eq
  buffer := by
    rw [rest_of_lt (by simp), List.length_nil, Nat.zero_mod, List.take_zero]

variable {ctx : Sha512Ctx} {msg data : List UInt8}

/-- The index is found in the low word of the counter. -/
theorem StreamInv.index (h : StreamInv ctx msg) : ctx.index = msg.length % 128 := by
  have hbits := h.bits
  have h0 := ctx.count0.toNat_lt
  rw [Sha512Ctx.bits] at hbits
  rw [Sha512Ctx.index, UInt64.toNat_mod, UInt64.toNat_shiftRight, show (3 : UInt64).toNat % 64 = 3 from rfl,
    show (128 : UInt64).toNat = 128 from rfl, Nat.shiftRight_eq_div_pow]
  omega

theorem StreamInv.addBits (h : StreamInv ctx msg) (hd : data.length < 2 ^ 64) :
    (ctx.addCount (UInt64.ofNat data.length)).bits = 8 * (msg ++ data).length % 2 ^ 128 := by
  rw [bits_addCount ctx hd, h.bits, List.length_append]
  omega

/-- The data does not fill the buffer. -/
theorem StreamInv.update_short (h : StreamInv ctx msg) (hd : data.length < 128 - ctx.index) :
    ∃ ctx', sha512Update ctx data = some ctx' ∧ StreamInv ctx' (msg ++ data) := by
  have hidx := h.index
  have hrest : (rest 128 msg ++ data).length < 128 := by
    rw [List.length_append, length_rest]
    omega
  refine ⟨_, by rw [sha512Update, if_neg (by omega)], ?_, ?_, ?_⟩
  · exact h.addBits (by omega)
  · rw [absorb_append (by omega), absorb_of_lt hrest, ← h.state]
    rfl
  · have hlen : (msg ++ data).length % 128 = ctx.index + data.length := by
      rw [List.length_append]
      omega
    rw [rest_append (by omega), rest_of_lt hrest, hlen, take_copyIn _ (by omega) (by omega), hidx, ← h.buffer,
      List.drop_zero, List.take_length]
    rfl

/-- The data fills the buffer, and perhaps more blocks. -/
theorem StreamInv.update_long (h : StreamInv ctx msg) (hd : 128 - ctx.index ≤ data.length) (hm : InMemory data) :
    ∃ ctx', sha512Update ctx data = some ctx' ∧ StreamInv ctx' (msg ++ data) := by
  have hidx := h.index
  have hlen : data.length + 128 < 2 ^ 64 := by
    unfold InMemory sizeofCtx at hm
    omega
  -- The first block: the bytes in the buffer and the first of the data.
  have hblock : (copyIn ctx.buffer ctx.index data 0 (128 - ctx.index)).toList =
      rest 128 msg ++ data.take (128 - ctx.index) := by
    have htake := @take_copyIn ctx.buffer ctx.index 0 (128 - ctx.index) data (by omega) (by omega)
    rw [show ctx.index + (128 - ctx.index) = 128 by omega, List.take_of_length_le (by simp), List.drop_zero, hidx,
      h.buffer] at htake
    rw [hidx]
    exact htake
  have hblen : (rest 128 msg ++ data.take (128 - ctx.index)).length = 128 := by
    rw [← hblock, Vector.length_toList]
  have hcut : rest 128 msg ++ data = (rest 128 msg ++ data.take (128 - ctx.index)) ++ data.drop (128 - ctx.index) := by
    rw [List.append_assoc, List.take_append_drop]
  have hfuel : (data.length - (128 - ctx.index)) / 128 < data.length / 128 + 1 := by omega
  obtain ⟨j, hloop, hj, hrest⟩ := transformLoop_spec data hlen hd hfuel
    (sha512Transform ctx.state (rest 128 msg ++ data.take (128 - ctx.index)))
  have hrest' : rest 128 (msg ++ data) = data.drop j := by
    rw [rest_append (by omega), hcut, rest_block (by omega) hblen, hrest]
  have hupd : sha512Update ctx data = some { ctx.addCount (UInt64.ofNat data.length) with
      state := absorb 128 sha512Transform (sha512Transform ctx.state (rest 128 msg ++ data.take (128 - ctx.index)))
        (data.drop (128 - ctx.index))
      buffer := copyIn (copyIn ctx.buffer ctx.index data 0 (128 - ctx.index)) 0 data j (data.length - j) } := by
    simp only [sha512Update, if_pos hd, addCount_state, addCount_buffer, hblock, hloop]
    rfl
  refine ⟨_, hupd, h.addBits (by omega), ?_, ?_⟩
  · rw [absorb_append (by omega), ← h.state, hcut, absorb_block (by omega) hblen, ← sha512Transform_eq _ _ hblen]
    exact absorb_congr (by omega) sha512Transform_eq _ _
  · have hmod : (msg ++ data).length % 128 = 0 + (data.length - j) := by
      rw [← length_rest, hrest', List.length_drop, Nat.zero_add]
    rw [hrest', hmod, take_copyIn _ _ (by omega)]
    · rw [List.take_zero, List.nil_append, List.take_of_length_le (by simp)]
    · have hlt : (msg ++ data).length % 128 < 128 := Nat.mod_lt _ (by omega)
      omega

theorem StreamInv.update (h : StreamInv ctx msg) (hm : InMemory data) :
    ∃ ctx', sha512Update ctx data = some ctx' ∧ StreamInv ctx' (msg ++ data) := by
  by_cases hd : 128 - ctx.index ≤ data.length
  · exact h.update_long hd hm
  · exact h.update_short (by omega)

theorem StreamInv.updates {pieces : List (List UInt8)} (h : StreamInv ctx msg) (hp : ∀ p ∈ pieces, InMemory p) :
    ∃ ctx', sha512Updates ctx pieces = some ctx' ∧ StreamInv ctx' (msg ++ pieces.flatten) := by
  induction pieces generalizing ctx msg with
  | nil => exact ⟨ctx, rfl, by simpa using h⟩
  | cons p pieces ih =>
    obtain ⟨ctx₁, hupd, h₁⟩ := h.update (hp p (by simp))
    obtain ⟨ctx', hupds, h'⟩ := ih h₁ fun q hq => hp q (by simp [hq])
    refine ⟨ctx', ?_, ?_⟩
    · rw [sha512Updates, List.foldlM_cons, hupd]
      exact hupds
    · rwa [List.flatten_cons, ← List.append_assoc]

/-! ## The digest -/

theorem StreamInv.bits_bytes (h : StreamInv ctx msg) :
    wordToBytes ctx.count1 ++ wordToBytes ctx.count0 = bytesBE 16 (8 * msg.length) := by
  have hbits := h.bits
  have h0 := ctx.count0.toNat_lt
  rw [Sha512Ctx.bits] at hbits
  have hhigh : ctx.count1.toNat = 8 * msg.length % 256 ^ 16 / 256 ^ 8 := by omega
  have hlow : ctx.count0.toNat = 8 * msg.length % 256 ^ 16 % 256 ^ 8 := by omega
  rw [wordToBytes_eq, wordToBytes_eq, hhigh, hlow, bytesBE_mod, ← bytesBE_add, bytesBE_mod]

theorem StreamInv.final (h : StreamInv ctx msg) : sha512Final ctx = some (Fips180.sha512 msg) := by
  have hidx := h.index
  have hpad : (0x80 : UInt8) :: List.replicate ((if ctx.index < 112 then 112 - ctx.index else 240 - ctx.index) - 1) 0 =
      0x80 :: List.replicate (Fips180.padZeros msg.length) 0 := by
    congr 2
    rw [Fips180.padZeros, hidx]
    split <;> omega
  have hpadIn : InMemory (0x80 :: List.replicate (Fips180.padZeros msg.length) 0) := by
    have hlt : Fips180.padZeros msg.length < 128 := Nat.mod_lt _ (by omega)
    rw [InMemory, List.length_cons, List.length_replicate, sizeofCtx]
    omega
  have hbitsIn : InMemory (bytesBE 16 (8 * msg.length)) := by
    rw [InMemory, length_bytesBE, sizeofCtx]
    omega
  obtain ⟨ctx₁, hupd₁, h₁⟩ := h.update hpadIn
  obtain ⟨ctx₂, hupd₂, h₂⟩ := h₁.update hbitsIn
  have hdigest : ctx₂.state.words.flatMap wordToBytes = Fips180.sha512 msg := by
    rw [h₂.state, Fips180.sha512, Fips180.pad]
    congr 1
    funext w
    exact wordToBytes_eq w
  rw [sha512Final, hpad, h.bits_bytes, hupd₁, Option.bind_eq_bind, Option.bind_some, hupd₂,
    Option.bind_some, hdigest]

/-- The digest is that of the standard, however the message is cut into pieces, and also if it is hashed at once. The
standard is for messages of less than `2¹²⁵` bytes; past that, `Fips180.pad` takes the low 128 bits of the length, as the
counter does. -/
theorem sha512_stream (ctx : Sha512Ctx) (pieces : List (List UInt8)) (hp : ∀ p ∈ pieces, InMemory p) :
    (sha512Updates (sha512Init ctx) pieces).bind sha512Final = some (Fips180.sha512 pieces.flatten) ∧
      (InMemory pieces.flatten →
        ∀ ctx' : Sha512Ctx, sha512Hash ctx' pieces.flatten = some (Fips180.sha512 pieces.flatten)) := by
  constructor
  · obtain ⟨ctx', hupds, h⟩ := (StreamInv.init ctx).updates hp
    rw [hupds, Option.bind_some]
    exact h.final
  · intro hm ctx'
    obtain ⟨ctx₁, hupd, h⟩ := (StreamInv.init ctx').update hm
    rw [sha512Hash, hupd]
    exact h.final

theorem inMemory_of_le (h : data.length ≤ 2 ^ 32) : InMemory data := by
  rw [InMemory, sizeofCtx]
  omega

/-- The message `abc` in three pieces, the second of them empty. -/
theorem sha512_stream_abc :
    (sha512Updates (sha512Init ⟨default, 7, 7, Vector.replicate 128 7⟩) [[0x61], [], [0x62, 0x63]]).bind sha512Final =
        some (Fips180.sha512 [0x61, 0x62, 0x63]) ∧
      sha512Hash ⟨default, 7, 7, Vector.replicate 128 7⟩ [0x61, 0x62, 0x63] =
        some (Fips180.sha512 [0x61, 0x62, 0x63]) := by
  obtain ⟨hstream, hhash⟩ := sha512_stream ⟨default, 7, 7, Vector.replicate 128 7⟩ [[0x61], [], [0x62, 0x63]] (by
    intro p hp
    apply inMemory_of_le
    fin_cases hp <;> decide)
  exact ⟨hstream, hhash (inMemory_of_le (by decide)) _⟩

end AmqOs.Cryptography
