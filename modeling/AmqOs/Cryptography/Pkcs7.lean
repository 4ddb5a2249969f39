import AmqOs.Lib.ByteMem
import AmqOs.Lib.Loop

/-!
# PKCS#7 padding

`aes256_pad_pkcs7` and `aes256_unpad_pkcs7`. `PaddedFrom data len n` says that the first `n` bytes are a message of `len`
bytes with its padding. The first function makes that so (`paddedFrom_pad`), and the second finds the `len` of it
(`unpad_eq_iff`); a message of no bytes is given the same number as a buffer without padding.
-/

set_option autoImplicit false

namespace AmqOs.Cryptography

open Lib

/-! ## The code -/

/-- `aes256_pad_pkcs7`: the buffer, and the new length. -/
def aes256PadPkcs7 (data : Mem) (len maxLen : Nat) : Mem × Nat :=
  let pad := 16 - len % 16
  if (len + pad) % 2 ^ 64 > maxLen then (data, 0)
  else (data.store len pad fun _ => UInt8.ofNat pad, (len + pad) % 2 ^ 64)

/-- `aes256_unpad_pkcs7`. -/
def aes256UnpadPkcs7 (data : Mem) (len : Nat) : Nat :=
  if len = 0 ∨ len % 16 ≠ 0 then 0
  else
    let pad := data (len - 1)
    if pad = 0 ∨ pad > 16 then 0
    else
      match firstFrom (len - pad.toNat) len (fun i => data i != pad) with
      | some _ => 0
      | none => len - pad.toNat

/-! ## Padding -/

/-- The length of a message of `len` bytes with its padding: the next larger multiple of 16. -/
def paddedLen (len : Nat) : Nat := 16 * (len / 16 + 1)

/-- The first `n` bytes are a message of `len` bytes and its padding, of which each byte is the number of all. -/
def PaddedFrom (data : Mem) (len n : Nat) : Prop :=
  n = paddedLen len ∧ ∀ i, len ≤ i → i < n → data i = UInt8.ofNat (n - len)

variable {data : Mem} {len maxLen n : Nat}

theorem len_add_pad (len : Nat) : len + (16 - len % 16) = paddedLen len := by
  unfold paddedLen
  omega

theorem PaddedFrom.bounds (h : PaddedFrom data len n) : len < n ∧ n ≤ len + 16 ∧ n % 16 = 0 := by
  obtain ⟨rfl, -⟩ := h
  unfold paddedLen
  omega

/-- The last byte is the length of the padding. -/
theorem PaddedFrom.last (h : PaddedFrom data len n) : (data (n - 1)).toNat = n - len := by
  have hb := h.bounds
  rw [h.2 (n - 1) (by omega) (by omega), UInt8.toNat_ofNat']
  omega

theorem unpad_of_paddedFrom (h : PaddedFrom data len n) : aes256UnpadPkcs7 data n = len := by
  obtain ⟨hlt, hle, hmul⟩ := h.bounds
  have hlast := h.last
  have hrange : ¬ (data (n - 1) = 0 ∨ data (n - 1) > 16) := by
    rintro (hzero | hbig)
    · rw [hzero] at hlast
      have hlast' : 0 = n - len := hlast
      omega
    · have hbig' : 16 < (data (n - 1)).toNat := hbig
      omega
  have hsearch : firstFrom (n - (data (n - 1)).toNat) n (fun i => data i != data (n - 1)) = none := by
    rw [firstFrom_eq_none]
    intro j hj hjn
    rw [h.2 j (by omega) hjn, h.2 (n - 1) (by omega) (by omega), bne_self_eq_false]
  unfold aes256UnpadPkcs7
  rw [if_neg (by omega)]
  dsimp only
  rw [if_neg hrange, hsearch, hlast]
  dsimp only
  omega

/-- What is not zero is the length of a message that is there with its padding. -/
theorem paddedFrom_of_unpad (h : aes256UnpadPkcs7 data n ≠ 0) : PaddedFrom data (aes256UnpadPkcs7 data n) n := by
  revert h
  unfold aes256UnpadPkcs7
  dsimp only
  split
  · exact fun h => absurd rfl h
  rename_i hlen
  split
  · exact fun h => absurd rfl h
  rename_i hpad
  split
  · exact fun h => absurd rfl h
  rename_i hsearch
  intro hne
  have hpos : 0 < (data (n - 1)).toNat := by
    by_contra hzero
    exact hpad (.inl (UInt8.toNat_inj.mp (by simpa using hzero)))
  have hle : (data (n - 1)).toNat ≤ 16 := by
    by_contra hbig
    exact hpad (.inr (UInt8.lt_iff_toNat_lt.mpr (by simpa using hbig)))
  refine ⟨?_, fun i hi hin => ?_⟩
  · unfold paddedLen
    omega
  · have hall := firstFrom_eq_none.mp hsearch i hi hin
    rw [bne_eq_false_iff_eq] at hall
    rw [hall, show n - (n - (data (n - 1)).toNat) = (data (n - 1)).toNat by omega, UInt8.ofNat_toNat]

/-- Zero means that there is no padding, or that there is nothing before it. -/
theorem unpad_eq_zero_iff : aes256UnpadPkcs7 data n = 0 ↔ (∀ len, ¬ PaddedFrom data len n) ∨ PaddedFrom data 0 n := by
  constructor
  · intro hzero
    by_cases hsome : ∃ len, PaddedFrom data len n
    · obtain ⟨len, h⟩ := hsome
      obtain rfl : len = 0 := by rw [← unpad_of_paddedFrom h, hzero]
      exact .inr h
    · exact .inl fun len h => hsome ⟨len, h⟩
  · rintro (hnone | h)
    · by_contra hne
      exact hnone _ (paddedFrom_of_unpad hne)
    · exact unpad_of_paddedFrom h

/-- The length that is returned: zero if there is no room, also where the sum wraps. -/
theorem pad_eq_zero_iff (hlen : len < 2 ^ 64) (hmax : maxLen < 2 ^ 64) :
    (aes256PadPkcs7 data len maxLen).2 = 0 ↔ maxLen < paddedLen len := by
  have hpos : 0 < paddedLen len := by
    unfold paddedLen
    omega
  have hle : paddedLen len ≤ 2 ^ 64 := by
    unfold paddedLen
    omega
  unfold aes256PadPkcs7
  dsimp only
  rw [len_add_pad]
  split
  · simp only [true_iff]
    omega
  · dsimp only
    omega

theorem pad_of_room (hmax : maxLen < 2 ^ 64) (hroom : paddedLen len ≤ maxLen) :
    aes256PadPkcs7 data len maxLen =
      (data.store len (16 - len % 16) fun _ => UInt8.ofNat (16 - len % 16), paddedLen len) := by
  have hmod : paddedLen len % 2 ^ 64 = paddedLen len := Nat.mod_eq_of_lt (by omega)
  unfold aes256PadPkcs7
  dsimp only
  rw [len_add_pad, hmod, if_neg (by omega)]

theorem paddedFrom_pad (hmax : maxLen < 2 ^ 64) (hroom : paddedLen len ≤ maxLen) :
    PaddedFrom (aes256PadPkcs7 data len maxLen).1 len (paddedLen len) := by
  refine ⟨rfl, fun i hi hin => ?_⟩
  have hsum := len_add_pad len
  rw [pad_of_room hmax hroom]
  dsimp only
  rw [Mem.store_in hi (by omega), ← hsum, Nat.add_sub_cancel_left]

/-- **PKCS#7**: the padding fails exactly if there is no room for it, and keeps the message otherwise; the length of the
message is found again. Of the buffers with a padding, only that of the empty message gives zero. -/
theorem aes256_pkcs7 (data : Mem) (len maxLen : Nat) (hlen : len < 2 ^ 64) (hmax : maxLen < 2 ^ 64) :
    let out := aes256PadPkcs7 data len maxLen
    (out.2 = 0 ↔ maxLen < paddedLen len) ∧
    (paddedLen len ≤ maxLen → out.2 = paddedLen len ∧ (∀ i < len, out.1 i = data i) ∧
      aes256UnpadPkcs7 out.1 out.2 = len) ∧
    ∀ (buffer : Mem) (n : Nat), n < 2 ^ 64 → aes256UnpadPkcs7 buffer n = 0 →
      (∀ m, ¬ PaddedFrom buffer m n) ∨ PaddedFrom buffer 0 n := by
  refine ⟨pad_eq_zero_iff hlen hmax, fun hroom => ⟨?_, fun i hi => ?_, ?_⟩, fun buffer n _ => unpad_eq_zero_iff.mp⟩
  · rw [pad_of_room hmax hroom]
  · rw [pad_of_room hmax hroom]
    dsimp only
    rw [Mem.store_out (.inl hi)]
  · have hpad : aes256UnpadPkcs7 (aes256PadPkcs7 data len maxLen).1 (paddedLen len) = len :=
      unpad_of_paddedFrom (paddedFrom_pad hmax hroom)
    rw [pad_of_room hmax hroom] at hpad ⊢
    exact hpad

/-- A message of 20 bytes in a buffer of 40. -/
theorem aes256_pkcs7_twenty : aes256UnpadPkcs7 (aes256PadPkcs7 (fun _ => 1) 20 40).1 (aes256PadPkcs7 (fun _ => 1) 20 40).2 = 20 :=
  ((aes256_pkcs7 (fun _ => 1) 20 40 (by norm_num) (by norm_num)).2.1 (by norm_num [paddedLen])).2.2

/-- The empty message, which is 16 bytes of padding. -/
theorem aes256UnpadPkcs7_empty : ¬ ∀ (buffer : Mem) (n : Nat), n < 2 ^ 64 → aes256UnpadPkcs7 buffer n = 0 →
    ∀ m, ¬ PaddedFrom buffer m n := by
  intro h
  have hpadded : PaddedFrom (fun _ => 16) 0 16 := ⟨rfl, fun i _ _ => rfl⟩
  exact h (fun _ => 16) 16 (by norm_num) (unpad_of_paddedFrom hpadded) 0 hpadded

end AmqOs.Cryptography
