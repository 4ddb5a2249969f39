import AmqOs.Cryptography.Sha512

/-!
# HMAC-SHA512

`hmac_sha512` feeds the padded key and the message to one context, and then the padded key and the digest of that to the
same context, started again. RFC 2104 defines HMAC for any hash function (`Rfc2104.hmac`); the code computes it for SHA-512
(`hmacSha512_rfc`), which is what `sha512_hash` computes.
-/

set_option autoImplicit false

namespace AmqOs

/-! ## RFC 2104 -/

namespace Rfc2104

variable (B : Nat) (H : List UInt8 → List UInt8)

/-- The key as a block of `B` bytes: hashed if it is longer, and filled up with zeros. -/
def blockKey (key : List UInt8) : List UInt8 :=
  let key := if key.length > B then H key else key
  key ++ List.replicate (B - key.length) 0

def ipad : UInt8 := 0x36

def opad : UInt8 := 0x5c

/-- `H((K' xor opad) || H((K' xor ipad) || text))`. -/
def hmac (key text : List UInt8) : List UInt8 :=
  H ((blockKey B H key).map (· ^^^ opad) ++ H ((blockKey B H key).map (· ^^^ ipad) ++ text))

end Rfc2104

namespace Cryptography

open Lib

/-! ## The code -/

/-- The context that `sha512_final` leaves. -/
def finalContext (ctx : Sha512Ctx) : Option Sha512Ctx :=
  let bits := wordToBytes ctx.count1 ++ wordToBytes ctx.count0
  let index := ctx.index
  let padLen := if index < 112 then 112 - index else 240 - index
  sha512Updates ctx [0x80 :: List.replicate (padLen - 1) 0, bits]

/-- The two loops that fill `k_pad`. -/
def fillKPad (k : List UInt8) (c : UInt8) : List UInt8 := k.map (· ^^^ c) ++ List.replicate (128 - k.length) c

/-- `sha512_init`, two times `sha512_update`, and `sha512_final`: the context and the digest. -/
def hmacPass (ctx : Sha512Ctx) (kPad data : List UInt8) : Option (Sha512Ctx × List UInt8) := do
  let ctx ← sha512Update (sha512Init ctx) kPad
  let ctx ← sha512Update ctx data
  let digest ← sha512Final ctx
  let ctx ← finalContext ctx
  some (ctx, digest)

/-- `k`: the key, or `tk`. -/
def hmacKey (tmp : Sha512Ctx) (key : List UInt8) : Option (List UInt8) :=
  if key.length > 128 then sha512Hash tmp key else some key

/-- `hmac_sha512`; `tmp` is the context of `sha512_hash` for the key. The first digest is put in the buffer for the result,
in which the key does not lie. -/
def hmacSha512 (ctx tmp : Sha512Ctx) (key data : List UInt8) : Option (List UInt8) := do
  let k ← hmacKey tmp key
  let (ctx, hmac) ← hmacPass ctx (fillKPad k 0x36) data
  let (_, hmac) ← hmacPass ctx (fillKPad k 0x5c) hmac
  some hmac

/-! ## One pass -/

variable {ctx : Sha512Ctx} {msg : List UInt8}

/-- `sha512_final` takes the digest from the words of the context that it leaves. -/
theorem sha512Final_eq : sha512Final ctx = (finalContext ctx).map fun ctx => ctx.state.words.flatMap wordToBytes := by
  unfold sha512Final finalContext sha512Updates
  simp only [List.foldlM_cons, List.foldlM_nil, Option.bind_eq_bind, Option.map_eq_bind, Option.bind_assoc,
    Option.pure_def]
  rfl

/-- A pass computes the hash of the two pieces. -/
theorem hmacPass_eq (ctx : Sha512Ctx) {kPad data : List UInt8} (hk : InMemory kPad) (hd : InMemory data) :
    ∃ ctx', hmacPass ctx kPad data = some (ctx', Fips180.sha512 (kPad ++ data)) := by
  obtain ⟨ctx₁, hupd₁, h₁⟩ := (StreamInv.init ctx).update hk
  obtain ⟨ctx₂, hupd₂, h₂⟩ := h₁.update hd
  have hfinal := h₂.final
  have hctx := hfinal
  rw [sha512Final_eq] at hctx
  obtain ⟨ctx', hctx', -⟩ := Option.map_eq_some_iff.mp hctx
  rw [List.nil_append] at hfinal
  refine ⟨ctx', ?_⟩
  simp only [hmacPass, hupd₁, hupd₂, hfinal, hctx', Option.bind_eq_bind, Option.bind_some]

/-! ## The key -/

theorem length_sha512 (m : List UInt8) : (Fips180.sha512 m).length = 64 := by
  simp [Fips180.sha512, Fips180.Hash.words, length_bytesBE]

theorem length_fillKPad {k : List UInt8} {c : UInt8} (h : k.length ≤ 128) : (fillKPad k c).length = 128 := by
  rw [fillKPad, List.length_append, List.length_map, List.length_replicate]
  omega

/-- The two loops compute the padded key with a constant over it. -/
theorem fillKPad_eq (k : List UInt8) (c : UInt8) :
    fillKPad k c = (k ++ List.replicate (128 - k.length) 0).map (· ^^^ c) := by
  rw [fillKPad, List.map_append, List.map_replicate, UInt8.zero_xor]

theorem inMemory_short {m : List UInt8} (h : m.length ≤ 128) : InMemory m := by
  rw [InMemory, sizeofCtx]
  omega

/-- **HMAC-SHA512**: `hmac_sha512` computes HMAC of RFC 2104 with blocks of 128 bytes for the function that `sha512_hash`
computes, whatever the contexts held before. -/
theorem hmacSha512_rfc (ctx tmp : Sha512Ctx) (key data : List UInt8) (hkey : InMemory key) (hdata : InMemory data) :
    hmacSha512 ctx tmp key data = some (Rfc2104.hmac 128 Fips180.sha512 key data) ∧
      ∀ (ctx : Sha512Ctx) (m : List UInt8), InMemory m → sha512Hash ctx m = some (Fips180.sha512 m) := by
  have hhash : ∀ (ctx : Sha512Ctx) (m : List UInt8), InMemory m → sha512Hash ctx m = some (Fips180.sha512 m) := by
    intro ctx m hm
    obtain ⟨ctx₁, hupd, h⟩ := (StreamInv.init ctx).update hm
    rw [sha512Hash, hupd]
    exact h.final
  refine ⟨?_, hhash⟩
  -- the key, or its digest
  obtain ⟨k, hk, hlen, hblock⟩ : ∃ k, hmacKey tmp key = some k ∧
      k.length ≤ 128 ∧ Rfc2104.blockKey 128 Fips180.sha512 key = k ++ List.replicate (128 - k.length) 0 := by
    unfold hmacKey Rfc2104.blockKey
    split
    · exact ⟨_, hhash tmp key hkey, by rw [length_sha512]; omega, rfl⟩
    · exact ⟨key, rfl, by omega, rfl⟩
  have hinner : InMemory (fillKPad k 0x36) := inMemory_short (by rw [length_fillKPad hlen])
  have houter : InMemory (fillKPad k 0x5c) := inMemory_short (by rw [length_fillKPad hlen])
  obtain ⟨ctx₁, hpass₁⟩ := hmacPass_eq ctx hinner hdata
  obtain ⟨ctx₂, hpass₂⟩ := hmacPass_eq ctx₁ houter
    (inMemory_short (m := Fips180.sha512 (fillKPad k 0x36 ++ data)) (by rw [length_sha512]; omega))
  have hresult : hmacSha512 ctx tmp key data =
      some (Fips180.sha512 (fillKPad k 0x5c ++ Fips180.sha512 (fillKPad k 0x36 ++ data))) := by
    simp only [hmacSha512, hk, hpass₁, hpass₂, Option.bind_eq_bind, Option.bind_some]
  rw [hresult, Rfc2104.hmac, hblock, fillKPad_eq, fillKPad_eq]
  rfl

/-- A key that is longer than a block. -/
theorem hmacSha512_rfc_long : hmacSha512 ⟨default, 7, 7, Vector.replicate 128 7⟩ ⟨default, 0, 0, Vector.replicate 128 0⟩
      (List.replicate 200 1) [2, 3] =
    some (Rfc2104.hmac 128 Fips180.sha512 (List.replicate 200 1) [2, 3]) :=
  (hmacSha512_rfc _ _ _ _ (by rw [InMemory, List.length_replicate, sizeofCtx]; norm_num)
    (inMemory_short (by norm_num))).1

end Cryptography

end AmqOs
