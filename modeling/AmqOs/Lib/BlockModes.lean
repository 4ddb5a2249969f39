import AmqOs.Lib.Loop

/-!
# Modes of block ciphers

- `forStride k len f`: the loop `for (i = 0; i < len; i += k) f(i, s);` with a 64-bit counter, which ends after `len / k`
  turns (`forStride_eq`);
- `chain E iv x` and `unchain D iv c`: cipher block chaining over blocks of any kind, and that each undoes the other
  (`unchain_chain`, `chain_unchain`);
- `numBE c k`: the number that the first `k` bytes of an array are, the highest first; `ofNumBE` is the array of a number
  (`ofNumBE_numBE`), and `incFrom` adds one to it with its carries (`numBE_incFrom`).
-/

set_option autoImplicit false

namespace AmqOs.Lib

/-! ## Strided loops -/

section Stride

variable {σ : Type} {f : Nat → σ → σ} {k len : Nat}

/-- `for (i = 0; i < len; i += k)`; `none` when it is still running after `fuel` tests. -/
def forStride (k len : Nat) (f : Nat → σ → σ) : Nat → Nat → σ → Option σ
  | 0, _, _ => none
  | fuel + 1, i, s => if i < len then forStride k len f fuel ((i + k) % 2 ^ 64) (f i s) else some s

/-- The counter meets the end exactly, without a wrap. -/
theorem forStride_eq (hk : 0 < k) (hlen : len < 2 ^ 64) (hmul : len % k = 0) (s : σ) :
    forStride k len f (len / k + 1) 0 s = some (forUpTo (fun b => f (k * b)) (len / k) s) := by
  have hdiv : k * (len / k) = len := Nat.mul_div_cancel' (Nat.dvd_of_mod_eq_zero hmul)
  -- from turn `b` on, after the turns before it
  have hgo : ∀ n b, b + n = len / k → forStride k len f (n + 1) (k * b) (forUpTo (fun b => f (k * b)) b s) =
      some (forUpTo (fun b => f (k * b)) (len / k) s) := by
    intro n
    induction n with
    | zero =>
      rintro b rfl
      rw [forStride, if_neg (by omega)]
    | succ n ih =>
      intro b hb
      have hle : k * b + k ≤ len := by
        rw [← hdiv, ← Nat.mul_succ]
        exact Nat.mul_le_mul_left k (by omega)
      rw [forStride, if_pos (by omega), Nat.mod_eq_of_lt (by omega), ← Nat.mul_succ]
      exact ih (b + 1) (by omega)
  exact hgo (len / k) 0 (by omega)

end Stride

/-! ## Chaining -/

section Chaining

variable {β : Type} {op : β → β → β} {E D : β → β} {iv : β} {x y : Nat → β} {n : Nat}

/-- Block `n` of the chain, the first of which is the initial vector. -/
def chain (op : β → β → β) (E : β → β) (iv : β) (x : Nat → β) : Nat → β
  | 0 => iv
  | n + 1 => E (op (x n) (chain op E iv x n))

/-- The block before block `n`. -/
def before (iv : β) (x : Nat → β) : Nat → β
  | 0 => iv
  | n + 1 => x n

/-- Block `n` of what is recovered from the blocks of a chain. -/
def unchain (op : β → β → β) (D : β → β) (iv : β) (c : Nat → β) (n : Nat) : β := op (D (c n)) (before iv c n)

theorem unchain_chain (hop : ∀ a b, op (op a b) b = a) (hD : ∀ a, D (E a) = a)
    (hy : ∀ k ≤ n, y k = chain op E iv x (k + 1)) : unchain op D iv y n = x n := by
  have hbefore : before iv y n = chain op E iv x n := by
    cases n with
    | zero => rfl
    | succ n => exact hy n (by omega)
  rw [unchain, hy n (le_refl n), chain, hD, hbefore, hop]

theorem chain_unchain (hop : ∀ a b, op (op a b) b = a) (hE : ∀ a, E (D a) = a)
    (hy : ∀ k < n, y k = unchain op D iv x k) : chain op E iv y n = before iv x n := by
  induction n with
  | zero => rfl
  | succ n ih =>
    rw [chain, ih fun k hk => hy k (by omega), hy n (by omega), unchain, hop, hE]
    rfl

end Chaining

/-! ## Big-endian numbers -/

section BigEndian

variable {n : Nat} {c d : Vector UInt8 n}

/-- The number in the first `k` bytes. -/
def numBE (c : Vector UInt8 n) : Nat → Nat
  | 0 => 0
  | k + 1 => numBE c k * 256 + (entry c k).toNat

/-- The low `n` bytes of a number. -/
def ofNumBE (n v : Nat) : Vector UInt8 n := Vector.ofFn fun i => UInt8.ofNat (v / 256 ^ (n - 1 - i.val))

/-- `for (i = k - 1; i >= 0; i--) if (++c[i] != 0) break;` -/
def incFrom : Nat → Vector UInt8 n → Vector UInt8 n
  | 0, c => c
  | k + 1, c =>
    let c := put c k (entry c k + 1)
    if entry c k ≠ 0 then c else incFrom k c

theorem numBE_lt (k : Nat) : numBE c k < 256 ^ k := by
  induction k with
  | zero => simp [numBE]
  | succ k ih =>
    have hb := (entry c k).toNat_lt
    rw [numBE, pow_succ]
    omega

theorem numBE_congr {k : Nat} (h : ∀ i < k, entry c i = entry d i) : numBE c k = numBE d k := by
  induction k with
  | zero => rfl
  | succ k ih => rw [numBE, numBE, ih fun i hi => h i (by omega), h k (by omega)]

theorem entry_incFrom {k j : Nat} (hkj : k ≤ j) (hj : j < n) : entry (incFrom k c) j = entry c j := by
  induction k generalizing c with
  | zero => rfl
  | succ k ih =>
    have hput : entry (put c k (entry c k + 1)) j = entry c j := by
      rw [entry_put _ _ _ hj, if_neg (by omega)]
    rw [incFrom]
    split
    · exact hput
    · rw [ih (by omega), hput]

/-- One is added, and the carry past the first byte is lost. -/
theorem numBE_incFrom {k : Nat} (hk : k ≤ n) : numBE (incFrom k c) k = (numBE c k + 1) % 256 ^ k := by
  induction k generalizing c with
  | zero => simp [numBE]
  | succ k ih =>
    have hself : entry (put c k (entry c k + 1)) k = entry c k + 1 := by
      rw [entry_put _ _ _ (by omega), if_pos rfl]
    have hlow : numBE (put c k (entry c k + 1)) k = numBE c k := by
      apply numBE_congr
      intro i hi
      rw [entry_put _ _ _ (by omega), if_neg (by omega)]
    have hb := (entry c k).toNat_lt
    have hlt := @numBE_lt n c k
    have hsum : (entry c k + 1).toNat = ((entry c k).toNat + 1) % 256 := by
      rw [UInt8.toNat_add]
      rfl
    rw [incFrom, hself, pow_succ]
    split
    · -- no carry
      rename_i hne
      have hne' : (entry c k + 1).toNat ≠ 0 := fun h => hne (UInt8.toNat_inj.mp h)
      rw [numBE, numBE, hself, hlow, hsum, Nat.mod_eq_of_lt (show numBE c k * 256 + (entry c k).toNat + 1 < _ by omega)]
      omega
    · -- the byte becomes zero, and the bytes before it get the carry
      rename_i hzero
      rw [not_not] at hzero
      have hmax : (entry c k).toNat = 255 := by
        rw [hzero] at hsum
        have hsum' : 0 = ((entry c k).toNat + 1) % 256 := hsum
        omega
      rw [numBE, numBE, ih (by omega), entry_incFrom (le_refl k) (by omega), hlow, hself, hzero, hmax,
        show numBE c k * 256 + 255 + 1 = (numBE c k + 1) * 256 by omega, Nat.mul_mod_mul_right]
      simp

theorem entry_ofNumBE {v j : Nat} (hj : j < n) : entry (ofNumBE n v) j = UInt8.ofNat (v / 256 ^ (n - 1 - j)) := by
  simp [entry, ofNumBE, hj]

/-- An array is that of its number. -/
theorem ofNumBE_numBE (c : Vector UInt8 n) : ofNumBE n (numBE c n) = c := by
  -- the bytes from `j` on, taken off the number
  have hdiv : ∀ i j, j + i = n → numBE c n / 256 ^ i = numBE c j := by
    intro i
    induction i with
    | zero =>
      intro j hj
      obtain rfl : j = n := by omega
      rw [pow_zero, Nat.div_one]
    | succ i ih =>
      intro j hj
      have hb := (entry c j).toNat_lt
      rw [pow_succ, ← Nat.div_div_eq_div_mul, ih (j + 1) (by omega), numBE]
      omega
  apply entry_ext
  intro j hj
  rw [entry_ofNumBE hj, hdiv (n - 1 - j) (j + 1) (by omega), numBE]
  apply UInt8.toNat_inj.mp
  have hb := (entry c j).toNat_lt
  rw [UInt8.toNat_ofNat']
  omega

theorem numBE_iterate_incFrom (i : Nat) : numBE ((incFrom n)^[i] c) n = (numBE c n + i) % 256 ^ n := by
  induction i with
  | zero =>
    rw [Function.iterate_zero_apply, Nat.add_zero, Nat.mod_eq_of_lt (numBE_lt n)]
  | succ i ih =>
    rw [Function.iterate_succ_apply', numBE_incFrom (le_refl n), ih, Nat.mod_add_mod, Nat.add_assoc]

/-- The array after `i` increments. -/
theorem iterate_incFrom (i : Nat) : (incFrom n)^[i] c = ofNumBE n ((numBE c n + i) % 256 ^ n) := by
  rw [← numBE_iterate_incFrom, ofNumBE_numBE]

end BigEndian

end AmqOs.Lib
