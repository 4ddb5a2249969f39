import Mathlib

/-!
# Byte memory

A memory is a byte for every address. `loadLE` and `storeLE` access little-endian numbers of any width, `load32`,
`store32` the 32-bit words, `loadVec`, `storeVec` arrays of bytes. A load sees only the bytes of its own range
(`loadLE_congr`), it gives back what was stored there (`loadLE_storeLE`), and a store changes no byte outside its
range (`store_out`, `storeLE_out`, `storeVec_out`).
-/

set_option autoImplicit false

namespace AmqOs.Lib

/-- A byte for every address. -/
abbrev Mem := Nat → UInt8

namespace Mem

variable {m m' : Mem} {a b n v x : Nat}

/-- `n` bytes given by `f` are copied to `a`. -/
def store (m : Mem) (a n : Nat) (f : Nat → UInt8) : Mem := fun x => if a ≤ x ∧ x < a + n then f (x - a) else m x

theorem store_in {f : Nat → UInt8} (h1 : a ≤ x) (h2 : x < a + n) : store m a n f x = f (x - a) := by
  simp [store, h1, h2]

theorem store_out {f : Nat → UInt8} (h : x < a ∨ a + n ≤ x) : store m a n f x = m x := by
  unfold store
  rw [if_neg (by omega)]

@[simp] theorem store_zero {f : Nat → UInt8} : store m a 0 f = m := funext fun x => store_out (by omega)

/-- One more byte. -/
theorem store_succ {f : Nat → UInt8} : store m a (n + 1) f = Function.update (store m a n f) (a + n) (f n) := by
  funext x
  by_cases hx : x = a + n
  · subst hx
    rw [Function.update_self, store_in (by omega) (by omega), Nat.add_sub_cancel_left]
  · rw [Function.update_of_ne hx]
    by_cases hin : a ≤ x ∧ x < a + n
    · rw [store_in hin.1 hin.2, store_in hin.1 (by omega)]
    · rw [store_out (by omega), store_out (by omega)]

/-- Two adjacent stores. -/
theorem store_add {k : Nat} {f g : Nat → UInt8} :
    store (store m a n f) (a + n) k g = store m a (n + k) fun x => if x < n then f x else g (x - n) := by
  funext x
  by_cases hlo : x < a + n
  · rw [store_out (.inl hlo)]
    by_cases ha : a ≤ x
    · rw [store_in ha hlo, store_in ha (by omega), if_pos (by omega)]
    · rw [store_out (by omega), store_out (by omega)]
  · by_cases hhi : x < a + n + k
    · rw [store_in (by omega) hhi, store_in (by omega) (by omega), if_neg (by omega), Nat.sub_add_eq]
    · rw [store_out (by omega), store_out (by omega), store_out (by omega)]

theorem store_congr {f g : Nat → UInt8} (h : ∀ x < n, f x = g x) : store m a n f = store m a n g := by
  funext x
  by_cases hx : a ≤ x ∧ x < a + n
  · rw [store_in hx.1 hx.2, store_in hx.1 hx.2, h _ (by omega)]
  · rw [store_out (by omega), store_out (by omega)]

/-! ## Little-endian numbers -/

/-- The number stored little-endian in the `n` bytes at `a`. -/
def loadLE (m : Mem) (a : Nat) : Nat → Nat
  | 0 => 0
  | n + 1 => (m a).toNat + 256 * loadLE m (a + 1) n

/-- Stores the low `n` bytes of `v` at `a`. -/
def storeLE (m : Mem) (a n v : Nat) : Mem := store m a n fun k => UInt8.ofNat (v / 256 ^ k)

theorem loadLE_lt : loadLE m a n < 256 ^ n := by
  induction n generalizing a with
  | zero => simp [loadLE]
  | succ n ih =>
    have h1 := (m a).toNat_lt
    have h2 := ih (a := a + 1)
    simp only [loadLE, pow_succ]
    omega

theorem loadLE_congr (h : ∀ x, a ≤ x → x < a + n → m x = m' x) : loadLE m a n = loadLE m' a n := by
  induction n generalizing a with
  | zero => rfl
  | succ n ih =>
    simp only [loadLE]
    rw [h a (le_refl _) (by omega), ih fun x h1 h2 => h x (by omega) (by omega)]

theorem storeLE_out (h : x < a ∨ a + n ≤ x) : storeLE m a n v x = m x := store_out h

theorem loadLE_storeLE (h : v < 256 ^ n) : loadLE (storeLE m a n v) a n = v := by
  induction n generalizing a v m with
  | zero =>
    simp only [pow_zero] at h
    simp only [loadLE]
    omega
  | succ n ih =>
    have hhead : (storeLE m a (n + 1) v a).toNat = v % 256 := by
      simp [storeLE, store_in (le_refl a) (show a < a + (n + 1) by omega)]
    -- past its first byte, the store of `v` is the store of `v / 256` one address further
    have htail : loadLE (storeLE m a (n + 1) v) (a + 1) n = loadLE (storeLE m (a + 1) n (v / 256)) (a + 1) n := by
      apply loadLE_congr
      intro x h1 h2
      simp only [storeLE]
      rw [store_in (by omega) (by omega), store_in h1 h2, Nat.div_div_eq_div_mul, ← pow_succ']
      congr 3
      omega
    have hdiv : v / 256 < 256 ^ n := by
      rw [pow_succ] at h
      exact Nat.div_lt_of_lt_mul (by omega)
    simp only [loadLE]
    rw [hhead, htail, ih hdiv]
    omega

/-- A load that does not meet the stored range. -/
theorem loadLE_storeLE_out {k : Nat} (h : a + n ≤ b ∨ b + k ≤ a) : loadLE (storeLE m b k v) a n = loadLE m a n :=
  loadLE_congr fun x h1 h2 => storeLE_out (by omega)

/-- The bytes of a number that was loaded. -/
theorem byte_loadLE {k : Nat} (h : k < n) : UInt8.ofNat (loadLE m a n / 256 ^ k) = m (a + k) := by
  induction n generalizing a k with
  | zero => omega
  | succ n ih =>
    cases k with
    | zero =>
      have hm : (loadLE m a (n + 1)) % 256 = (m a).toNat := by
        have := (m a).toNat_lt
        simp only [loadLE]
        omega
      rw [← UInt8.toNat_inj]
      simpa using hm
    | succ k =>
      have hdiv : loadLE m a (n + 1) / 256 ^ (k + 1) = loadLE m (a + 1) n / 256 ^ k := by
        have := (m a).toNat_lt
        rw [pow_succ', ← Nat.div_div_eq_div_mul]
        congr 1
        simp only [loadLE]
        omega
      rw [hdiv, ih (by omega)]
      congr 1
      omega

/-- A number copied from memory to memory. -/
theorem storeLE_loadLE {m' : Mem} {b : Nat} : storeLE m a n (loadLE m' b n) = store m a n fun x => m' (b + x) := by
  unfold storeLE
  exact store_congr fun x hx => byte_loadLE hx

/-! ## 32-bit words -/

/-- The 32-bit word at `a`. -/
def load32 (m : Mem) (a : Nat) : UInt32 := UInt32.ofNat (loadLE m a 4)

/-- Stores a 32-bit word at `a`. -/
def store32 (m : Mem) (a : Nat) (v : UInt32) : Mem := storeLE m a 4 v.toNat

theorem load32_congr (h : ∀ x, a ≤ x → x < a + 4 → m x = m' x) : load32 m a = load32 m' a := by
  unfold load32
  rw [loadLE_congr h]

theorem store32_out {w : UInt32} (h : x < a ∨ a + 4 ≤ x) : store32 m a w x = m x := storeLE_out h

/-- A word that does not meet the stored range. -/
theorem load32_store_out {f : Nat → UInt8} {k : Nat} (h : a + 4 ≤ b ∨ b + k ≤ a) :
    load32 (store m b k f) a = load32 m a :=
  load32_congr fun x h1 h2 => store_out (by omega)

theorem load32_store32_out {w : UInt32} (h : a + 4 ≤ b ∨ b + 4 ≤ a) : load32 (store32 m b w) a = load32 m a := by
  unfold store32 storeLE
  exact load32_store_out h

theorem load32_store32 {w : UInt32} : load32 (store32 m a w) a = w := by
  unfold load32 store32
  rw [loadLE_storeLE (by simpa using w.toNat_lt)]
  exact UInt32.ofNat_toNat

/-! ## Byte arrays -/

/-- The `n` bytes at `a`. -/
def loadVec (m : Mem) (a n : Nat) : Vector UInt8 n := Vector.ofFn fun i => m (a + i)

/-- Stores an array at `a`. -/
def storeVec (m : Mem) (a : Nat) (w : Vector UInt8 n) : Mem := store m a n fun k => w[k]?.getD 0

theorem loadVec_congr (h : ∀ x, a ≤ x → x < a + n → m x = m' x) : loadVec m a n = loadVec m' a n := by
  unfold loadVec
  congr 1
  funext i
  exact h _ (by omega) (by omega)

theorem loadVec_store_out {f : Nat → UInt8} {k : Nat} (h : a + n ≤ b ∨ b + k ≤ a) :
    loadVec (store m b k f) a n = loadVec m a n :=
  loadVec_congr fun x h1 h2 => store_out (by omega)

theorem loadVec_store32_out {w : UInt32} (h : a + n ≤ b ∨ b + 4 ≤ a) :
    loadVec (store32 m b w) a n = loadVec m a n := by
  unfold store32 storeLE
  exact loadVec_store_out h

theorem load32_storeVec_out {w : Vector UInt8 n} (h : a + 4 ≤ b ∨ b + n ≤ a) :
    load32 (storeVec m b w) a = load32 m a :=
  load32_store_out h

theorem loadVec_storeVec_out {k : Nat} {w : Vector UInt8 k} (h : a + n ≤ b ∨ b + k ≤ a) :
    loadVec (storeVec m b w) a n = loadVec m a n :=
  loadVec_store_out h

theorem storeVec_out {w : Vector UInt8 n} (h : x < a ∨ a + n ≤ x) : storeVec m a w x = m x := store_out h

theorem loadVec_storeVec {w : Vector UInt8 n} : loadVec (storeVec m a w) a n = w := by
  ext i hi
  simp [loadVec, storeVec, store_in (show a ≤ a + i by omega) (show a + i < a + n by omega), hi]

end Mem

end AmqOs.Lib
