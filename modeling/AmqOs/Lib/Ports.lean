import Mathlib

/-!
# Devices behind ports

A `Bus` is a device that a program reaches through its ports only. A driver waits for such a device by reading a port
until the value decides, a bounded number of times (`poll`).

- `poll_waits`: readings that do not decide only use up the bound;
- `poll_decides` and `poll_givesUp`: what a wait returns when its first deciding reading is known, or there is none;
- `Bus.Keeps`: what every access but the writing of words keeps, a wait keeps (`Bus.Keeps.poll`).
-/

set_option autoImplicit false

namespace AmqOs.Lib

/-- A device, by what reading and writing its ports does. -/
structure Bus (σ : Type) where
  inb : UInt16 → σ → UInt8 × σ
  outb : UInt16 → UInt8 → σ → σ
  inw : UInt16 → σ → UInt16 × σ
  outw : UInt16 → UInt16 → σ → σ

variable {σ α : Type} (bus : Bus σ) (port : UInt16)

/-- The loop `while (timeout > 0) { v = inb(port); if (f decides v) return; timeout--; }`. -/
def poll (f : UInt8 → Option α) (giveUp : α) : Nat → σ → α × σ
  | 0, s => (giveUp, s)
  | timeout + 1, s =>
    match f (bus.inb port s).1 with
    | some a => (a, (bus.inb port s).2)
    | none => poll f giveUp timeout (bus.inb port s).2

/-- The device after `k` readings of the port. -/
def afterReads (k : Nat) (s : σ) : σ := (fun s => (bus.inb port s).2)^[k] s

variable {bus port} {f : UInt8 → Option α} {giveUp a : α} {s : σ} {k n : Nat}

@[simp] theorem afterReads_zero : afterReads bus port 0 s = s := rfl

theorem afterReads_succ : afterReads bus port (k + 1) s = (bus.inb port (afterReads bus port k s)).2 :=
  Function.iterate_succ_apply' _ _ _

theorem poll_waits (hnone : ∀ j < k, f (bus.inb port (afterReads bus port j s)).1 = none) :
    poll bus port f giveUp (k + n) s = poll bus port f giveUp n (afterReads bus port k s) := by
  induction k generalizing s with
  | zero => simp
  | succ k ih =>
    have h0 : f (bus.inb port s).1 = none := hnone 0 (by omega)
    rw [show k + 1 + n = k + n + 1 by omega]
    simp only [poll, h0]
    exact ih fun j hj => hnone (j + 1) (by omega)

/-- **The wait ends** with the first reading that decides. -/
theorem poll_decides (hnone : ∀ j < k, f (bus.inb port (afterReads bus port j s)).1 = none) (hk : k < n)
    (ha : f (bus.inb port (afterReads bus port k s)).1 = some a) :
    poll bus port f giveUp n s = (a, afterReads bus port (k + 1) s) := by
  obtain ⟨i, rfl⟩ := Nat.exists_eq_add_of_lt hk
  rw [show k + i + 1 = k + (i + 1) by omega, poll_waits hnone, afterReads_succ]
  simp [poll, ha]

/-- **The wait gives up** when no reading decides. -/
theorem poll_givesUp (hnone : ∀ j < n, f (bus.inb port (afterReads bus port j s)).1 = none) :
    poll bus port f giveUp n s = (giveUp, afterReads bus port n s) :=
  poll_waits (n := 0) hnone

/-- Reading any port and writing a byte to any port keep `P`. -/
structure Bus.Keeps (bus : Bus σ) (P : σ → Prop) : Prop where
  inb : ∀ port s, P s → P (bus.inb port s).2
  outb : ∀ port v s, P s → P (bus.outb port v s)
  inw : ∀ port s, P s → P (bus.inw port s).2

theorem Bus.Keeps.poll {P : σ → Prop} (h : bus.Keeps P) (hs : P s) : P (poll bus port f giveUp n s).2 := by
  induction n generalizing s with
  | zero => exact hs
  | succ n ih =>
    simp only [Lib.poll]
    split
    · exact h.inb port s hs
    · exact ih (h.inb port s hs)

end AmqOs.Lib
