import Mathlib.Algebra.Ring.Nat
import Mathlib.Tactic.Common

/-!
# 64-bit words as naturals

Machine words are naturals below `2 ^ 64`.  Addition and subtraction wrap, as
unsigned arithmetic does; where the true result fits they are the operations of
the naturals.
-/

namespace Word

/-- Addition modulo `2 ^ 64`. -/
def add (a b : ℕ) : ℕ := (a + b) % 2 ^ 64

/-- Subtraction modulo `2 ^ 64`. -/
def sub (a b : ℕ) : ℕ := (a + (2 ^ 64 - b % 2 ^ 64)) % 2 ^ 64

theorem add_of_lt {a b : ℕ} (h : a + b < 2 ^ 64) : add a b = a + b := Nat.mod_eq_of_lt h

theorem sub_of_le {a b : ℕ} (ha : a < 2 ^ 64) (h : b ≤ a) : sub a b = a - b := by
  unfold sub
  omega

theorem add_lt (a b : ℕ) : add a b < 2 ^ 64 := Nat.mod_lt _ (by decide)

theorem sub_lt (a b : ℕ) : sub a b < 2 ^ 64 := Nat.mod_lt _ (by decide)

/-- A difference that has wrapped is too large to be the true one. -/
theorem sub_of_lt {a b : ℕ} (hb : b < 2 ^ 64) (h : a < b) : sub a b = 2 ^ 64 - (b - a) := by
  unfold sub
  omega

/-- The end of a range computed from its start and its wrapped length. -/
theorem add_sub_cancel {a b : ℕ} (hb : b < 2 ^ 64) : add a (sub b a) = b := by
  unfold add sub
  omega

end Word
