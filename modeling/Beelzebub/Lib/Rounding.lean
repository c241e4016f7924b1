import Mathlib.Algebra.Order.Floor.Div
import Mathlib.Algebra.Order.Group.Nat
import Mathlib.Algebra.Order.Ring.Nat
import Mathlib.Data.Nat.Notation

/-!
# Rounding up, and how many items fit

A range for a number of items behind a header is rounded up to whole steps, and then has room
for at least as many items.  So many items with their header need the same steps again
(`up_items`): a size can be recovered from the number of items that fit.
-/

namespace Rounding

variable {step x y n extra item skip : ℕ}

/-- The least multiple of the step that is not less. -/
def up (step x : ℕ) : ℕ := step * (x ⌈/⌉ step)

theorem up_eq (hs : 0 < step) : up step x = (x + (step - 1)) / step * step := by
  rw [up, Nat.ceilDiv_eq_add_pred_div, Nat.mul_comm, Nat.add_sub_assoc hs]

theorem le_up (hs : 0 < step) : x ≤ up step x := le_smul_ceilDiv hs

theorem up_le (hs : 0 < step) {k : ℕ} (h : x ≤ step * k) : up step x ≤ step * k :=
  Nat.mul_le_mul_left step ((ceilDiv_le_iff_le_mul hs).mpr h)

theorem up_mono (hs : 0 < step) (h : x ≤ y) : up step x ≤ up step y :=
  up_le hs (h.trans (le_up hs))

theorem up_lt (hs : 0 < step) : up step x < x + step := by
  rw [up_eq hs]
  have := Nat.div_mul_le_self (x + (step - 1)) step
  omega

/-- So many items fit behind the header. -/
def items (item skip size : ℕ) : ℕ := (size - skip) / item

/-- As many items as fit, but not one more. -/
theorem items_spec {size : ℕ} (hi : 0 < item) (h : skip ≤ size) :
    item * items item skip size + skip ≤ size ∧
      size < item * (items item skip size + 1) + skip := by
  have hle := Nat.mul_div_le (size - skip) item
  have hlt := Nat.lt_mul_div_succ (size - skip) hi
  unfold items
  exact ⟨by omega, by omega⟩

theorem skip_le_up (hs : 0 < step) : skip ≤ up step (item * n + skip) :=
  (Nat.le_add_left skip _).trans (le_up hs)

theorem le_items (hs : 0 < step) (hi : 0 < item) :
    n ≤ items item skip (up step (item * n + skip)) := by
  rw [items, Nat.le_div_iff_mul_le hi, Nat.mul_comm]
  have hle : item * n + skip ≤ up step (item * n + skip) := le_up hs
  omega

/-- The items that fit need the same steps. -/
theorem up_items (hs : 0 < step) (hi : 0 < item) :
    up step (item * items item skip (up step (item * n + skip)) + skip) =
      up step (item * n + skip) := by
  apply Nat.le_antisymm
  · exact up_le hs (items_spec hi (skip_le_up hs)).1
  · apply up_mono hs
    exact Nat.add_le_add_right (Nat.mul_le_mul_left item (le_items hs hi)) skip

/-- When no other item fits, more items need more steps. -/
theorem up_lt_up (hs : 0 < step) (h : up step (item * n + skip) < item * (n + 1) + skip)
    (hextra : 0 < extra) : up step (item * n + skip) < up step (item * (n + extra) + skip) := by
  have hle : item * (n + extra) + skip ≤ up step (item * (n + extra) + skip) := le_up hs
  have hmul := Nat.mul_le_mul_left item (show n + 1 ≤ n + extra by omega)
  omega

/-- Fewer items, by more than a step of them, need fewer steps. -/
theorem up_lt_of_add_le {size : ℕ} (hs : 0 < step) (h : item * n + skip + step ≤ size) :
    up step (item * n + skip) < size :=
  (up_lt hs).trans_le h

end Rounding
