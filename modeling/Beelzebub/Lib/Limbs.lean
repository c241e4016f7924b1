import Mathlib.Tactic.Ring

/-!
# Numbers as rows of limbs

A number is laid out in limbs of `w` bits, the lowest first.  `segment x s n` is the value of the
`n` limbs of `x` from the `s`-th on.
-/

namespace Limbs

variable {w : ℕ} {x y : ℕ → BitVec w} {s m n : ℕ}

def segment (x : ℕ → BitVec w) (s : ℕ) : ℕ → ℕ
  | 0 => 0
  | n + 1 => segment x s n + 2 ^ (w * n) * (x (s + n)).toNat

@[simp] theorem segment_zero (x : ℕ → BitVec w) (s : ℕ) : segment x s 0 = 0 := rfl

theorem segment_succ (x : ℕ → BitVec w) (s n : ℕ) :
    segment x s (n + 1) = segment x s n + 2 ^ (w * n) * (x (s + n)).toNat := rfl

theorem segment_one (x : ℕ → BitVec w) (s : ℕ) : segment x s 1 = (x s).toNat := by
  rw [segment_succ, segment_zero, Nat.mul_zero, Nat.pow_zero, Nat.zero_add, Nat.one_mul,
    Nat.add_zero]

/-- The powers of two that the limbs are multiplied with. -/
theorem pow_add_limbs (w m n : ℕ) : 2 ^ (w * (m + n)) = 2 ^ (w * m) * 2 ^ (w * n) := by
  rw [Nat.mul_add, Nat.pow_add]

theorem pow_le_limbs (w : ℕ) (h : m ≤ n) : 2 ^ (w * m) ≤ 2 ^ (w * n) :=
  Nat.pow_le_pow_right (by decide) (Nat.mul_le_mul_left w h)

theorem segment_lt (x : ℕ → BitVec w) (s n : ℕ) : segment x s n < 2 ^ (w * n) := by
  induction n with
  | zero => exact Nat.one_pos
  | succ n ih =>
      have hlimb : 2 ^ (w * n) * ((x (s + n)).toNat + 1) ≤ 2 ^ (w * n) * 2 ^ w :=
        Nat.mul_le_mul_left _ (x (s + n)).isLt
      rw [segment_succ, pow_add_limbs, Nat.mul_one]
      rw [Nat.mul_add, Nat.mul_one] at hlimb
      omega

theorem segment_lt_of_le (x : ℕ → BitVec w) (s : ℕ) (h : m ≤ n) :
    segment x s m < 2 ^ (w * n) :=
  Nat.lt_of_lt_of_le (segment_lt x s m) (pow_le_limbs w h)

theorem segment_congr {t : ℕ} (h : ∀ i < n, x (s + i) = y (t + i)) :
    segment x s n = segment y t n := by
  induction n with
  | zero => rfl
  | succ n ih =>
      rw [segment_succ, segment_succ, ih fun i hi => h i (Nat.lt_succ_of_lt hi),
        h n (Nat.lt_succ_self n)]

theorem segment_add (x : ℕ → BitVec w) (s m n : ℕ) :
    segment x s (m + n) = segment x s m + 2 ^ (w * m) * segment x (s + m) n := by
  induction n with
  | zero => rw [segment_zero, Nat.mul_zero, Nat.add_zero, Nat.add_zero]
  | succ n ih =>
      rw [← Nat.add_assoc, segment_succ, ih, segment_succ, pow_add_limbs, Nat.mul_add,
        Nat.mul_assoc, Nat.add_assoc, Nat.add_assoc]

/-- A segment by its lowest limb. -/
theorem segment_cons (x : ℕ → BitVec w) (s n : ℕ) :
    segment x s (n + 1) = (x s).toNat + 2 ^ w * segment x (s + 1) n := by
  rw [Nat.add_comm, segment_add, segment_one, Nat.mul_one]

theorem segment_mod (x : ℕ → BitVec w) (s : ℕ) (h : m ≤ n) :
    segment x s n % 2 ^ (w * m) = segment x s m := by
  obtain ⟨k, rfl⟩ := Nat.exists_eq_add_of_le h
  rw [segment_add, Nat.add_mul_mod_self_left, Nat.mod_eq_of_lt (segment_lt x s m)]

/-- The lower bits are those of the lower limbs. -/
theorem segment_mod_two_pow (x : ℕ → BitVec w) (s : ℕ) {k : ℕ} (hk : k ≤ w * m) (h : m ≤ n) :
    segment x s n % 2 ^ k = segment x s m % 2 ^ k := by
  rw [← segment_mod x s h, Nat.mod_mod_of_dvd _ (Nat.pow_dvd_pow 2 hk)]

theorem segment_div (x : ℕ → BitVec w) (s m n : ℕ) :
    segment x s (m + n) / 2 ^ (w * m) = segment x (s + m) n := by
  rw [segment_add, Nat.add_mul_div_left _ _ (Nat.two_pow_pos _),
    Nat.div_eq_of_lt (segment_lt x s m), Nat.zero_add]

theorem segment_eq_zero (h : ∀ i < n, x (s + i) = 0) : segment x s n = 0 := by
  induction n with
  | zero => rfl
  | succ n ih =>
      rw [segment_succ, ih fun i hi => h i (Nat.lt_succ_of_lt hi), h n (Nat.lt_succ_self n),
        Nat.zero_add]
      exact Nat.mul_zero _

/-- Zeros at the upper end do not count. -/
theorem segment_extend (hle : m ≤ n) (h : ∀ i, m ≤ i → i < n → x (s + i) = 0) :
    segment x s n = segment x s m := by
  obtain ⟨k, rfl⟩ := Nat.exists_eq_add_of_le hle
  have hzero : segment x (s + m) k = 0 := by
    refine segment_eq_zero fun i hi => ?_
    rw [Nat.add_assoc]
    exact h (m + i) (Nat.le_add_right m i) (Nat.add_lt_add_left hi m)
  rw [segment_add, hzero, Nat.mul_zero, Nat.add_zero]

end Limbs
