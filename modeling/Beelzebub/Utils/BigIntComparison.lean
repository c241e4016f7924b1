import Beelzebub.Utils.BigInt

/-!
# Comparison of arrays of dwords

The dwords that only the longer array has are looked at first, and any of them that is not zero
decides.  The rest is compared from the most significant dword down.

Both arrays are read in one memory, at any addresses: they may be the same or overlap.
-/

namespace Beelzebub.BigInt

open Limbs

/-- The array at an address of a memory that has a dword at each address. -/
def arrayAt (memory : ℕ → BitVec 32) (src : ℕ) : Dwords := fun i => memory (src + 4 * i)

/-- `for (i …) if (src[i] != 0) return …`, for so many dwords. -/
def anyNonZero (src : Dwords) : ℕ → ℕ → Bool
  | 0, _ => false
  | n + 1, i => if src i ≠ 0 then true else anyNonZero src n (i + 1)

/-- The loop over the dwords that both have, from the last one down. -/
def cmpDown (srcL srcR : Dwords) : ℕ → ℤ
  | 0 => 0
  | i + 1 =>
      if (srcL i).toNat > (srcR i).toNat then 1
      else if (srcR i).toNat > (srcL i).toNat then -1
      else cmpDown srcL srcR i

/-- Once the sizes are equal. -/
def cmpEqual (memory : ℕ → BitVec 32) (srcL srcR size : ℕ) : ℤ :=
  if srcL = srcR ∨ size = 0 then 0
  else cmpDown (arrayAt memory srcL) (arrayAt memory srcR) size

def bigIntCmp (memory : ℕ → BitVec 32) (srcL sizeL srcR sizeR : ℕ) : ℤ :=
  if sizeL > sizeR then
    if anyNonZero (arrayAt memory srcL) (sizeL - sizeR) sizeR then 1
    else cmpEqual memory srcL srcR sizeR
  else if sizeR > sizeL then
    if anyNonZero (arrayAt memory srcR) (sizeR - sizeL) sizeL then -1
    else cmpEqual memory srcL srcR sizeL
  else cmpEqual memory srcL srcR sizeL

/-- The value of an array. -/
def valueAt (memory : ℕ → BitVec 32) (src size : ℕ) : ℕ := segment (arrayAt memory src) 0 size

/-- `-1`, `0` or `1`, as the order of two values is. -/
def sign (x y : ℕ) : ℤ := if x < y then -1 else if x = y then 0 else 1

variable {memory : ℕ → BitVec 32} {src x y : Dwords} {srcL srcR sizeL sizeR i n m : ℕ}

theorem anyNonZero_eq_false (h : anyNonZero src n i = false) :
    ∀ j, i ≤ j → j < i + n → src j = 0 := by
  induction n generalizing i with
  | zero =>
      intro j hij hj
      omega
  | succ n ih =>
      intro j hij hj
      unfold anyNonZero at h
      by_cases hi : src i = 0
      · rw [if_neg (not_not_intro hi)] at h
        rcases Nat.eq_or_lt_of_le hij with rfl | hlt
        · exact hi
        · exact ih h j hlt (by omega)
      · rw [if_pos hi] at h
        cases h

theorem anyNonZero_eq_true (h : anyNonZero src n i = true) :
    ∃ j, i ≤ j ∧ j < i + n ∧ src j ≠ 0 := by
  induction n generalizing i with
  | zero => cases h
  | succ n ih =>
      unfold anyNonZero at h
      by_cases hi : src i = 0
      · rw [if_neg (not_not_intro hi)] at h
        obtain ⟨j, hij, hj, hne⟩ := ih h
        exact ⟨j, by omega, by omega, hne⟩
      · exact ⟨i, Nat.le_refl i, by omega, hi⟩

/-- An array with a dword behind those of another one has the larger value. -/
theorem segment_lt_segment (hne : x i ≠ 0) (hm : m ≤ i) (hn : i < n) :
    segment y 0 m < segment x 0 n := by
  have hpos : 0 < (x (0 + i)).toNat := by
    rw [Nat.zero_add]
    refine Nat.pos_of_ne_zero fun hzero => hne ?_
    exact BitVec.eq_of_toNat_eq hzero
  have hle : 2 ^ (32 * i) * 1 ≤ 2 ^ (32 * i) * (x (0 + i)).toNat := Nat.mul_le_mul_left _ hpos
  calc segment y 0 m < 2 ^ (32 * i) := segment_lt_of_le y 0 hm
    _ ≤ segment x 0 (i + 1) := by
        rw [segment_succ]
        omega
    _ ≤ segment x 0 n := by
        obtain ⟨k, rfl⟩ := Nat.exists_eq_add_of_le (show i + 1 ≤ n from hn)
        rw [segment_add x 0 (i + 1) k]
        exact Nat.le_add_right _ _

theorem sign_lt (h : n < m) : sign n m = -1 := if_pos h

theorem sign_gt (h : m < n) : sign n m = 1 := by
  rw [sign, if_neg (by omega), if_neg (by omega)]

theorem sign_self (n : ℕ) : sign n n = 0 := by
  rw [sign, if_neg (Nat.lt_irrefl n), if_pos rfl]

/-- The first dword in which two arrays differ decides. -/
theorem cmpDown_eq (x y : Dwords) (n : ℕ) :
    cmpDown x y n = sign (segment x 0 n) (segment y 0 n) := by
  induction n with
  | zero => rfl
  | succ n ih =>
      have hx := segment_lt x 0 n
      have hy := segment_lt y 0 n
      rw [segment_succ, segment_succ, Nat.zero_add, cmpDown]
      generalize (x n).toNat = l
      generalize (y n).toNat = r
      generalize 2 ^ (32 * n) = p at hx hy
      by_cases hgt : l > r
      · have hmul : p * (r + 1) ≤ p * l := Nat.mul_le_mul_left p hgt
        rw [Nat.mul_add, Nat.mul_one] at hmul
        rw [if_pos hgt, sign_gt (by omega)]
      · rw [if_neg hgt]
        by_cases hlt : r > l
        · have hmul : p * (l + 1) ≤ p * r := Nat.mul_le_mul_left p hlt
          rw [Nat.mul_add, Nat.mul_one] at hmul
          rw [if_pos hlt, sign_lt (by omega)]
        · obtain rfl : l = r := by omega
          rw [if_neg hlt, ih, sign, sign]
          simp only [Nat.add_lt_add_iff_right, Nat.add_right_cancel_iff]

theorem cmpEqual_eq (srcL srcR n : ℕ) :
    cmpEqual memory srcL srcR n = sign (valueAt memory srcL n) (valueAt memory srcR n) := by
  rw [cmpEqual]
  by_cases h : srcL = srcR ∨ n = 0
  · rw [if_pos h]
    rcases h with rfl | rfl
    · exact (sign_self _).symm
    · rfl
  · rw [if_neg h]
    exact cmpDown_eq _ _ n

/-- The surplus dwords are zero, or make the value larger. -/
theorem valueAt_surplus (h : anyNonZero (arrayAt memory i) (n - m) m = false) (hle : m ≤ n) :
    valueAt memory i n = valueAt memory i m :=
  segment_extend hle fun j hj hjn => by
    rw [Nat.zero_add]
    exact anyNonZero_eq_false h j hj (by omega)

theorem valueAt_lt (h : anyNonZero (arrayAt memory i) (n - m) m = true) :
    valueAt memory srcR m < valueAt memory i n := by
  obtain ⟨j, hmj, hj, hne⟩ := anyNonZero_eq_true h
  exact segment_lt_segment hne hmj (by omega)

theorem bigIntCmp_eq (memory : ℕ → BitVec 32) (srcL sizeL srcR sizeR : ℕ) :
    bigIntCmp memory srcL sizeL srcR sizeR =
      sign (valueAt memory srcL sizeL) (valueAt memory srcR sizeR) := by
  unfold bigIntCmp
  by_cases hl : sizeL > sizeR
  · rw [if_pos hl]
    cases hany : anyNonZero (arrayAt memory srcL) (sizeL - sizeR) sizeR with
    | true => rw [if_pos rfl, sign_gt (valueAt_lt hany)]
    | false => rw [if_neg Bool.false_ne_true, cmpEqual_eq, valueAt_surplus hany hl.le]
  · rw [if_neg hl]
    by_cases hr : sizeR > sizeL
    · rw [if_pos hr]
      cases hany : anyNonZero (arrayAt memory srcR) (sizeR - sizeL) sizeL with
      | true => rw [if_pos rfl, sign_lt (valueAt_lt hany)]
      | false => rw [if_neg Bool.false_ne_true, cmpEqual_eq, valueAt_surplus hany hr.le]
    · obtain rfl : sizeL = sizeR := by omega
      rw [if_neg hr, cmpEqual_eq]

/-- `BigIntCmp` is the order of the values, whatever the sizes and the addresses are, and nothing
but the values matters. -/
theorem bigIntCmp_order (memory : ℕ → BitVec 32) (srcL sizeL srcR sizeR : ℕ) :
    (bigIntCmp memory srcL sizeL srcR sizeR = -1 ↔
        valueAt memory srcL sizeL < valueAt memory srcR sizeR) ∧
      (bigIntCmp memory srcL sizeL srcR sizeR = 0 ↔
        valueAt memory srcL sizeL = valueAt memory srcR sizeR) ∧
      (bigIntCmp memory srcL sizeL srcR sizeR = 1 ↔
        valueAt memory srcR sizeR < valueAt memory srcL sizeL) ∧
      ∀ memory' srcL' sizeL' srcR' sizeR',
        valueAt memory' srcL' sizeL' = valueAt memory srcL sizeL →
        valueAt memory' srcR' sizeR' = valueAt memory srcR sizeR →
        bigIntCmp memory' srcL' sizeL' srcR' sizeR' = bigIntCmp memory srcL sizeL srcR sizeR := by
  have hsign : ∀ x y : ℕ, (sign x y = -1 ↔ x < y) ∧ (sign x y = 0 ↔ x = y) ∧
      (sign x y = 1 ↔ y < x) := by
    intro x y
    rcases Nat.lt_trichotomy x y with hlt | rfl | hgt
    · rw [sign_lt hlt]
      omega
    · rw [sign_self]
      omega
    · rw [sign_gt hgt]
      omega
  obtain ⟨hlt, heq, hgt⟩ := hsign (valueAt memory srcL sizeL) (valueAt memory srcR sizeR)
  rw [bigIntCmp_eq]
  refine ⟨hlt, heq, hgt, ?_⟩
  intro memory' srcL' sizeL' srcR' sizeR' hl hr
  rw [bigIntCmp_eq, hl, hr]

end Beelzebub.BigInt
