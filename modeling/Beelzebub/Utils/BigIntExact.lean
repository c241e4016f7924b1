import Beelzebub.Utils.BigInt

/-!
# Exactness of the arithmetic

When a sum, a difference, a product and the shifts are those of the numbers that the dwords stand
for.  Three calls are not exact: the difference that is stored over the subtrahend, the flag of the
product, and shifts by whole dwords.
-/

namespace Beelzebub.BigInt

open Limbs

variable {dst : Dwords} {src src1 src2 : Source} {n : ℕ}

/-! ## Addition and subtraction -/

/-- The sum and the carry out are exact, and nothing behind the destination is stored to. -/
def AddExact (dst : Dwords) (src1 src2 : Source) (n : ℕ) (cin : Bool) : Prop :=
  let res := bigIntAdd dst src1 src2 n cin
  segment res.1 0 n + res.2.toNat * 2 ^ (32 * n) =
      segment (src1.data dst) 0 n + segment (src2.data dst) 0 n + cin.toNat ∧
    ∀ j, n ≤ j → res.1 j = dst j

/-- The difference and the borrow are exact, and nothing behind the destination is stored to. -/
def SubExact (dst : Dwords) (src1 src2 : Source) (n : ℕ) (cin : Bool) : Prop :=
  let res := bigIntSub dst src1 src2 n cin
  (segment res.1 0 n : ℤ) =
      segment (src1.data dst) 0 n - segment (src2.data dst) 0 n - cin.toNat +
        res.2.toNat * 2 ^ (32 * n) ∧
    ∀ j, n ≤ j → res.1 j = dst j

/-- The destination is not the second source alone. -/
def Source.InOrder (src1 src2 : Source) : Prop :=
  src1 = .destination ∨ ∃ data, src2 = .array data

/-- Sources out of order are a first one apart and the destination. -/
theorem Source.eq_of_not_inOrder (h : ¬src1.InOrder src2) :
    (∃ data, src1 = .array data) ∧ src2 = .destination := by
  cases src1 with
  | destination => exact absurd (.inl rfl) h
  | array data1 =>
      cases src2 with
      | destination => exact ⟨⟨data1, rfl⟩, rfl⟩
      | array data2 => exact absurd (.inr ⟨data2, rfl⟩) h

/-- The destination as the second source takes the first one for the second. -/
theorem addSub_swap (op : Instruction) (dst data : Dwords) (n : ℕ) (cin : Bool) :
    addSub op dst (.array data) .destination n cin =
      addSub op dst .destination (.array data) n cin := rfl

theorem addExact_inOrder (h : src1.InOrder src2) (dst : Dwords) (n : ℕ) (cin : Bool) :
    AddExact dst src1 src2 n cin := by
  refine ⟨?_, (addSub_spec linear_adc dst n cin h).2⟩
  rw [Nat.mul_comm]
  exact bigIntAdd_value dst n cin h

theorem subExact_inOrder (h : src1.InOrder src2) (dst : Dwords) (n : ℕ) (cin : Bool) :
    SubExact dst src1 src2 n cin := by
  obtain ⟨hvalue, hframe⟩ := addSub_spec linear_sbb dst n cin h
  refine ⟨?_, hframe⟩
  show (segment (addSub sbb dst src1 src2 n cin).1 0 n : ℤ) = _ - _ - _ +
    ((addSub sbb dst src1 src2 n cin).2.toNat : ℤ) * _
  linear_combination hvalue

/-- A sum does not depend on the order of its terms. -/
theorem addExact (dst : Dwords) (src1 src2 : Source) (n : ℕ) (cin : Bool) :
    AddExact dst src1 src2 n cin := by
  by_cases h : src1.InOrder src2
  · exact addExact_inOrder h dst n cin
  · obtain ⟨⟨data, rfl⟩, rfl⟩ := Source.eq_of_not_inOrder h
    obtain ⟨hvalue, hframe⟩ :=
      @addExact_inOrder .destination (.array data) (.inl rfl) dst n cin
    refine ⟨?_, hframe⟩
    show segment (addSub adc dst (.array data) .destination n cin).1 0 n +
      (addSub adc dst (.array data) .destination n cin).2.toNat * 2 ^ (32 * n) =
        segment data 0 n + segment dst 0 n + cin.toNat
    rw [addSub_swap, Nat.add_comm (segment data 0 n)]
    exact hvalue

/-- A difference out of order has the wrong sign. -/
theorem subExact_swap (dst data : Dwords) (n : ℕ) (cin : Bool) :
    SubExact dst (.array data) .destination n cin ↔ segment data 0 n = segment dst 0 n := by
  obtain ⟨hvalue, hframe⟩ :=
    @subExact_inOrder .destination (.array data) (.inl rfl) dst n cin
  have hswap : bigIntSub dst (.array data) .destination n cin =
      bigIntSub dst .destination (.array data) n cin := addSub_swap sbb dst data n cin
  unfold SubExact
  rw [hswap]
  generalize bigIntSub dst .destination (.array data) n cin = res at *
  replace hvalue : (segment res.1 0 n : ℤ) =
    segment dst 0 n - segment data 0 n - cin.toNat + res.2.toNat * 2 ^ (32 * n) := hvalue
  constructor
  · rintro ⟨hexact, -⟩
    replace hexact : (segment res.1 0 n : ℤ) =
      segment data 0 n - segment dst 0 n - cin.toNat + res.2.toNat * 2 ^ (32 * n) := hexact
    omega
  · intro hsame
    refine ⟨?_, hframe⟩
    show (segment res.1 0 n : ℤ) =
      segment data 0 n - segment dst 0 n - cin.toNat + res.2.toNat * 2 ^ (32 * n)
    omega

/-- Addition is exact however the destination is aliased.  Subtraction is not when the destination
is the subtrahend alone: it then computes the difference the other way. -/
theorem bigIntAdd_bigIntSub_exact (dst : Dwords) (src1 src2 : Source) (n : ℕ) (cin : Bool) :
    AddExact dst src1 src2 n cin ∧
      (SubExact dst src1 src2 n cin ↔
        src1.InOrder src2 ∨ segment (src1.data dst) 0 n = segment (src2.data dst) 0 n) := by
  refine ⟨addExact dst src1 src2 n cin, ?_⟩
  by_cases h : src1.InOrder src2
  · exact ⟨fun _ => .inl h, fun _ => subExact_inOrder h dst n cin⟩
  · rw [or_iff_right h]
    obtain ⟨⟨data, rfl⟩, rfl⟩ := Source.eq_of_not_inOrder h
    exact subExact_swap dst data n cin

/-- `2 - 1` stored over the `1` is `1 - 2`. -/
theorem bigIntSub_over_subtrahend :
    ¬SubExact (fun _ => 1) (.array fun _ => 2) .destination 1 false := by
  intro h
  exact absurd ((subExact_swap _ _ 1 false).mp h) (by decide)

/-! ## Multiplication -/

/-- No sum of the innermost loop overflows a qword. -/
def AddProductFits : ℕ → ℕ → Dwords → BitVec 64 → Prop
  | 0, _, _, _ => True
  | n + 1, l, dst, res =>
      res = 0 ∨
        res.toNat + (dst l).toNat < 2 ^ 64 ∧
          let res := res + (dst l).setWidth 64
          AddProductFits n (l + 1) (put dst l (res.setWidth 32)) (res >>> 32)

/-- Neither does a product or a sum of the loop over the longer source. -/
def AddRowFits (currentDword : BitVec 32) (src2 : Dwords) (i limit : ℕ) : ℕ → ℕ → Dwords → Prop
  | 0, _, _ => True
  | n + 1, j, dst =>
      i + j < limit →
        currentDword.toNat * (src2 j).toNat < 2 ^ 64 ∧
          let res := currentDword.setWidth 64 * (src2 j).setWidth 64
          AddProductFits (limit - (i + j)) (i + j) dst res ∧
            AddRowFits currentDword src2 i limit n (j + 1)
              (addProduct (limit - (i + j)) (i + j) dst res).1

/-- Nor one of the loop over the shorter source. -/
def AddRowsFits (src1 src2 : Dwords) (size2 limit : ℕ) : ℕ → ℕ → Dwords → Prop
  | 0, _, _ => True
  | n + 1, i, dst =>
      if src1 i ≠ 0 then
        AddRowFits (src1 i) src2 i limit size2 0 dst ∧
          AddRowsFits src1 src2 size2 limit n (i + 1)
            (addRow (src1 i) src2 i limit size2 0 dst false).1
      else AddRowsFits src1 src2 size2 limit n (i + 1) dst

/-- No intermediate result of the multiplication overflows. -/
def MulFits (dst : Dwords) (src1 : Source) (size1 : ℕ) (src2 : Source) (size2 maxSize : ℕ)
    (cin : Bool) : Prop :=
  let limit := min ((size1 + size2) % 2 ^ 32) maxSize
  let start := put (clear dst 0 limit) 0 (if cin then 1 else 0)
  if size1 > size2 then AddRowsFits (src2.data dst) (src1.data dst) size1 limit size2 0 start
  else AddRowsFits (src1.data dst) (src2.data dst) size2 limit size1 0 start

theorem toNat_high (q : BitVec 64) : (q >>> 32).toNat < 2 ^ 32 := by
  have hlt := q.isLt
  rw [BitVec.toNat_ushiftRight, Nat.shiftRight_eq_div_pow]
  omega

theorem addProductFits (n l : ℕ) (dst : Dwords) {res : BitVec 64}
    (hres : res.toNat ≤ 2 ^ 64 - 2 ^ 32) : AddProductFits n l dst res := by
  induction n generalizing l dst res with
  | zero => trivial
  | succ n ih =>
      have hd := (dst l).isLt
      have hhigh := toNat_high (res + (dst l).setWidth 64)
      exact .inr ⟨by omega, ih (l + 1) _ (by omega)⟩

theorem addRowFits (x : BitVec 32) (src2 : Dwords) (i limit n j : ℕ) (dst : Dwords) :
    AddRowFits x src2 i limit n j dst := by
  induction n generalizing j dst with
  | zero => trivial
  | succ n ih =>
      intro _
      obtain ⟨hproduct, hsmall⟩ := toNat_product x (src2 j)
      exact ⟨by omega, addProductFits _ _ _ (hproduct ▸ hsmall), ih (j + 1) _⟩

theorem addRowsFits (src1 src2 : Dwords) (size2 limit n i : ℕ) (dst : Dwords) :
    AddRowsFits src1 src2 size2 limit n i dst := by
  induction n generalizing i dst with
  | zero => trivial
  | succ n ih =>
      unfold AddRowsFits
      split
      next => exact ⟨addRowFits _ _ _ _ _ _ _, ih (i + 1) _⟩
      next => exact ih (i + 1) _

theorem mulFits (dst : Dwords) (src1 src2 : Source) (size1 size2 maxSize : ℕ) (cin : Bool) :
    MulFits dst src1 size1 src2 size2 maxSize cin := by
  unfold MulFits
  dsimp only
  split
  next => exact addRowsFits _ _ _ _ _ _ _
  next => exact addRowsFits _ _ _ _ _ _ _

/-- What is left of a product after a round has no upper dword. -/
theorem addProduct_high_of_lt (n l : ℕ) (dst : Dwords) {res : BitVec 64}
    (hres : res.toNat < 2 ^ 32) : (addProduct n l dst res).2.toNat < 2 ^ 32 := by
  induction n generalizing l dst res with
  | zero => exact hres
  | succ n ih =>
      unfold addProduct
      split
      next => exact hres
      next => exact ih (l + 1) _ (toNat_high _)

theorem addProduct_high (hn : 0 < n) (l : ℕ) (dst : Dwords) (res : BitVec 64) :
    ((addProduct n l dst res).2 >>> 32).setWidth 32 = (0 : BitVec 32) := by
  have hlt : (addProduct n l dst res).2.toNat < 2 ^ 32 := by
    obtain ⟨n, rfl⟩ := Nat.exists_eq_succ_of_ne_zero (Nat.ne_of_gt hn)
    unfold addProduct
    split
    next hzero => simp [hzero]
    next => exact addProduct_high_of_lt n (l + 1) _ (toNat_high _)
  refine BitVec.eq_of_toNat_eq ?_
  rw [BitVec.toNat_setWidth, BitVec.toNat_ushiftRight, Nat.shiftRight_eq_div_pow,
    Nat.div_eq_of_lt hlt]
  rfl

theorem addRow_overflow (x : BitVec 32) (src2 : Dwords) (i limit n j : ℕ) (dst : Dwords)
    (overflow : Bool) : (addRow x src2 i limit n j dst overflow).2 = overflow := by
  induction n generalizing j dst overflow with
  | zero => rfl
  | succ n ih =>
      unfold addRow
      split
      next hlt =>
        have hhigh := addProduct_high (Nat.sub_pos_of_lt hlt) (i + j) dst
          (x.setWidth 64 * (src2 j).setWidth 64)
        dsimp only
        rw [ih, hhigh, if_neg (not_not_intro rfl)]
      next => rfl

theorem addRows_overflow (src1 src2 : Dwords) (size2 limit n i : ℕ) (dst : Dwords)
    (overflow : Bool) : (addRows src1 src2 size2 limit n i dst overflow).2 = overflow := by
  induction n generalizing i dst overflow with
  | zero => rfl
  | succ n ih =>
      unfold addRows
      split
      next => exact (ih _ _ _).trans (addRow_overflow _ _ _ _ _ _ _ _)
      next => exact ih _ _ _

/-- The accumulator that the flag is taken from was shifted already, so there never is one. -/
theorem bigIntMul_overflow (dst : Dwords) (src1 src2 : Source) (size1 size2 maxSize : ℕ)
    (cin : Bool) : (bigIntMul dst src1 size1 src2 size2 maxSize cin).2.2 = false := by
  unfold bigIntMul
  dsimp only
  split
  next => exact addRows_overflow _ _ _ _ _ _ _ _
  next => exact addRows_overflow _ _ _ _ _ _ _ _

/-- What the destination of a product is to hold. -/
def product (dst : Dwords) (src1 : Source) (size1 : ℕ) (src2 : Source) (size2 : ℕ) (cin : Bool) :
    ℕ :=
  segment (src1.data dst) 0 size1 * segment (src2.data dst) 0 size2 + cin.toNat

/-- The size and the dwords are those of the product, and the flag tells whether it does not
fit. -/
def MulExact (dst : Dwords) (src1 : Source) (size1 : ℕ) (src2 : Source) (size2 maxSize : ℕ)
    (cin : Bool) : Prop :=
  let res := bigIntMul dst src1 size1 src2 size2 maxSize cin
  res.2.1 = min (size1 + size2) maxSize ∧
    segment res.1 0 res.2.1 = product dst src1 size1 src2 size2 cin % 2 ^ (32 * res.2.1) ∧
    MulFits dst src1 size1 src2 size2 maxSize cin ∧
    (res.2.2 = true ↔ 2 ^ (32 * res.2.1) ≤ product dst src1 size1 src2 size2 cin)

/-- Multiplication is exact when the sum of the sizes does not wrap below the limit, and when there
is no overflow to tell. -/
theorem bigIntMul_exact (dst : Dwords) (src1 : Source) (size1 : ℕ) (src2 : Source)
    (size2 maxSize : ℕ) (cin : Bool) :
    MulExact dst src1 size1 src2 size2 maxSize cin ↔
      min ((size1 + size2) % 2 ^ 32) maxSize = min (size1 + size2) maxSize ∧
        product dst src1 size1 src2 size2 cin < 2 ^ (32 * min (size1 + size2) maxSize) := by
  have hsize : (bigIntMul dst src1 size1 src2 size2 maxSize cin).2.1 =
      min ((size1 + size2) % 2 ^ 32) maxSize := rfl
  have hflag := bigIntMul_overflow dst src1 src2 size1 size2 maxSize cin
  constructor
  · rintro ⟨hdst, -, -, hoverflow⟩
    refine ⟨hsize.symm.trans hdst, Nat.lt_of_not_le fun hle => ?_⟩
    rw [← hdst] at hle
    exact Bool.false_ne_true (hflag.symm.trans (hoverflow.mpr hle))
  · rintro ⟨hdst, hfits⟩
    refine ⟨hsize.trans hdst, bigIntMul_value .., mulFits .., ?_⟩
    rw [hflag, hsize, hdst]
    exact ⟨fun h => absurd h Bool.false_ne_true, fun h => absurd hfits (Nat.not_lt.mpr h)⟩

/-- `2 ^ 31 * 2` does not fit in one dword, and no overflow is returned. -/
theorem bigIntMul_overflow_lost :
    ¬MulExact (fun _ => 0) (.array fun _ => 0x80000000) 1 (.array fun _ => 2) 1 1 false := by
  intro h
  exact absurd ((bigIntMul_overflow ..).symm.trans (h.2.2.2.mpr (by decide))) (by decide)

/-! ## Shifts -/

/-- A left shift multiplies, modulo what fits. -/
def ShLExact (dst : Dwords) (src : Source) (sizeS sizeM amnt : ℕ) : Prop :=
  let res := bigIntShL dst src sizeS sizeM amnt
  segment res.1 0 res.2.1 = segment (src.data dst) 0 sizeS * 2 ^ amnt % 2 ^ (32 * sizeM)

/-- A right shift ends and divides, and the flag tells whether there is a remainder. -/
def ShRExact (dst : Dwords) (src : Source) (size amnt : ℕ) : Prop :=
  ∃ dst' size' underflow, bigIntShR dst size src size amnt = some (dst', size', underflow) ∧
    segment dst' 0 size' = segment (src.data dst) 0 size / 2 ^ amnt ∧
    (underflow = true ↔ segment (src.data dst) 0 size % 2 ^ amnt ≠ 0)

/-- The dwords of the source that a left shift reads, from the moved ones on, agree with those it
is to multiply in all bits that are not shifted out. -/
def ShLReads (data : Dwords) (sizeS sizeM amnt : ℕ) : Prop :=
  segment data (amnt / 32) (min sizeM (sizeS + amnt / 32) - amnt / 32) % 2 ^ (32 * sizeM - amnt) =
    segment data 0 sizeS % 2 ^ (32 * sizeM - amnt)

/-- What is shifted out does not count. -/
theorem mul_two_pow_modEq_iff (a b m k : ℕ) :
    a * 2 ^ k % 2 ^ m = b * 2 ^ k % 2 ^ m ↔ a % 2 ^ (m - k) = b % 2 ^ (m - k) := by
  rcases Nat.le_total k m with hle | hle
  · have hpow : 2 ^ m = 2 ^ (m - k) * 2 ^ k := by rw [← Nat.pow_add, Nat.sub_add_cancel hle]
    rw [hpow, Nat.mul_mod_mul_right, Nat.mul_mod_mul_right]
    exact Nat.mul_left_inj (Nat.ne_of_gt (Nat.two_pow_pos k))
  · have hdvd : 2 ^ m ∣ 2 ^ k := Nat.pow_dvd_pow 2 hle
    have hnone (x : ℕ) : x * 2 ^ k % 2 ^ m = 0 :=
      Nat.mod_eq_zero_of_dvd (Nat.dvd_mul_left_of_dvd hdvd x)
    rw [hnone, hnone, Nat.sub_eq_zero_of_le hle, Nat.pow_zero, Nat.mod_one, Nat.mod_one]

/-- In place, the dwords are shifted where they were moved to. -/
theorem bigIntShL_exact (dst : Dwords) (src : Source) (sizeS sizeM amnt : ℕ) :
    ShLExact dst src sizeS sizeM amnt ↔
      src = .destination ∨ ShLReads (src.data dst) sizeS sizeM amnt := by
  have hvalue := (bigIntShL_value dst src sizeS sizeM amnt).1
  unfold ShLExact
  dsimp only
  rw [hvalue, mul_two_pow_modEq_iff]
  cases src with
  | destination =>
      refine ⟨fun _ => .inl rfl, fun _ => ?_⟩
      rcases Nat.le_total sizeM (sizeS + amnt / 32) with hle | hle
      · exact (segment_mod_two_pow dst 0 (by omega) (by omega)).symm
      · rw [Nat.min_eq_right hle, Nat.add_sub_cancel]
        rfl
  | array data => exact (or_iff_right fun h => nomatch h).symm

theorem two_pow_mul_eq_zero (k x : ℕ) : 2 ^ k * x = 0 ↔ x = 0 := by simp

/-- What a right shift by whole dwords and some bits leaves over. -/
theorem mod_two_pow_eq_zero_iff (data : Dwords) (amnt n : ℕ) :
    segment data 0 (amnt / 32 + n) % 2 ^ amnt = 0 ↔
      segment data 0 (amnt / 32) = 0 ∧ segment data (amnt / 32) n % 2 ^ (amnt % 32) = 0 := by
  rw [two_pow_amnt, Nat.mod_mul, segment_mod data 0 (Nat.le_add_right _ _), segment_div,
    Nat.zero_add, Nat.add_eq_zero_iff]
  exact and_congr_right' (two_pow_mul_eq_zero _ _)

/-- The underflow is what is left over of the dword that was moved to the first place. -/
theorem shiftDown_underflow (data : Dwords) (amnt n : ℕ) (dst : Dwords) :
    (shiftDown data (amnt / 32) (32 - amnt % 32) n dst 0).2 ≠ 0 ↔
      segment data (amnt / 32) n % 2 ^ (amnt % 32) ≠ 0 := by
  have hmod : amnt % 32 < 32 := Nat.mod_lt amnt (by decide)
  obtain ⟨hvalue, -⟩ := @shiftDown_spec _ hmod data (amnt / 32) n dst 0 (Nat.dvd_zero _)
  have hlow := (shiftDown data (amnt / 32) (32 - amnt % 32) n dst 0).2.isLt
  have hpow : 2 ^ 32 = 2 ^ (32 - amnt % 32) * 2 ^ (amnt % 32) := by
    rw [← Nat.pow_add, Nat.sub_add_cancel (Nat.le_of_lt hmod)]
  have hrest : (shiftDown data (amnt / 32) (32 - amnt % 32) n dst 0).2.toNat =
      2 ^ (32 - amnt % 32) * (segment data (amnt / 32) n % 2 ^ (amnt % 32)) := by
    rw [← Nat.mul_mod_mul_left, ← hpow, ← Nat.mod_eq_of_lt hlow, ← Nat.mul_add_mod, hvalue]
    rfl
  generalize (shiftDown data (amnt / 32) (32 - amnt % 32) n dst 0).2 = underflow at *
  have hzero : underflow = 0 ↔ underflow.toNat = 0 :=
    ⟨fun h => h ▸ rfl, fun h => BitVec.eq_of_toNat_eq h⟩
  rw [not_iff_not, hzero, hrest]
  exact two_pow_mul_eq_zero _ _

/-- Division ends when a dword of the quotient is left, and tells of the remainder in the moved
dword alone; by more dwords than there are, it tells of one in any case. -/
theorem bigIntShR_exact (dst : Dwords) (src : Source) {size : ℕ} (amnt : ℕ)
    (hsize : size < 2 ^ 32) :
    ShRExact dst src size amnt ↔
      if size ≤ amnt / 32 then segment (src.data dst) 0 size ≠ 0
      else segment (src.data dst) 0 size / 2 ^ amnt ≠ 0 ∧
        (segment (src.data dst) 0 (amnt / 32) ≠ 0 →
          (src.data dst (amnt / 32)).toNat % 2 ^ (amnt % 32) ≠ 0) := by
  generalize hdata : src.data dst = data
  unfold ShRExact
  rcases Nat.lt_or_ge (amnt / 32) size with hlt | hge
  · rw [if_neg (Nat.not_le.mpr hlt), hdata]
    obtain ⟨n, rfl⟩ := Nat.exists_eq_add_of_le (Nat.le_of_lt hlt)
    have hn : 0 < n := by omega
    -- The remainder in the moved dwords is that of the lowest of them.
    have hmoved : segment data (amnt / 32) n % 2 ^ (amnt % 32) =
        (data (amnt / 32)).toNat % 2 ^ (amnt % 32) := by
      rw [segment_mod_two_pow data _ (m := 1) (by omega) hn, segment_one]
    have hrun := bigIntShR_run dst src hsize hn
    have hunderflow := shiftDown_underflow data amnt n dst
    have hrest := mod_two_pow_eq_zero_iff data amnt n
    rw [hmoved] at hunderflow hrest
    rw [hdata] at hrun
    rcases bigIntShR_spec dst src amnt hsize with
      ⟨dst', size', underflow, hres, hquot, -, hne⟩ | ⟨hnone, -, hzero⟩
    · rw [hdata] at hquot hne
      replace hne := hne.resolve_left (Nat.not_le.mpr hlt)
      have hflag : underflow = true ↔ (data (amnt / 32)).toNat % 2 ^ (amnt % 32) ≠ 0 := by
        rw [← hunderflow]
        rw [hres] at hrun
        split at hrun
        next => exact nomatch hrun
        next =>
          cases hrun
          exact decide_eq_true_iff
      constructor
      · rintro ⟨_, _, _, hrun', -, hexact⟩
        cases hres.symm.trans hrun'
        refine ⟨hne, fun hbelow => ?_⟩
        rw [← hflag, hexact, ne_eq, hrest]
        exact fun h => hbelow h.1
      · rintro ⟨-, hbelow⟩
        refine ⟨dst', size', underflow, hres, hquot, ?_⟩
        rw [hflag, not_iff_not, hrest]
        exact ⟨fun h => ⟨by_contra fun hne => hbelow hne h, h⟩, fun h => h.2⟩
    · rw [hdata] at hzero
      refine ⟨?_, fun h => absurd hzero h.1⟩
      rintro ⟨_, _, _, hrun', -⟩
      exact nomatch hnone.symm.trans hrun'
  · have hrun : bigIntShR dst size src size amnt = some (dst, 0, true) := if_pos hge
    have hsmall : segment data 0 size < 2 ^ amnt :=
      Nat.lt_of_lt_of_le (segment_lt_of_le data 0 hge)
        (Nat.pow_le_pow_right (by decide) (Nat.mul_div_le amnt 32))
    rw [if_pos hge, hdata, hrun, Nat.mod_eq_of_lt hsmall, Nat.div_eq_of_lt hsmall]
    constructor
    · rintro ⟨_, _, _, hres, -, hexact⟩
      cases hres
      exact hexact.mp rfl
    · intro hne
      exact ⟨dst, 0, true, rfl, segment_zero .., fun _ => hne, fun _ => rfl⟩

/-- Both shifts. -/
theorem bigIntShL_bigIntShR_exact (dst : Dwords) (src : Source) (sizeM amnt : ℕ) {size : ℕ}
    (hsize : size < 2 ^ 32) :
    (ShLExact dst src size sizeM amnt ↔
      src = .destination ∨ ShLReads (src.data dst) size sizeM amnt) ∧
    (ShRExact dst src size amnt ↔
      if size ≤ amnt / 32 then segment (src.data dst) 0 size ≠ 0
      else segment (src.data dst) 0 size / 2 ^ amnt ≠ 0 ∧
        (segment (src.data dst) 0 (amnt / 32) ≠ 0 →
          (src.data dst (amnt / 32)).toNat % 2 ^ (amnt % 32) ≠ 0)) :=
  ⟨bigIntShL_exact .., bigIntShR_exact dst src amnt hsize⟩

theorem bigIntShL_bigIntShR_exact_of_one :
    ShLExact (fun _ => 0) (.array fun _ => 1) 1 1 1 ∧
      ShRExact (fun _ => 0) (.array fun _ => 2) 1 1 :=
  ⟨(bigIntShL_bigIntShR_exact _ _ 1 1 (by decide)).1.mpr (.inr rfl),
    (bigIntShL_bigIntShR_exact _ _ 1 1 (by decide)).2.mpr (by decide)⟩

/-- Moved by a whole dword, `1` is lost; and a quotient of zero is trimmed without end. -/
theorem bigIntShL_moved_lost :
    ¬ShLExact (fun _ => 0) (.array fun i => if i = 0 then 1 else 0) 2 2 32 ∧
      ¬ShRExact (fun _ => 0) (.array fun _ => 1) 1 1 := by
  constructor
  · rw [bigIntShL_exact]
    exact fun h => absurd (h.resolve_left fun h => nomatch h) (by unfold ShLReads; decide)
  · rw [bigIntShR_exact _ _ _ (by decide)]
    decide

end Beelzebub.BigInt
