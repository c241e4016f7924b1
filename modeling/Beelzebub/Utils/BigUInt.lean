import Beelzebub.Utils.BigInt

/-!
# Compound and binary operators on big integers

`BigUInt` has each operator twice.  The binary form computes into a fresh number, whose dwords hold
anything before; the compound form computes into its left operand.
-/

namespace Beelzebub

open Limbs BigInt

/-! ## The code -/

/-- `BigUInt<MaxSize>`.  Dwords from `CurrentSize` on may hold anything. -/
structure BigUInt (MaxSize : UInt32) where
  data : Dwords
  currentSize : ℕ
  bound : currentSize ≤ MaxSize.toNat

namespace BigUInt

variable {MaxSize : UInt32}

/-- What a `BigUInt` says. -/
def value (a : BigUInt MaxSize) : ℕ := segment a.data 0 a.currentSize

/-- `Balance`: both operands, and the size that they have now. -/
structure Balanced (MaxSize : UInt32) where
  left : BigUInt MaxSize
  right : BigUInt MaxSize
  size : ℕ
  bound : size ≤ MaxSize.toNat

def balance (left right : BigUInt MaxSize) : Balanced MaxSize :=
  if left.currentSize > right.currentSize then
    ⟨left, { right with
        data := clear right.data right.currentSize (left.currentSize - right.currentSize) },
      left.currentSize, left.bound⟩
  else
    ⟨{ left with
        data := clear left.data left.currentSize (right.currentSize - left.currentSize) },
      right, right.currentSize, right.bound⟩

def toUInt64 (a : BigUInt MaxSize) : BitVec 64 :=
  if a.currentSize = 0 then 0
  else if a.currentSize = 1 then (a.data 0).setWidth 64
  else (a.data 0).setWidth 64 ||| (a.data 1).setWidth 64 <<< 32

/-- `if (cout && CurrentSize < MaxSize) Data[CurrentSize++] = 1`. -/
def appendCarry (res : BigUInt MaxSize) (cout : Bool) : BigUInt MaxSize :=
  if h : cout = true ∧ res.currentSize < MaxSize.toNat then
    ⟨put res.data res.currentSize 1, res.currentSize + 1, h.2⟩
  else res

/-! The result, or the left operand after it, and the right operand after it. -/

def add (junk : Dwords) (a b : BigUInt MaxSize) : BigUInt MaxSize × BigUInt MaxSize :=
  let bal := balance a b
  let sum := bigIntAdd junk (.array bal.left.data) (.array bal.right.data) bal.size false
  (appendCarry ⟨sum.1, bal.size, bal.bound⟩ sum.2, bal.right)

def addAssign (a b : BigUInt MaxSize) : BigUInt MaxSize × BigUInt MaxSize :=
  let bal := balance a b
  let sum := bigIntAdd bal.left.data .destination (.array bal.right.data) bal.size false
  (appendCarry ⟨sum.1, bal.left.currentSize, bal.left.bound⟩ sum.2, bal.right)

def sub (junk : Dwords) (a b : BigUInt MaxSize) : BigUInt MaxSize × BigUInt MaxSize :=
  let bal := balance a b
  let diff := bigIntSub junk (.array bal.left.data) (.array bal.right.data) bal.size false
  (⟨diff.1, bal.size, bal.bound⟩, bal.right)

def subAssign (a b : BigUInt MaxSize) : BigUInt MaxSize × BigUInt MaxSize :=
  let bal := balance a b
  let diff := bigIntSub bal.left.data .destination (.array bal.right.data) bal.size false
  (⟨diff.1, bal.left.currentSize, bal.left.bound⟩, bal.right)

/-- Both forms of the multiplication. -/
def mulInto (dst : Dwords) (src : Source) (a b : BigUInt MaxSize) : BigUInt MaxSize :=
  ⟨(bigIntMul dst src a.currentSize (.array b.data) b.currentSize MaxSize.toNat false).1,
    (bigIntMul dst src a.currentSize (.array b.data) b.currentSize MaxSize.toNat false).2.1,
    Nat.min_le_right _ _⟩

def mul (junk : Dwords) (a b : BigUInt MaxSize) : BigUInt MaxSize :=
  mulInto junk (.array a.data) a b

def mulAssign (a b : BigUInt MaxSize) : BigUInt MaxSize := mulInto a.data .destination a b

def and (junk : Dwords) (a b : BigUInt MaxSize) : BigUInt MaxSize :=
  ⟨bigIntAnd junk (min a.currentSize b.currentSize) (.array a.data) a.currentSize (.array b.data)
    b.currentSize, min a.currentSize b.currentSize, (Nat.min_le_left _ _).trans a.bound⟩

def andAssign (a b : BigUInt MaxSize) : BigUInt MaxSize :=
  { a with
    data := bigIntAnd a.data a.currentSize .destination a.currentSize (.array b.data)
      b.currentSize }

/-- The binary forms of `|` and `^`. -/
def bitwise (op : BitVec 32 → BitVec 32 → BitVec 32) (junk : Dwords) (a b : BigUInt MaxSize) :
    BigUInt MaxSize :=
  ⟨BigInt.bitwise op junk (max a.currentSize b.currentSize) (.array a.data) a.currentSize
    (.array b.data) b.currentSize, max a.currentSize b.currentSize, Nat.max_le.mpr ⟨a.bound, b.bound⟩⟩

/-- The compound forms of `|` and `^`. -/
def bitwiseAssign (op : BitVec 32 → BitVec 32 → BitVec 32) (a b : BigUInt MaxSize) :
    BigUInt MaxSize :=
  { a with
    data := BigInt.bitwise op a.data a.currentSize .destination a.currentSize (.array b.data)
      b.currentSize }

def or (junk : Dwords) (a b : BigUInt MaxSize) : BigUInt MaxSize := bitwise (· ||| ·) junk a b

def orAssign (a b : BigUInt MaxSize) : BigUInt MaxSize := bitwiseAssign (· ||| ·) a b

def xor (junk : Dwords) (a b : BigUInt MaxSize) : BigUInt MaxSize := bitwise (· ^^^ ·) junk a b

def xorAssign (a b : BigUInt MaxSize) : BigUInt MaxSize := bitwiseAssign (· ^^^ ·) a b

/-- Both forms of the left shift. -/
def shlInto (dst : Dwords) (src : Source) (a : BigUInt MaxSize) (amnt : ℕ) : BigUInt MaxSize :=
  ⟨(bigIntShL dst src a.currentSize MaxSize.toNat amnt).1,
    (bigIntShL dst src a.currentSize MaxSize.toNat amnt).2.1, (bigIntShL_value _ _ _ _ _).2⟩

def shl (junk : Dwords) (a : BigUInt MaxSize) (amnt : ℕ) : BigUInt MaxSize :=
  shlInto junk (.array a.data) a amnt

def shlAssign (a : BigUInt MaxSize) (amnt : ℕ) : BigUInt MaxSize :=
  shlInto a.data .destination a amnt

theorem size_lt (a : BigUInt MaxSize) : a.currentSize < 2 ^ 32 :=
  Nat.lt_of_le_of_lt a.bound MaxSize.toNat_lt

/-- Both forms of the right shift. -/
def shrInto (dst : Dwords) (src : Source) (a : BigUInt MaxSize) (amnt : ℕ) :
    Option (BigUInt MaxSize) :=
  match h : bigIntShR dst a.currentSize src a.currentSize amnt with
  | none => none
  | some res => some ⟨res.1, res.2.1, (bigIntShR_size a.size_lt h).trans a.bound⟩

def shr (junk : Dwords) (a : BigUInt MaxSize) (amnt : ℕ) : Option (BigUInt MaxSize) :=
  shrInto junk (.array a.data) a amnt

def shrAssign (a : BigUInt MaxSize) (amnt : ℕ) : Option (BigUInt MaxSize) :=
  shrInto a.data .destination a amnt

inductive Op where
  | add | sub | mul | and | or | xor | shl | shr
deriving DecidableEq

/-- `a op b`: the result, and `b` after it. -/
def binary (junk : Dwords) (a b : BigUInt MaxSize) : Op → Option (BigUInt MaxSize × BigUInt MaxSize)
  | .add => some (a.add junk b)
  | .sub => some (a.sub junk b)
  | .mul => some (a.mul junk b, b)
  | .and => some (a.and junk b, b)
  | .or => some (a.or junk b, b)
  | .xor => some (a.xor junk b, b)
  | .shl => some (a.shl junk b.toUInt64.toNat, b)
  | .shr => (a.shr junk b.toUInt64.toNat).map (·, b)

/-- `a op= b`: `a` after it, and `b` after it. -/
def compound (a b : BigUInt MaxSize) : Op → Option (BigUInt MaxSize × BigUInt MaxSize)
  | .add => some (a.addAssign b)
  | .sub => some (a.subAssign b)
  | .mul => some (a.mulAssign b, b)
  | .and => some (a.andAssign b, b)
  | .or => some (a.orAssign b, b)
  | .xor => some (a.xorAssign b, b)
  | .shl => some (a.shlAssign b.toUInt64.toNat, b)
  | .shr => (a.shrAssign b.toUInt64.toNat).map (·, b)

/-! ## What is asked -/

/-- What `+` and `*` give, modulo what `MaxSize` dwords hold. -/
def Exact (a b : BigUInt MaxSize) (res : ℕ) : Op → Prop
  | .add => res = (a.value + b.value) % 2 ^ (32 * MaxSize.toNat)
  | .mul => res = a.value * b.value % 2 ^ (32 * MaxSize.toNat)
  | _ => True

/-- Both forms return, agree and leave the right operand as it is. -/
def Agrees (op : Op) (junk : Dwords) (a b : BigUInt MaxSize) : Prop :=
  ∃ res b₁ a' b₂, binary junk a b op = some (res, b₁) ∧ compound a b op = some (a', b₂) ∧
    a'.value = res.value ∧ b₁.value = b.value ∧ b₂.value = b.value ∧ Exact a b res.value op

/-- What the binary left shift shifts in the place of `a`: as many dwords, from the place on that
the lowest one moves to. -/
def displaced (a : BigUInt MaxSize) (amnt : ℕ) : ℕ :=
  segment a.data (amnt / 32) (min MaxSize.toNat (a.currentSize + amnt / 32) - amnt / 32)

/-- The results fit into the size that the left operand keeps; the product has no more dwords than
are counted; the displaced dwords agree with those of `a` where the shift keeps their bits; the
quotient is not zero, unless all dwords are shifted out. -/
def Fit (a b : BigUInt MaxSize) : Op → Prop
  | .add => b.currentSize ≤ a.currentSize ∨ a.value + b.value < 2 ^ (32 * a.currentSize)
  | .sub => b.currentSize ≤ a.currentSize ∨ b.value ≤ a.value ∨
      a.value + 2 ^ (32 * b.currentSize) < b.value + 2 ^ (32 * a.currentSize)
  | .mul => a.currentSize + b.currentSize < 2 ^ 32 ∨
      a.value * b.value % 2 ^ (32 * MaxSize.toNat) <
        2 ^ (32 * ((a.currentSize + b.currentSize) % 2 ^ 32))
  | .and => True
  | .or => b.value < 2 ^ (32 * a.currentSize)
  | .xor => b.value < 2 ^ (32 * a.currentSize)
  | .shl => b.toUInt64.toNat < 32 ∨
      displaced a b.toUInt64.toNat % 2 ^ (32 * MaxSize.toNat - b.toUInt64.toNat) =
        a.value % 2 ^ (32 * MaxSize.toNat - b.toUInt64.toNat)
  | .shr => a.currentSize ≤ b.toUInt64.toNat / 32 ∨ a.value / 2 ^ b.toUInt64.toNat ≠ 0

/-! ## Balancing -/

variable {a b : BigUInt MaxSize} {junk : Dwords}

theorem value_lt (a : BigUInt MaxSize) : a.value < 2 ^ (32 * a.currentSize) := segment_lt _ _ _

/-- Zeros behind a number do not change it. -/
theorem segment_cleared (a : BigUInt MaxSize) (n : ℕ) :
    segment (clear a.data a.currentSize n) 0 (a.currentSize + n) = a.value := by
  have hlow : segment (clear a.data a.currentSize n) 0 a.currentSize = a.value :=
    segment_congr fun i hi => (clear_apply _ _ _ _).trans (if_neg (by omega))
  rw [← hlow]
  refine segment_extend (Nat.le_add_right _ _) fun i hi hlt => ?_
  exact (clear_apply _ _ _ _).trans (if_pos (by omega))

theorem value_cleared (a : BigUInt MaxSize) (n : ℕ) :
    segment (clear a.data a.currentSize n) 0 a.currentSize = a.value :=
  segment_congr fun i hi => (clear_apply _ _ _ _).trans (if_neg (by omega))

/-- Both operands keep their values, also when they are read at the common size. -/
theorem balance_spec (a b : BigUInt MaxSize) :
    (balance a b).size = max a.currentSize b.currentSize ∧
    (balance a b).left.currentSize = a.currentSize ∧
    segment (balance a b).left.data 0 (balance a b).size = a.value ∧
    segment (balance a b).right.data 0 (balance a b).size = b.value ∧
    (balance a b).right.value = b.value := by
  unfold balance
  split
  next hgt =>
    have hsize : b.currentSize + (a.currentSize - b.currentSize) = a.currentSize := by omega
    have hright := b.segment_cleared (a.currentSize - b.currentSize)
    rw [hsize] at hright
    exact ⟨(Nat.max_eq_left (Nat.le_of_lt hgt)).symm, rfl, rfl, hright, b.value_cleared _⟩
  next hle =>
    have hsize : a.currentSize + (b.currentSize - a.currentSize) = b.currentSize := by omega
    have hleft := a.segment_cleared (b.currentSize - a.currentSize)
    rw [hsize] at hleft
    exact ⟨(Nat.max_eq_right (Nat.not_lt.mp hle)).symm, rfl, hleft, rfl, rfl⟩

/-! ## Addition and subtraction -/

theorem appendCarry_value (res : BigUInt MaxSize) (cout : Bool) :
    (res.appendCarry cout).value =
      res.value + if cout = true ∧ res.currentSize < MaxSize.toNat then 2 ^ (32 * res.currentSize)
        else 0 := by
  unfold appendCarry
  split
  next h =>
    show segment (put res.data res.currentSize 1) 0 (res.currentSize + 1) = _
    rw [segment_succ, Nat.zero_add, put_self, segment_put_outside (.inr (by omega))]
    exact congrArg _ (Nat.mul_one _)
  next => rfl

/-- A sum and its carry, from what they add up to. -/
theorem sum_and_carry {p sum total : ℕ} {c : Bool} (hlt : sum < p)
    (h : sum + p * c.toNat = total) : sum = total % p ∧ (c = true ↔ p ≤ total) := by
  cases c with
  | false =>
      obtain rfl : sum = total := h
      exact ⟨(Nat.mod_eq_of_lt hlt).symm,
        ⟨(fun h => nomatch h), fun h => absurd hlt (Nat.not_lt.mpr h)⟩⟩
  | true =>
      rw [Bool.toNat_true, Nat.mul_one] at h
      rw [← h, Nat.add_mod_right, Nat.mod_eq_of_lt hlt]
      exact ⟨rfl, fun _ => Nat.le_add_left p sum, fun _ => rfl⟩

/-- Neither operand reaches beyond the common size. -/
theorem value_lt_balance (a b : BigUInt MaxSize) :
    a.value < 2 ^ (32 * (balance a b).size) ∧ b.value < 2 ^ (32 * (balance a b).size) := by
  rw [(balance_spec a b).1]
  exact ⟨segment_lt_of_le _ _ (Nat.le_max_left _ _), segment_lt_of_le _ _ (Nat.le_max_right _ _)⟩

/-- The sum behind both forms of `+`, whatever the destination is. -/
theorem sum_spec (dst : Dwords) (src : Source) (a b : BigUInt MaxSize)
    (hsrc : src.data dst = (balance a b).left.data) :
    segment (bigIntAdd dst src (.array (balance a b).right.data) (balance a b).size false).1 0
        (balance a b).size = (a.value + b.value) % 2 ^ (32 * (balance a b).size) ∧
    ((bigIntAdd dst src (.array (balance a b).right.data) (balance a b).size false).2 = true ↔
      2 ^ (32 * (balance a b).size) ≤ a.value + b.value) := by
  obtain ⟨-, -, hleft, hright, -⟩ := balance_spec a b
  have hsum := @bigIntAdd_value src _ dst (balance a b).size false
    (.inr ⟨(balance a b).right.data, rfl⟩)
  have hdata : (Source.array (balance a b).right.data).data dst = (balance a b).right.data := rfl
  rw [hsrc, hdata, hleft, hright] at hsum
  exact sum_and_carry (segment_lt _ _ _) hsum

/-- A sum with its carry behind it, as far as there is room. -/
theorem appended_sum {x y n m : ℕ} (hx : x < 2 ^ (32 * n)) (hy : y < 2 ^ (32 * n)) (hnm : n ≤ m) :
    (x + y) % 2 ^ (32 * n) + (if 2 ^ (32 * n) ≤ x + y ∧ n < m then 2 ^ (32 * n) else 0) =
      (x + y) % 2 ^ (32 * m) := by
  rcases Nat.lt_or_ge (x + y) (2 ^ (32 * n)) with hlt | hge
  · rw [if_neg fun h => Nat.not_le.mpr hlt h.1, Nat.mod_eq_of_lt hlt, Nat.add_zero]
    exact (Nat.mod_eq_of_lt (Nat.lt_of_lt_of_le hlt (pow_le_limbs 32 hnm))).symm
  · rcases Nat.lt_or_ge n m with hroom | hfull
    · have hpow : 2 ^ (32 * (n + 1)) ≤ 2 ^ (32 * m) := pow_le_limbs 32 hroom
      have hnext : 2 ^ (32 * (n + 1)) = 2 ^ (32 * n) * 2 ^ 32 := Nat.pow_add 2 (32 * n) 32
      rw [if_pos ⟨hge, hroom⟩, Nat.mod_eq_sub_mod hge, Nat.mod_eq_of_lt (by omega),
        Nat.sub_add_cancel hge]
      exact (Nat.mod_eq_of_lt (by omega)).symm
    · rw [if_neg fun h => Nat.not_lt.mpr hfull h.2, Nat.add_zero, Nat.le_antisymm hnm hfull]

theorem add_value (junk : Dwords) (a b : BigUInt MaxSize) :
    (a.add junk b).1.value = (a.value + b.value) % 2 ^ (32 * MaxSize.toNat) := by
  obtain ⟨hlow, hcarry⟩ := sum_spec junk (.array (balance a b).left.data) a b rfl
  obtain ⟨ha, hb⟩ := value_lt_balance a b
  have hadd : (a.add junk b).1.value = _ := appendCarry_value _ _
  rw [hadd, if_congr (and_congr_left' hcarry) rfl rfl,
    ← appended_sum ha hb (balance a b).bound, ← hlow]
  rfl

/-- The compound form keeps the dwords of the left operand, and puts the carry behind them. -/
theorem addAssign_value (a b : BigUInt MaxSize) :
    (a.addAssign b).1.value =
      (a.value + b.value) % 2 ^ (32 * (balance a b).size) % 2 ^ (32 * a.currentSize) +
        if 2 ^ (32 * (balance a b).size) ≤ a.value + b.value ∧ a.currentSize < MaxSize.toNat then
          2 ^ (32 * a.currentSize)
        else 0 := by
  obtain ⟨hsize, hkept, -⟩ := balance_spec a b
  obtain ⟨hlow, hcarry⟩ := sum_spec (balance a b).left.data .destination a b rfl
  have hadd : (a.addAssign b).1.value = _ := appendCarry_value _ _
  have hle : a.currentSize ≤ (balance a b).size := hsize ▸ Nat.le_max_left _ _
  rw [hadd, if_congr (and_congr_left' hcarry) rfl rfl, ← hlow, segment_mod _ _ hle, ← hkept]
  rfl

/-- What a sum of which only the lowest limbs are kept has to do with the sum itself. -/
theorem truncated_sum {p q r x y : ℕ} (hx : x < p) (hy : y < q) (hpq : 2 * p ≤ q)
    (hqr : q = r ∨ 2 * q ≤ r) :
    (x + y) % q % p + (if q ≤ x + y then p else 0) = (x + y) % r ↔ x + y < p := by
  rcases Nat.lt_or_ge (x + y) q with hlt | hge
  · have hr : x + y < r := by omega
    rw [if_neg (Nat.not_le.mpr hlt), Nat.mod_eq_of_lt hlt, Nat.mod_eq_of_lt hr, Nat.add_zero]
    constructor
    · intro h
      rw [← h]
      exact Nat.mod_lt _ (Nat.zero_lt_of_lt hx)
    · exact Nat.mod_eq_of_lt
  · have hmod : (x + y) % q % p < p := Nat.mod_lt _ (Nat.zero_lt_of_lt hx)
    rw [if_pos hge]
    rcases hqr with rfl | hqr
    · rw [Nat.mod_eq_sub_mod hge, Nat.mod_eq_of_lt (a := x + y - q) (b := q) (by omega)]
      constructor
      · intro h
        have hle := Nat.mod_le (x + y - q) p
        omega
      · intro h
        omega
    · rw [Nat.mod_eq_of_lt (b := r) (by omega)]
      omega

/-- Powers of limbs are at least a factor of two apart. -/
theorem two_mul_pow_le {m n : ℕ} (h : m < n) : 2 * 2 ^ (32 * m) ≤ 2 ^ (32 * n) := by
  rw [← Nat.pow_succ']
  exact Nat.pow_le_pow_right (by decide) (by omega)

theorem add_agrees_iff :
    (a.addAssign b).1.value = (a.add junk b).1.value ↔ Fit a b .add := by
  rw [addAssign_value, add_value, (balance_spec a b).1]
  show _ ↔ b.currentSize ≤ a.currentSize ∨ a.value + b.value < 2 ^ (32 * a.currentSize)
  rcases Nat.lt_or_ge a.currentSize b.currentSize with hlt | hge
  · have hroom : a.currentSize < MaxSize.toNat := Nat.lt_of_lt_of_le hlt b.bound
    have hqr : 2 ^ (32 * b.currentSize) = 2 ^ (32 * MaxSize.toNat) ∨
        2 * 2 ^ (32 * b.currentSize) ≤ 2 ^ (32 * MaxSize.toNat) :=
      b.bound.eq_or_lt.imp (fun h => by rw [h]) two_mul_pow_le
    have hiff := truncated_sum a.value_lt b.value_lt (two_mul_pow_le hlt) hqr
    rw [Nat.max_eq_right (Nat.le_of_lt hlt), if_congr (and_iff_left hroom) rfl rfl, hiff]
    exact (or_iff_right (Nat.not_le.mpr hlt)).symm
  · refine iff_of_true ?_ (.inl hge)
    rw [Nat.max_eq_left hge, Nat.mod_mod]
    exact appended_sum a.value_lt (segment_lt_of_le _ _ hge) a.bound

/-! ### Differences -/

/-- A difference and its borrow, from what they are to give back. -/
theorem diff_and_borrow {p diff x y : ℕ} {c : Bool} (hlt : diff < p)
    (h : diff + y = x + p * c.toNat) : diff = (x + p - y) % p := by
  cases c with
  | false =>
      rw [Bool.toNat_false, Nat.mul_zero, Nat.add_zero] at h
      rw [← h, Nat.add_right_comm, Nat.add_sub_cancel, Nat.add_mod_right, Nat.mod_eq_of_lt hlt]
  | true =>
      rw [Bool.toNat_true, Nat.mul_one] at h
      rw [← h, Nat.add_sub_cancel, Nat.mod_eq_of_lt hlt]

/-- The difference behind both forms of `-`, whatever the destination is. -/
theorem diff_spec (dst : Dwords) (src : Source) (a b : BigUInt MaxSize)
    (hsrc : src.data dst = (balance a b).left.data) :
    segment (bigIntSub dst src (.array (balance a b).right.data) (balance a b).size false).1 0
        (balance a b).size =
      (a.value + 2 ^ (32 * (balance a b).size) - b.value) % 2 ^ (32 * (balance a b).size) := by
  obtain ⟨-, -, hleft, hright, -⟩ := balance_spec a b
  have hdiff := @bigIntSub_value src _ dst (balance a b).size false
    (.inr ⟨(balance a b).right.data, rfl⟩)
  have hdata : (Source.array (balance a b).right.data).data dst = (balance a b).right.data := rfl
  rw [hsrc, hdata, hleft, hright] at hdiff
  exact diff_and_borrow (segment_lt _ _ _) hdiff

theorem sub_value (junk : Dwords) (a b : BigUInt MaxSize) :
    (a.sub junk b).1.value =
      (a.value + 2 ^ (32 * (balance a b).size) - b.value) % 2 ^ (32 * (balance a b).size) :=
  diff_spec junk (.array (balance a b).left.data) a b rfl

theorem subAssign_value (a b : BigUInt MaxSize) :
    (a.subAssign b).1.value =
      (a.value + 2 ^ (32 * (balance a b).size) - b.value) % 2 ^ (32 * (balance a b).size) %
        2 ^ (32 * a.currentSize) := by
  obtain ⟨hsize, hkept, -⟩ := balance_spec a b
  have hle : a.currentSize ≤ (balance a b).size := hsize ▸ Nat.le_max_left _ _
  rw [← diff_spec (balance a b).left.data .destination a b rfl, segment_mod _ _ hle, ← hkept]
  rfl

/-- What a difference of which only the lowest limbs are kept has to do with the difference
itself. -/
theorem truncated_diff {p q x y : ℕ} (hx : x < p) (hy : y < q) (hpq : 2 * p ≤ q) :
    (x + q - y) % q % p = (x + q - y) % q ↔ y ≤ x ∨ x + q < y + p := by
  have hiff : (x + q - y) % q % p = (x + q - y) % q ↔ (x + q - y) % q < p :=
    ⟨fun h => h ▸ Nat.mod_lt _ (Nat.zero_lt_of_lt hx), Nat.mod_eq_of_lt⟩
  rw [hiff]
  rcases Nat.lt_or_ge x y with hlt | hge
  · rw [Nat.mod_eq_of_lt (by omega)]
    omega
  · have hsplit : x + q - y = x - y + q := by omega
    rw [hsplit, Nat.add_mod_right, Nat.mod_eq_of_lt (by omega)]
    omega

theorem sub_agrees_iff :
    (a.subAssign b).1.value = (a.sub junk b).1.value ↔ Fit a b .sub := by
  rw [subAssign_value, sub_value, (balance_spec a b).1]
  show _ ↔ b.currentSize ≤ a.currentSize ∨ b.value ≤ a.value ∨
    a.value + 2 ^ (32 * b.currentSize) < b.value + 2 ^ (32 * a.currentSize)
  rcases Nat.lt_or_ge a.currentSize b.currentSize with hlt | hge
  · rw [Nat.max_eq_right (Nat.le_of_lt hlt),
      truncated_diff a.value_lt b.value_lt (two_mul_pow_le hlt)]
    exact (or_iff_right (Nat.not_le.mpr hlt)).symm
  · rw [Nat.max_eq_left hge, Nat.mod_mod]
    exact iff_of_true rfl (.inl hge)

/-! ## Multiplication -/

/-- The dwords that a product is given. -/
theorem mulInto_value (dst : Dwords) (src : Source) (a b : BigUInt MaxSize)
    (hsrc : src.data dst = a.data) :
    (mulInto dst src a b).value = a.value * b.value %
      2 ^ (32 * min ((a.currentSize + b.currentSize) % 2 ^ 32) MaxSize.toNat) := by
  have hvalue := bigIntMul_value dst src (.array b.data) a.currentSize b.currentSize
    MaxSize.toNat false
  rw [hsrc, Bool.toNat_false, Nat.add_zero] at hvalue
  exact hvalue

theorem mul_exact_iff :
    (a.mul junk b).value = a.value * b.value % 2 ^ (32 * MaxSize.toNat) ↔ Fit a b .mul := by
  have hmul : (a.mul junk b).value = _ := mulInto_value junk (.array a.data) a b rfl
  rw [hmul]
  show _ ↔ a.currentSize + b.currentSize < 2 ^ 32 ∨ a.value * b.value %
    2 ^ (32 * MaxSize.toNat) < 2 ^ (32 * ((a.currentSize + b.currentSize) % 2 ^ 32))
  have ha := a.bound
  have hb := b.bound
  have hmax := MaxSize.toNat_lt
  rcases Nat.lt_or_ge (a.currentSize + b.currentSize) (2 ^ 32) with hlt | hge
  · -- The product has no more dwords than both operands together.
    refine iff_of_true ?_ (.inl hlt)
    have hproduct : a.value * b.value < 2 ^ (32 * (a.currentSize + b.currentSize)) := by
      rw [pow_add_limbs]
      exact Nat.mul_lt_mul'' a.value_lt b.value_lt
    rw [Nat.mod_eq_of_lt hlt]
    rcases Nat.le_total (a.currentSize + b.currentSize) MaxSize.toNat with hle | hle
    · rw [Nat.min_eq_left hle, Nat.mod_eq_of_lt hproduct,
        Nat.mod_eq_of_lt (Nat.lt_of_lt_of_le hproduct (pow_le_limbs 32 hle))]
    · rw [Nat.min_eq_right hle]
  · -- The sum of the sizes has wrapped around, below `MaxSize`.
    have hle : (a.currentSize + b.currentSize) % 2 ^ 32 ≤ MaxSize.toNat := by omega
    rw [Nat.min_eq_left hle, or_iff_right (Nat.not_lt.mpr hge)]
    constructor
    · intro h
      rw [← h]
      exact Nat.mod_lt _ (Nat.two_pow_pos _)
    · intro h
      have hmod := Nat.mod_mod_of_dvd (a.value * b.value)
        (Nat.pow_dvd_pow 2 (Nat.mul_le_mul_left 32 hle))
      rw [Nat.mod_eq_of_lt h] at hmod
      exact hmod.symm

theorem mulAssign_value (junk : Dwords) (a b : BigUInt MaxSize) :
    (a.mulAssign b).value = (a.mul junk b).value := by
  have hmul : (a.mul junk b).value = _ := mulInto_value junk (.array a.data) a b rfl
  rw [hmul]
  exact mulInto_value a.data .destination a b rfl

/-! ## Logic -/

theorem andAssign_value (junk : Dwords) (a b : BigUInt MaxSize) :
    (a.andAssign b).value = (a.and junk b).value := by
  have hassign (j : ℕ) : (a.andAssign b).data j =
      if j < min b.currentSize a.currentSize then a.data j &&& b.data j
      else if j < a.currentSize then 0
      else a.data j := by
    refine (bigIntAnd2_apply a.data (min a.currentSize a.currentSize) (.array b.data)
      b.currentSize j).trans ?_
    rw [Nat.min_self]
    rfl
  have hshort : (a.andAssign b).value =
      segment (a.andAssign b).data 0 (min a.currentSize b.currentSize) := by
    refine segment_extend (Nat.min_le_left _ _) fun i hi hlt => ?_
    change i < a.currentSize at hlt
    rw [hassign, if_neg (by omega), if_pos (by omega)]
  rw [hshort]
  refine segment_congr fun i hi => ?_
  have hbinary := bigIntAnd_apply junk a.data b.data (min a.currentSize b.currentSize)
    a.currentSize b.currentSize (0 + i)
  rw [hassign, if_pos (by omega)]
  exact (hbinary.trans (if_pos (by omega))).symm

/-- The compound form has the lowest dwords of the binary one. -/
theorem bitwiseAssign_value (op : BitVec 32 → BitVec 32 → BitVec 32) (junk : Dwords)
    (a b : BigUInt MaxSize) :
    (a.bitwiseAssign op b).value = segment (a.bitwise op junk b).data 0 a.currentSize := by
  refine segment_congr fun i hi => ?_
  change i < a.currentSize at hi
  have hassign : (a.bitwiseAssign op b).data (0 + i) = _ :=
    bitwise2_apply op a.data (min a.currentSize a.currentSize) (.array b.data) b.currentSize (0 + i)
  have hbinary : (a.bitwise op junk b).data (0 + i) = _ :=
    bitwise_apply op junk a.data b.data (Nat.le_max_left _ _) (Nat.le_max_right _ _)
      (j := 0 + i) (by omega)
  rw [hassign, hbinary, Nat.min_self, Nat.min_comm b.currentSize]
  split
  next => rfl
  next => exact (if_pos (by omega)).symm

theorem bitwise_agrees_iff (op : BitVec 32 → BitVec 32 → BitVec 32) :
    (a.bitwiseAssign op b).value = (a.bitwise op junk b).value ↔
      b.value < 2 ^ (32 * a.currentSize) := by
  rw [bitwiseAssign_value op junk]
  show _ = segment (a.bitwise op junk b).data 0 (max a.currentSize b.currentSize) ↔ _
  rcases Nat.le_total b.currentSize a.currentSize with hle | hle
  · rw [Nat.max_eq_left hle]
    exact iff_of_true rfl (segment_lt_of_le _ _ hle)
  · rw [Nat.max_eq_right hle]
    obtain ⟨n, hn⟩ := Nat.exists_eq_add_of_le hle
    -- The surplus of the right operand is what the compound form loses.
    have hsurplus : segment (a.bitwise op junk b).data a.currentSize n =
        segment b.data a.currentSize n := by
      refine segment_congr fun i hi => ?_
      have hbinary : (a.bitwise op junk b).data (a.currentSize + i) = _ :=
        bitwise_apply op junk a.data b.data (Nat.le_max_left _ _) (Nat.le_max_right _ _)
          (j := a.currentSize + i) (by omega)
      rw [hbinary, if_neg (by omega), if_neg (by omega), if_pos (by omega)]
    have hquot : b.value / 2 ^ (32 * a.currentSize) = segment b.data a.currentSize n := by
      show segment b.data 0 b.currentSize / _ = _
      rw [hn, segment_div, Nat.zero_add]
    have hpos := Nat.two_pow_pos (32 * a.currentSize)
    rw [hn, segment_add, Nat.zero_add, hsurplus, ← hquot, ← Nat.div_eq_zero_iff_lt hpos]
    constructor
    · intro h
      rcases Nat.mul_eq_zero.mp (Nat.left_eq_add.mp h) with h | h
      · exact absurd h (Nat.ne_of_gt hpos)
      · exact h
    · intro h
      rw [h, Nat.mul_zero, Nat.add_zero]

/-! ## Shifts -/

/-- The bits of a product with a power of two. -/
theorem mul_two_pow_mod (x k n : ℕ) : x * 2 ^ k % 2 ^ n = x % 2 ^ (n - k) * 2 ^ k % 2 ^ n := by
  rcases Nat.le_total k n with hle | hle
  · obtain ⟨m, rfl⟩ := Nat.exists_eq_add_of_le hle
    rw [Nat.add_sub_cancel_left, Nat.add_comm k m, Nat.pow_add, Nat.mul_mod_mul_right,
      Nat.mul_mod_mul_right, Nat.mod_mod]
  · have hdvd (y : ℕ) : y * 2 ^ k % 2 ^ n = 0 :=
      Nat.mod_eq_zero_of_dvd ((Nat.pow_dvd_pow 2 hle).mul_left y)
    rw [hdvd, hdvd]

/-- Products with a power of two agree when the bits that it keeps do. -/
theorem mul_two_pow_inj (x y k n : ℕ) :
    x * 2 ^ k % 2 ^ n = y * 2 ^ k % 2 ^ n ↔ x % 2 ^ (n - k) = y % 2 ^ (n - k) := by
  constructor
  · intro h
    rcases Nat.le_total k n with hle | hle
    · obtain ⟨m, rfl⟩ := Nat.exists_eq_add_of_le hle
      rw [Nat.add_comm k m, Nat.pow_add, Nat.mul_mod_mul_right, Nat.mul_mod_mul_right] at h
      rw [Nat.add_sub_cancel_left]
      exact Nat.eq_of_mul_eq_mul_right (Nat.two_pow_pos k) h
    · rw [Nat.sub_eq_zero_of_le hle, Nat.pow_zero, Nat.mod_one, Nat.mod_one]
  · intro h
    rw [mul_two_pow_mod x, mul_two_pow_mod y, h]

/-- The dwords that are not moved beyond the maximum have all the bits that are kept. -/
theorem kept_mod (a : BigUInt MaxSize) (amnt : ℕ) :
    segment a.data 0 (min MaxSize.toNat (a.currentSize + amnt / 32) - amnt / 32) %
        2 ^ (32 * MaxSize.toNat - amnt) = a.value % 2 ^ (32 * MaxSize.toNat - amnt) := by
  have hsmall : min MaxSize.toNat (a.currentSize + amnt / 32) - amnt / 32 ≤ a.currentSize := by
    omega
  rcases Nat.lt_or_ge (MaxSize.toNat - amnt / 32) a.currentSize with hlt | hge
  · have hdvd : 2 ^ (32 * MaxSize.toNat - amnt) ∣
        2 ^ (32 * (min MaxSize.toNat (a.currentSize + amnt / 32) - amnt / 32)) :=
      Nat.pow_dvd_pow 2 (by omega)
    rw [← segment_mod a.data 0 hsmall]
    exact Nat.mod_mod_of_dvd _ hdvd
  · have hsize : min MaxSize.toNat (a.currentSize + amnt / 32) - amnt / 32 = a.currentSize ∨
        32 * MaxSize.toNat - amnt = 0 := by omega
    rcases hsize with hsize | hnone
    · rw [hsize]
      rfl
    · rw [hnone, Nat.pow_zero, Nat.mod_one, Nat.mod_one]

theorem shl_agrees_iff (amnt : ℕ) :
    (a.shlAssign amnt).value = (a.shl junk amnt).value ↔
      amnt < 32 ∨ displaced a amnt % 2 ^ (32 * MaxSize.toNat - amnt) =
        a.value % 2 ^ (32 * MaxSize.toNat - amnt) := by
  have hassign : (a.shlAssign amnt).value = _ :=
    (bigIntShL_value a.data .destination a.currentSize MaxSize.toNat amnt).1
  have hbinary : (a.shl junk amnt).value = _ :=
    (bigIntShL_value junk (.array a.data) a.currentSize MaxSize.toNat amnt).1
  rw [hassign, hbinary, mul_two_pow_inj]
  show segment a.data 0 _ % _ = displaced a amnt % _ ↔ _
  rw [kept_mod]
  constructor
  · intro h
    exact .inr h.symm
  · rintro (hlt | h)
    · have hplace : displaced a amnt =
          segment a.data 0 (min MaxSize.toNat (a.currentSize + amnt / 32) - amnt / 32) := by
        unfold displaced
        rw [Nat.div_eq_of_lt hlt]
      rw [hplace, kept_mod]
    · exact h.symm

theorem shrInto_spec (dst : Dwords) (src : Source) (a : BigUInt MaxSize) (amnt : ℕ)
    (hsrc : src.data dst = a.data) :
    (∃ res, shrInto dst src a amnt = some res ∧ res.value = a.value / 2 ^ amnt ∧
      (a.currentSize ≤ amnt / 32 ∨ a.value / 2 ^ amnt ≠ 0)) ∨
    shrInto dst src a amnt = none ∧
      ¬ (a.currentSize ≤ amnt / 32 ∨ a.value / 2 ^ amnt ≠ 0) := by
  have hspec := bigIntShR_spec dst src amnt a.size_lt
  rw [hsrc] at hspec
  unfold shrInto
  split
  next hnone =>
    rcases hspec with ⟨dst', size', underflow, hsome, -⟩ | ⟨-, hlt, hzero⟩
    · exact nomatch hnone.symm.trans hsome
    · exact .inr ⟨rfl, not_or.mpr ⟨Nat.not_le.mpr hlt, not_not_intro hzero⟩⟩
  next res hres =>
    rcases hspec with ⟨dst', size', underflow, hsome, hvalue, -, hfit⟩ | ⟨hnone, -⟩
    · obtain rfl := Option.some.inj (hres.symm.trans hsome)
      exact .inl ⟨_, rfl, hvalue, hfit⟩
    · exact nomatch hnone.symm.trans hres

theorem shr_agrees_iff (amnt : ℕ) :
    (∃ res a', a.shr junk amnt = some res ∧ a.shrAssign amnt = some a' ∧
      a'.value = res.value) ↔ a.currentSize ≤ amnt / 32 ∨ a.value / 2 ^ amnt ≠ 0 := by
  rcases shrInto_spec junk (.array a.data) a amnt rfl with
    ⟨res, hres, hvalue, hfit⟩ | ⟨hnone, hnot⟩
  · rcases shrInto_spec a.data .destination a amnt rfl with
      ⟨a', ha', hvalue', -⟩ | ⟨-, hnot⟩
    · exact iff_of_true ⟨res, a', hres, ha', hvalue'.trans hvalue.symm⟩ hfit
    · exact absurd hfit hnot
  · refine iff_of_false ?_ hnot
    rintro ⟨res, -, hres, -⟩
    exact nomatch hnone.symm.trans hres

/-! ## All operators -/

/-- What returns and leaves the right operand as it is agrees when the values do. -/
theorem agrees_iff_of_some {op : Op} {res b₁ a' b₂ : BigUInt MaxSize}
    (hbinary : binary junk a b op = some (res, b₁))
    (hcompound : compound a b op = some (a', b₂)) (h₁ : b₁.value = b.value)
    (h₂ : b₂.value = b.value) :
    Agrees op junk a b ↔ a'.value = res.value ∧ Exact a b res.value op := by
  constructor
  · rintro ⟨res', b₁', a'', b₂', hbinary', hcompound', hvalue, -, -, hexact⟩
    obtain ⟨rfl, rfl⟩ := Prod.mk.inj (Option.some.inj (hbinary.symm.trans hbinary'))
    obtain ⟨rfl, rfl⟩ := Prod.mk.inj (Option.some.inj (hcompound.symm.trans hcompound'))
    exact ⟨hvalue, hexact⟩
  · rintro ⟨hvalue, hexact⟩
    exact ⟨res, b₁, a', b₂, hbinary, hcompound, hvalue, h₁, h₂, hexact⟩

theorem agrees_add : Agrees .add junk a b ↔ Fit a b .add := by
  obtain ⟨-, -, -, -, hright⟩ := balance_spec a b
  refine (agrees_iff_of_some rfl rfl hright hright).trans ?_
  exact (and_iff_left (add_value junk a b)).trans add_agrees_iff

theorem agrees_sub : Agrees .sub junk a b ↔ Fit a b .sub := by
  obtain ⟨-, -, -, -, hright⟩ := balance_spec a b
  refine (agrees_iff_of_some rfl rfl hright hright).trans ?_
  exact (and_iff_left trivial).trans sub_agrees_iff

theorem agrees_mul : Agrees .mul junk a b ↔ Fit a b .mul := by
  refine (agrees_iff_of_some rfl rfl rfl rfl).trans ?_
  exact (and_iff_right (mulAssign_value junk a b)).trans mul_exact_iff

theorem agrees_shr : Agrees .shr junk a b ↔ Fit a b .shr := by
  refine Iff.trans ?_ (@shr_agrees_iff _ _ junk b.toUInt64.toNat)
  constructor
  · rintro ⟨res, b₁, a', b₂, hbinary, hcompound, hvalue, -⟩
    obtain ⟨res', hres, heq⟩ := Option.map_eq_some_iff.mp hbinary
    obtain ⟨a'', ha, heq'⟩ := Option.map_eq_some_iff.mp hcompound
    obtain ⟨rfl, -⟩ := Prod.mk.inj heq
    obtain ⟨rfl, -⟩ := Prod.mk.inj heq'
    exact ⟨_, _, hres, ha, hvalue⟩
  · rintro ⟨res, a', hres, ha, hvalue⟩
    refine ⟨res, b, a', b, ?_, ?_, hvalue, rfl, rfl, trivial⟩
    · exact Option.map_eq_some_iff.mpr ⟨res, hres, rfl⟩
    · exact Option.map_eq_some_iff.mpr ⟨a', ha, rfl⟩

/-- The forms of an operator agree exactly when the result fits into what the compound form, the
shift or the product has room for. -/
theorem agrees_iff (op : Op) (junk : Dwords) (a b : BigUInt MaxSize) :
    Agrees op junk a b ↔ Fit a b op := by
  cases op with
  | add => exact agrees_add
  | sub => exact agrees_sub
  | mul => exact agrees_mul
  | and =>
      refine (agrees_iff_of_some rfl rfl rfl rfl).trans ?_
      exact iff_of_true ⟨andAssign_value junk a b, trivial⟩ trivial
  | or =>
      refine (agrees_iff_of_some rfl rfl rfl rfl).trans ?_
      exact (and_iff_left trivial).trans (bitwise_agrees_iff _)
  | xor =>
      refine (agrees_iff_of_some rfl rfl rfl rfl).trans ?_
      exact (and_iff_left trivial).trans (bitwise_agrees_iff _)
  | shl =>
      refine (agrees_iff_of_some rfl rfl rfl rfl).trans ?_
      exact (and_iff_left trivial).trans (shl_agrees_iff _)
  | shr => exact agrees_shr

/-- One dword and two dwords, added. -/
theorem not_agrees : ¬ ∀ (MaxSize : UInt32) (op : Op) (junk : Dwords) (a b : BigUInt MaxSize),
    Agrees op junk a b := by
  intro h
  have hfit := agrees_add.mp (h 2 .add (fun _ => 0) ⟨fun _ => 0, 1, by decide⟩
    ⟨fun i => if i = 1 then 1 else 0, 2, by decide⟩)
  exact absurd hfit (by unfold Fit value; decide)

end BigUInt

end Beelzebub
