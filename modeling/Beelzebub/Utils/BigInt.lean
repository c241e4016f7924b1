import Beelzebub.Lib.Limbs
import Mathlib.Data.Nat.ModEq
import Mathlib.Logic.Function.Basic
import Mathlib.Tactic.Linarith
import Mathlib.Tactic.LinearCombination

/-!
# Arithmetic on arrays of dwords

The operations behind `BigUInt`.  A source may be the destination itself, which the operations
tell by the address.
-/

namespace Beelzebub.BigInt

open Limbs

/-! ## Arrays -/

/-- The memory from the first dword of an array on. -/
abbrev Dwords := ℕ → BitVec 32

/-- Where a source lies. -/
inductive Source where
  | destination
  | array (data : Dwords)

/-- What a source holds, given what the destination holds by now. -/
def Source.data : Source → Dwords → Dwords
  | .destination, dst => dst
  | .array data, _ => data

def put (dst : Dwords) (i : ℕ) (v : BitVec 32) : Dwords := Function.update dst i v

/-- `for (i …) dst[i] = f(i)`, for so many dwords. -/
def forward (f : ℕ → Dwords → BitVec 32) : ℕ → ℕ → Dwords → Dwords
  | 0, _, dst => dst
  | n + 1, i, dst => forward f n (i + 1) (put dst i (f i dst))

/-- `memset(dst + i, 0, …)`. -/
def clear (dst : Dwords) (i n : ℕ) : Dwords := forward (fun _ _ => 0) n i dst

/-! ## Addition and subtraction -/

/-- Two dwords as one qword. -/
def qword (x : Dwords) (i : ℕ) : BitVec 64 := x (i + 1) ++ x i

def putQword (dst : Dwords) (i : ℕ) (q : BitVec 64) : Dwords :=
  put (put dst i (q.setWidth 32)) (i + 1) ((q >>> 32).setWidth 32)

/-- An instruction with carry, of any operand size: the result and the carry out. -/
abbrev Instruction := (w : ℕ) → BitVec w → BitVec w → Bool → BitVec w × Bool

def adc : Instruction := fun w x y cin =>
  (BitVec.ofNat w (x.toNat + y.toNat + cin.toNat),
    decide (2 ^ w ≤ x.toNat + y.toNat + cin.toNat))

def sbb : Instruction := fun w x y cin =>
  (BitVec.ofNat w (2 ^ w + x.toNat - (y.toNat + cin.toNat)),
    decide (x.toNat < y.toNat + cin.toNat))

/-- The loop from an offset on: two dwords at once, and the last one alone. -/
def chain (op : Instruction) (src1 src2 : Source) : ℕ → ℕ → Dwords → Bool → Dwords × Bool
  | 0, _, dst, carry => (dst, carry)
  | 1, i, dst, carry =>
      let res := op 32 (src1.data dst i) (src2.data dst i) carry
      (put dst i res.1, res.2)
  | n + 2, i, dst, carry =>
      let res := op 64 (qword (src1.data dst) i) (qword (src2.data dst) i) carry
      chain op src1 src2 n (i + 2) (putQword dst i res.1) res.2

/-- `BigIntAdd2` and `BigIntSub2`. -/
def inPlace (op : Instruction) (dst : Dwords) (src : Source) (size : ℕ) (cin : Bool) :
    Dwords × Bool :=
  chain op .destination src size 0 dst cin

/-- `BigIntAdd` and `BigIntSub`: a destination that is one of the sources takes the other one. -/
def addSub (op : Instruction) (dst : Dwords) (src1 src2 : Source) (size : ℕ) (cin : Bool) :
    Dwords × Bool :=
  match src1, src2 with
  | .destination, src2 => inPlace op dst src2 size cin
  | .array data, .destination => inPlace op dst (.array data) size cin
  | .array data1, .array data2 => chain op (.array data1) (.array data2) size 0 dst cin

def bigIntAdd (dst : Dwords) (src1 src2 : Source) (size : ℕ) (cin : Bool) : Dwords × Bool :=
  addSub adc dst src1 src2 size cin

def bigIntSub (dst : Dwords) (src1 src2 : Source) (size : ℕ) (cin : Bool) : Dwords × Bool :=
  addSub sbb dst src1 src2 size cin

/-! ## Multiplication -/

/-- The innermost loop, for so many dwords at most: what is left of `res` is added from `l` on. -/
def addProduct : ℕ → ℕ → Dwords → BitVec 64 → Dwords × BitVec 64
  | 0, _, dst, res => (dst, res)
  | n + 1, l, dst, res =>
      if res = 0 then (dst, res)
      else
        let res := res + (dst l).setWidth 64
        addProduct n (l + 1) (put dst l (res.setWidth 32)) (res >>> 32)

/-- The loop over the longer source, from its `j`-th dword on. -/
def addRow (currentDword : BitVec 32) (src2 : Dwords) (i limit : ℕ) :
    ℕ → ℕ → Dwords → Bool → Dwords × Bool
  | 0, _, dst, overflow => (dst, overflow)
  | n + 1, j, dst, overflow =>
      if i + j < limit then
        let res := addProduct (limit - (i + j)) (i + j) dst
          (currentDword.setWidth 64 * (src2 j).setWidth 64)
        addRow currentDword src2 i limit n (j + 1) res.1
          (if (res.2 >>> 32).setWidth 32 ≠ (0 : BitVec 32) then true else overflow)
      else (dst, overflow)

/-- The loop over the shorter source, from its `i`-th dword on. -/
def addRows (src1 src2 : Dwords) (size2 limit : ℕ) : ℕ → ℕ → Dwords → Bool → Dwords × Bool
  | 0, _, dst, overflow => (dst, overflow)
  | n + 1, i, dst, overflow =>
      if src1 i ≠ 0 then
        let row := addRow (src1 i) src2 i limit size2 0 dst overflow
        addRows src1 src2 size2 limit n (i + 1) row.1 row.2
      else addRows src1 src2 size2 limit n (i + 1) dst overflow

/-- The destination, its size and whether there was an overflow.  A source that is the destination
is copied first. -/
def bigIntMul (dst : Dwords) (src1 : Source) (size1 : ℕ) (src2 : Source) (size2 maxSize : ℕ)
    (cin : Bool) : Dwords × ℕ × Bool :=
  let limit := min ((size1 + size2) % 2 ^ 32) maxSize
  let start := put (clear dst 0 limit) 0 (if cin then 1 else 0)
  let rows :=
    if size1 > size2 then addRows (src2.data dst) (src1.data dst) size1 limit size2 0 start false
    else addRows (src1.data dst) (src2.data dst) size2 limit size1 0 start false
  (rows.1, limit, rows.2)

/-! ## Logic -/

def bigIntAnd2 (dst : Dwords) (sizeD : ℕ) (src : Source) (sizeS : ℕ) : Dwords :=
  let sizeS := if sizeS > sizeD then sizeD else sizeS
  let dst := forward (fun i dst => dst i &&& src.data dst i) sizeS 0 dst
  if sizeD > sizeS then clear dst sizeS (sizeD - sizeS) else dst

def bigIntAnd (dst : Dwords) (sizeD : ℕ) (src1 : Source) (size1 : ℕ) (src2 : Source)
    (size2 : ℕ) : Dwords :=
  match src1, src2 with
  | .destination, src2 => bigIntAnd2 dst (min sizeD size1) src2 size2
  | .array data, .destination => bigIntAnd2 dst (min sizeD size2) (.array data) size1
  | .array data1, .array data2 =>
      let limit := min size1 size2
      let dst := forward (fun i _ => data1 i &&& data2 i) limit 0 dst
      if sizeD > limit then clear dst limit (sizeD - limit) else dst

/-- `BigIntOr2` and `BigIntXor2`. -/
def bitwise2 (op : BitVec 32 → BitVec 32 → BitVec 32) (dst : Dwords) (sizeD : ℕ) (src : Source)
    (sizeS : ℕ) : Dwords :=
  forward (fun i dst => op (dst i) (src.data dst i)) (if sizeS > sizeD then sizeD else sizeS) 0 dst

/-- `BigIntOr` and `BigIntXor`: the surplus of the longer source is copied. -/
def bitwise (op : BitVec 32 → BitVec 32 → BitVec 32) (dst : Dwords) (sizeD : ℕ) (src1 : Source)
    (size1 : ℕ) (src2 : Source) (size2 : ℕ) : Dwords :=
  match src1, src2 with
  | .destination, src2 => bitwise2 op dst (min sizeD size1) src2 size2
  | .array data, .destination => bitwise2 op dst (min sizeD size2) (.array data) size1
  | .array data1, .array data2 =>
      let size1 := if size1 > sizeD then sizeD else size1
      let size2 := if size2 > sizeD then sizeD else size2
      let limit := min size1 size2
      let both := forward (fun i _ => op (data1 i) (data2 i)) limit 0 dst
      let surplus :=
        if size1 > limit then (forward (fun i _ => data1 i) (size1 - limit) limit both, size1)
        else if size2 > limit then
          (forward (fun i _ => data2 i) (size2 - limit) limit both, size2)
        else (both, limit)
      if sizeD > surplus.2 then clear surplus.1 surplus.2 (sizeD - surplus.2) else surplus.1

def bigIntOr := bitwise (· ||| ·)

def bigIntXor := bitwise (· ^^^ ·)

/-! ## Shifts -/

/-- `for (i = …; i >= amntMov; --i) dst[i] = src[i - amntMov]`, for so many dwords. -/
def moveUp (src : Source) (amntMov : ℕ) : ℕ → Dwords → Dwords
  | 0, dst => dst
  | n + 1, dst => moveUp src amntMov n (put dst (amntMov + n) (src.data dst n))

/-- The loop that shifts dwords in place, towards the more significant ones. -/
def shiftUp (src : Source) (amnt : ℕ) : ℕ → ℕ → Dwords → BitVec 32 → Dwords × BitVec 32
  | 0, _, dst, overflow => (dst, overflow)
  | n + 1, i, dst, overflow =>
      let window : BitVec 64 := (src.data dst i).setWidth 64 <<< amnt ||| overflow.setWidth 64
      shiftUp src amnt n (i + 1) (put dst i (window.setWidth 32)) ((window >>> 32).setWidth 32)

/-- The shift proper, once it is less than the size. -/
def shiftInto (dst : Dwords) (src : Source) (sizeD amntMov amnt : ℕ) : Dwords × BitVec 32 :=
  if amntMov ≠ 0 then
    let shifted := shiftUp src amnt (sizeD - amntMov) amntMov
      (moveUp src amntMov (sizeD - amntMov) dst) 0
    (clear shifted.1 0 amntMov, shifted.2)
  else shiftUp src amnt sizeD 0 dst 0

/-- The destination, its size and whether there was an overflow. -/
def bigIntShL (dst : Dwords) (src : Source) (sizeS sizeM amnt : ℕ) : Dwords × ℕ × Bool :=
  let amntMov := amnt / 32
  if amntMov ≥ sizeM then (clear dst 0 sizeM, sizeM, true)
  else
    let sizeD := min sizeM (sizeS + amntMov)
    let shifted := shiftInto dst src sizeD amntMov (amnt % 32)
    if shifted.2 ≠ 0 then
      if sizeD < sizeM then (put shifted.1 sizeD shifted.2, sizeD + 1, false)
      else (shifted.1, sizeD, true)
    else (shifted.1, sizeD, false)

/-- The loop from so many dwords down to the first. -/
def shiftDown (src : Dwords) (amntMov amnt : ℕ) : ℕ → Dwords → BitVec 32 → Dwords × BitVec 32
  | 0, dst, underflow => (dst, underflow)
  | i + 1, dst, underflow =>
      let window : BitVec 64 := (src (i + amntMov)).setWidth 64 <<< amnt
      shiftDown src amntMov amnt i (put dst i ((window >>> 32).setWidth 32 ||| underflow))
        (window.setWidth 32)

/-- `while (dst[sizeD - 1] == 0) --sizeD`, which leaves the array when all is zero. -/
def trim (dst : Dwords) : ℕ → Option ℕ
  | 0 => none
  | n + 1 => if dst n = 0 then trim dst n else some (n + 1)

/-- The destination, its size and whether there was an underflow.  A source that is the destination
is copied first. -/
def bigIntShR (dst : Dwords) (sizeD : ℕ) (src : Source) (sizeS amnt : ℕ) :
    Option (Dwords × ℕ × Bool) :=
  let amntMov := amnt / 32
  let data := src.data dst
  if amntMov ≥ sizeS then some (dst, 0, true)
  else
    let underflow := if sizeS > sizeD then data sizeD >>> (amnt % 32) else 0
    let sizeD := (((min sizeS sizeD : ℕ) : ℤ) - amntMov) % 2 ^ 32 |>.toNat
    let shifted := shiftDown data amntMov (32 - amnt % 32) sizeD dst underflow
    match trim shifted.1 sizeD with
    | none => none
    | some sizeD => some (shifted.1, sizeD, decide (shifted.2 ≠ 0))

/-! ## What the steps store -/

variable {dst dst' : Dwords} {src src1 src2 : Source} {i j n : ℕ} {v : BitVec 32}

theorem put_self (dst : Dwords) (i : ℕ) (v : BitVec 32) : put dst i v i = v := by
  unfold put
  exact Function.update_self ..

theorem put_of_ne (h : j ≠ i) : put dst i v j = dst j := by
  unfold put
  exact Function.update_of_ne h ..

theorem Source.data_congr (src : Source) (h : dst' j = dst j) : src.data dst' j = src.data dst j := by
  cases src with
  | destination => exact h
  | array data => rfl

theorem segment_put_outside (h : i < j ∨ j + n ≤ i) : segment (put dst i v) j n = segment dst j n :=
  segment_congr fun k hk => put_of_ne (by omega)

/-- A loop whose rounds look at no dword that was stored before. -/
theorem forward_apply {f : ℕ → Dwords → BitVec 32}
    (hf : ∀ i d d', (∀ j, i ≤ j → d j = d' j) → f i d = f i d') (n i : ℕ) (dst : Dwords) (j : ℕ) :
    forward f n i dst j = if i ≤ j ∧ j < i + n then f j dst else dst j := by
  induction n generalizing i dst with
  | zero => exact (if_neg (by omega)).symm
  | succ n ih =>
      show forward f n (i + 1) (put dst i (f i dst)) j = _
      rw [ih]
      rcases Nat.lt_trichotomy j i with hlt | rfl | hgt
      · rw [if_neg (by omega), if_neg (by omega), put_of_ne (Nat.ne_of_lt hlt)]
      · rw [if_neg (by omega), if_pos (by omega), put_self]
      · have hsame : f j (put dst i (f i dst)) = f j dst :=
          hf j _ _ fun k hk => put_of_ne (Nat.ne_of_gt (Nat.lt_of_lt_of_le hgt hk))
        rw [hsame, put_of_ne (Nat.ne_of_gt hgt)]
        exact if_congr (by omega) rfl rfl

theorem clear_apply (dst : Dwords) (i n j : ℕ) :
    clear dst i n j = if i ≤ j ∧ j < i + n then 0 else dst j :=
  forward_apply (fun _ _ _ _ => rfl) n i dst j

/-! ## Addition and subtraction -/

theorem qword_toNat (x : Dwords) (i : ℕ) : (qword x i).toNat = segment x i 2 := by
  have hlow := (x i).isLt
  unfold qword
  rw [BitVec.toNat_append, Nat.shiftLeft_eq, Nat.mul_comm,
    ← Nat.two_pow_add_eq_or_of_lt hlow, segment_succ, segment_one, Nat.mul_one, Nat.add_comm]

theorem putQword_low (dst : Dwords) (i : ℕ) (q : BitVec 64) :
    putQword dst i q i = q.setWidth 32 := by
  unfold putQword
  rw [put_of_ne (Nat.ne_of_lt (Nat.lt_succ_self i)), put_self]

theorem putQword_high (dst : Dwords) (i : ℕ) (q : BitVec 64) :
    putQword dst i q (i + 1) = (q >>> 32).setWidth 32 := put_self _ _ _

theorem putQword_of_ne {q : BitVec 64} (h : j ≠ i) (h' : j ≠ i + 1) :
    putQword dst i q j = dst j := by
  unfold putQword
  rw [put_of_ne h', put_of_ne h]

/-- The two dwords of a qword. -/
theorem toNat_halves (q : BitVec 64) :
    (q.setWidth 32).toNat + 2 ^ 32 * ((q >>> 32).setWidth 32).toNat = q.toNat := by
  have hlt := q.isLt
  rw [BitVec.toNat_setWidth, BitVec.toNat_setWidth, BitVec.toNat_ushiftRight,
    Nat.shiftRight_eq_div_pow]
  omega

theorem segment_putQword (dst : Dwords) (i : ℕ) (q : BitVec 64) :
    segment (putQword dst i q) i 2 = q.toNat := by
  rw [segment_succ, segment_one, putQword_low, putQword_high, Nat.mul_one, toNat_halves]

/-- What an instruction computes: the sum, or the difference when `σ` is `-1`, up to the carry. -/
def Linear (σ : ℤ) (op : Instruction) : Prop :=
  ∀ w x y cin, ((op w x y cin).1.toNat : ℤ) =
    x.toNat + σ * (y.toNat + cin.toNat - 2 ^ w * (op w x y cin).2.toNat)

theorem toNat_le_one (b : Bool) : b.toNat ≤ 1 := by cases b <;> decide

theorem linear_adc : Linear 1 adc := by
  intro w x y cin
  have hx := x.isLt
  have hy := y.isLt
  have hc := toNat_le_one cin
  have hsum : (adc w x y cin).1.toNat + 2 ^ w * (adc w x y cin).2.toNat =
      x.toNat + y.toNat + cin.toNat := by
    show (BitVec.ofNat w (x.toNat + y.toNat + cin.toNat)).toNat +
      2 ^ w * (decide (2 ^ w ≤ x.toNat + y.toNat + cin.toNat)).toNat = _
    rw [BitVec.toNat_ofNat]
    rcases Nat.lt_or_ge (x.toNat + y.toNat + cin.toNat) (2 ^ w) with hlt | hge
    · rw [decide_eq_false (Nat.not_le_of_gt hlt), Nat.mod_eq_of_lt hlt]
      exact Nat.add_zero _
    · rw [decide_eq_true hge, Nat.mod_eq_sub_mod hge, Nat.mod_eq_of_lt (by omega), Bool.toNat_true,
        Nat.mul_one, Nat.sub_add_cancel hge]
  have hcast := congrArg (Nat.cast : ℕ → ℤ) hsum
  push_cast at hcast
  linarith

theorem linear_sbb : Linear (-1) sbb := by
  intro w x y cin
  have hx := x.isLt
  have hy := y.isLt
  have hc := toNat_le_one cin
  have hsum : (sbb w x y cin).1.toNat + (y.toNat + cin.toNat) =
      x.toNat + 2 ^ w * (sbb w x y cin).2.toNat := by
    show (BitVec.ofNat w (2 ^ w + x.toNat - (y.toNat + cin.toNat))).toNat +
      (y.toNat + cin.toNat) = x.toNat + 2 ^ w * (decide (x.toNat < y.toNat + cin.toNat)).toNat
    rw [BitVec.toNat_ofNat]
    rcases Nat.lt_or_ge x.toNat (y.toNat + cin.toNat) with hlt | hge
    · rw [decide_eq_true hlt, Nat.mod_eq_of_lt (by omega), Bool.toNat_true, Nat.mul_one]
      omega
    · rw [decide_eq_false (Nat.not_lt_of_ge hge), Nat.add_sub_assoc hge, Nat.add_mod_left,
        Nat.mod_eq_of_lt (by omega), Nat.sub_add_cancel hge]
      rfl
  have hcast := congrArg (Nat.cast : ℕ → ℤ) hsum
  push_cast at hcast
  linarith

/-- The loop stores the sum or difference, and changes nothing else. -/
theorem chain_spec {σ : ℤ} {op : Instruction} (hop : Linear σ op) (src1 src2 : Source)
    (n i : ℕ) (dst : Dwords) (cin : Bool) :
    ((segment (chain op src1 src2 n i dst cin).1 i n : ℤ) =
      segment (src1.data dst) i n + σ * (segment (src2.data dst) i n + cin.toNat -
        2 ^ (32 * n) * (chain op src1 src2 n i dst cin).2.toNat)) ∧
    ∀ j, j < i ∨ i + n ≤ j → (chain op src1 src2 n i dst cin).1 j = dst j := by
  induction n using Nat.twoStepInduction generalizing i dst cin with
  | zero =>
      refine ⟨?_, fun j hj => rfl⟩
      show (0 : ℤ) = 0 + σ * (0 + cin.toNat - 2 ^ (32 * 0) * cin.toNat)
      ring
  | one =>
      refine ⟨?_, ?_⟩
      · show (segment (put dst i _) i 1 : ℤ) = _
        rw [segment_one, put_self, hop, segment_one, segment_one]
        rfl
      · intro j hj
        exact put_of_ne (by omega)
  | more n ih _ =>
      have hq := hop 64 (qword (src1.data dst) i) (qword (src2.data dst) i) cin
      rw [qword_toNat, qword_toNat] at hq
      generalize hres : op 64 (qword (src1.data dst) i) (qword (src2.data dst) i) cin = res at hq
      have hchain : chain op src1 src2 (n + 2) i dst cin =
          chain op src1 src2 n (i + 2) (putQword dst i res.1) res.2 := by
        rw [← hres]
        rfl
      obtain ⟨hvalue, hframe⟩ := ih (i + 2) (putQword dst i res.1) res.2
      rw [← hchain] at hvalue hframe
      -- What is read from here on was not stored to.
      have hsrc (src : Source) : segment (src.data (putQword dst i res.1)) (i + 2) n =
          segment (src.data dst) (i + 2) n :=
        segment_congr fun k _ => src.data_congr (putQword_of_ne (by omega) (by omega))
      have hlow : segment (chain op src1 src2 (n + 2) i dst cin).1 i 2 = res.1.toNat := by
        rw [← segment_putQword dst i res.1]
        exact segment_congr fun k hk => hframe _ (.inl (by omega))
      refine ⟨?_, fun j hj => ?_⟩
      · rw [hsrc, hsrc] at hvalue
        have hsplit (x : Dwords) :
            (segment x i (n + 2) : ℤ) = segment x i 2 + 2 ^ 64 * segment x (i + 2) n := by
          rw [Nat.add_comm n 2, segment_add]
          push_cast
          rfl
        have hpow : (2 : ℤ) ^ (32 * (n + 2)) = 2 ^ 64 * 2 ^ (32 * n) := by
          rw [← pow_add]
          exact congrArg _ (by omega)
        rw [hsplit, hsplit, hsplit, hlow, hpow]
        linear_combination hq + 2 ^ 64 * hvalue
      · rw [hframe j (by omega)]
        exact putQword_of_ne (by omega) (by omega)

/-- Unless the destination is the second source alone, the sources keep their order. -/
theorem addSub_eq_chain (op : Instruction) (dst : Dwords) (size : ℕ) (cin : Bool)
    (h : src1 = .destination ∨ ∃ data, src2 = .array data) :
    addSub op dst src1 src2 size cin = chain op src1 src2 size 0 dst cin := by
  cases src1 with
  | destination => rfl
  | array data1 =>
      obtain ⟨data2, rfl⟩ := h.resolve_left fun h => nomatch h
      rfl

/-- The destination of an addition or subtraction, and nothing behind it, is stored. -/
theorem addSub_spec {σ : ℤ} {op : Instruction} (hop : Linear σ op) (dst : Dwords) (n : ℕ)
    (cin : Bool) (h : src1 = .destination ∨ ∃ data, src2 = .array data) :
    ((segment (addSub op dst src1 src2 n cin).1 0 n : ℤ) =
      segment (src1.data dst) 0 n + σ * (segment (src2.data dst) 0 n + cin.toNat -
        2 ^ (32 * n) * (addSub op dst src1 src2 n cin).2.toNat)) ∧
    ∀ j, n ≤ j → (addSub op dst src1 src2 n cin).1 j = dst j := by
  rw [addSub_eq_chain op dst n cin h]
  obtain ⟨hvalue, hframe⟩ := chain_spec hop src1 src2 n 0 dst cin
  exact ⟨hvalue, fun j hj => hframe j (.inr (by omega))⟩

/-- The sum and the carry out. -/
theorem bigIntAdd_value (dst : Dwords) (n : ℕ) (cin : Bool)
    (h : src1 = .destination ∨ ∃ data, src2 = .array data) :
    segment (bigIntAdd dst src1 src2 n cin).1 0 n +
        2 ^ (32 * n) * (bigIntAdd dst src1 src2 n cin).2.toNat =
      segment (src1.data dst) 0 n + segment (src2.data dst) 0 n + cin.toNat := by
  have hvalue := (addSub_spec linear_adc dst n cin h).1
  zify
  unfold bigIntAdd
  linear_combination hvalue

/-- The difference, with the borrow. -/
theorem bigIntSub_value (dst : Dwords) (n : ℕ) (cin : Bool)
    (h : src1 = .destination ∨ ∃ data, src2 = .array data) :
    segment (bigIntSub dst src1 src2 n cin).1 0 n + segment (src2.data dst) 0 n + cin.toNat =
      segment (src1.data dst) 0 n +
        2 ^ (32 * n) * (bigIntSub dst src1 src2 n cin).2.toNat := by
  have hvalue := (addSub_spec linear_sbb dst n cin h).1
  zify
  unfold bigIntSub
  linear_combination hvalue

/-! ## Multiplication -/

/-- A dword added to what is left of a product. -/
theorem toNat_addDword {res : BitVec 64} (hres : res.toNat ≤ 2 ^ 64 - 2 ^ 32) (d : BitVec 32) :
    (res + d.setWidth 64).toNat = res.toNat + d.toNat := by
  have hd := d.isLt
  rw [BitVec.toNat_add, BitVec.toNat_setWidth, Nat.mod_eq_of_lt (a := d.toNat) (by omega)]
  exact Nat.mod_eq_of_lt (by omega)

theorem toNat_product (x y : BitVec 32) :
    (x.setWidth 64 * y.setWidth 64).toNat = x.toNat * y.toNat ∧
      x.toNat * y.toNat ≤ 2 ^ 64 - 2 ^ 32 := by
  have hx := x.isLt
  have hy := y.isLt
  have hle : x.toNat * y.toNat ≤ (2 ^ 32 - 1) * (2 ^ 32 - 1) :=
    Nat.mul_le_mul (Nat.le_sub_one_of_lt hx) (Nat.le_sub_one_of_lt hy)
  refine ⟨?_, by omega⟩
  rw [BitVec.toNat_mul, BitVec.toNat_setWidth, BitVec.toNat_setWidth,
    Nat.mod_eq_of_lt (a := x.toNat) (by omega), Nat.mod_eq_of_lt (a := y.toNat) (by omega)]
  exact Nat.mod_eq_of_lt (by omega)

/-- The product is added, but for what the limit leaves over. -/
theorem addProduct_spec (n l : ℕ) (dst : Dwords) {res : BitVec 64}
    (hres : res.toNat ≤ 2 ^ 64 - 2 ^ 32) :
    segment (addProduct n l dst res).1 l n + 2 ^ (32 * n) * (addProduct n l dst res).2.toNat =
      segment dst l n + res.toNat ∧
    ∀ j, j < l ∨ l + n ≤ j → (addProduct n l dst res).1 j = dst j := by
  induction n generalizing l dst res with
  | zero =>
      refine ⟨?_, fun j hj => rfl⟩
      show 0 + 2 ^ (32 * 0) * res.toNat = 0 + res.toNat
      rw [Nat.mul_zero, Nat.pow_zero, Nat.one_mul]
  | succ n ih =>
      by_cases hzero : res = 0
      · have hdone : addProduct (n + 1) l dst res = (dst, res) := if_pos hzero
        rw [hdone, hzero]
        exact ⟨rfl, fun j hj => rfl⟩
      · have hstep : addProduct (n + 1) l dst res = addProduct n (l + 1)
            (put dst l ((res + (dst l).setWidth 64).setWidth 32))
            ((res + (dst l).setWidth 64) >>> 32) := if_neg hzero
        have hsum := toNat_addDword hres (dst l)
        have hhalves := toNat_halves (res + (dst l).setWidth 64)
        generalize hnext : res + (dst l).setWidth 64 = next at *
        have hhigh : (next >>> 32).toNat < 2 ^ 32 := by
          have hlt := next.isLt
          rw [BitVec.toNat_ushiftRight, Nat.shiftRight_eq_div_pow]
          omega
        obtain ⟨hvalue, hframe⟩ := @ih (l + 1) (put dst l (next.setWidth 32)) (next >>> 32)
          (by omega)
        rw [← hstep] at hvalue hframe
        have hlow : (addProduct (n + 1) l dst res).1 l = next.setWidth 32 := by
          rw [hframe l (.inl (Nat.lt_succ_self l)), put_self]
        refine ⟨?_, fun j hj => ?_⟩
        · rw [segment_put_outside (.inl (Nat.lt_succ_self l))] at hvalue
          have hsame : ((next >>> 32).setWidth 32).toNat = (next >>> 32).toNat := by
            rw [BitVec.toNat_setWidth, Nat.mod_eq_of_lt hhigh]
          rw [hsame, hsum] at hhalves
          rw [segment_cons, segment_cons, hlow, Nat.mul_succ, Nat.pow_add]
          linear_combination hhalves + 2 ^ 32 * hvalue
        · rw [hframe j (by omega)]
          exact put_of_ne (by omega)

/-- Added from a limb on, the product counts as often as that limb does. -/
theorem addProduct_modEq {l limit : ℕ} (hl : l ≤ limit) (dst : Dwords) {res : BitVec 64}
    (hres : res.toNat ≤ 2 ^ 64 - 2 ^ 32) :
    segment (addProduct (limit - l) l dst res).1 0 limit ≡
      segment dst 0 limit + 2 ^ (32 * l) * res.toNat [MOD 2 ^ (32 * limit)] := by
  obtain ⟨n, rfl⟩ := Nat.exists_eq_add_of_le hl
  rw [Nat.add_sub_cancel_left]
  obtain ⟨hvalue, hframe⟩ := addProduct_spec n l dst hres
  have hlow : segment (addProduct n l dst res).1 0 l = segment dst 0 l :=
    segment_congr fun i hi => hframe _ (.inl (by omega))
  have hsum : segment (addProduct n l dst res).1 0 (l + n) +
      2 ^ (32 * (l + n)) * (addProduct n l dst res).2.toNat =
        segment dst 0 (l + n) + 2 ^ (32 * l) * res.toNat := by
    rw [segment_add, segment_add, hlow, Nat.zero_add, pow_add_limbs]
    linear_combination 2 ^ (32 * l) * hvalue
  rw [← hsum]
  exact (Nat.add_mul_mod_self_left _ _ _).symm

theorem addRow_spec (x : BitVec 32) (src2 : Dwords) (i limit n j : ℕ) (dst : Dwords)
    (overflow : Bool) :
    segment (addRow x src2 i limit n j dst overflow).1 0 limit ≡
      segment dst 0 limit + 2 ^ (32 * (i + j)) * (x.toNat * segment src2 j n)
        [MOD 2 ^ (32 * limit)] := by
  induction n generalizing j dst overflow with
  | zero =>
      rw [segment_zero, Nat.mul_zero, Nat.mul_zero]
      rfl
  | succ n ih =>
      rcases Nat.lt_or_ge (i + j) limit with hlt | hge
      · obtain ⟨hproduct, hsmall⟩ := toNat_product x (src2 j)
        have hadd := addProduct_modEq (Nat.le_of_lt hlt) dst (hproduct ▸ hsmall)
        rw [hproduct] at hadd
        unfold addRow
        rw [if_pos hlt]
        refine (ih (j + 1) _ _).trans ?_
        refine (hadd.add_right _).trans ?_
        have hpow : 2 ^ (32 * (i + (j + 1))) = 2 ^ (32 * (i + j)) * 2 ^ 32 := by
          rw [← Nat.pow_add]
          exact congrArg _ (by omega)
        rw [segment_cons, hpow]
        exact congrArg (· % 2 ^ (32 * limit)) (by ring)
      · -- What the loop leaves out lies beyond the limit.
        unfold addRow
        rw [if_neg (Nat.not_lt.mpr hge)]
        obtain ⟨k, hk⟩ := Nat.exists_eq_add_of_le hge
        rw [hk, pow_add_limbs, Nat.mul_assoc]
        exact (Nat.add_mul_mod_self_left _ _ _).symm

theorem addRows_spec (src1 src2 : Dwords) (size2 limit n i : ℕ) (dst : Dwords) (overflow : Bool) :
    segment (addRows src1 src2 size2 limit n i dst overflow).1 0 limit ≡
      segment dst 0 limit + 2 ^ (32 * i) * (segment src1 i n * segment src2 0 size2)
        [MOD 2 ^ (32 * limit)] := by
  induction n generalizing i dst overflow with
  | zero =>
      rw [segment_zero, Nat.zero_mul, Nat.mul_zero]
      rfl
  | succ n ih =>
      have hpow : 2 ^ (32 * (i + 1)) = 2 ^ (32 * i) * 2 ^ 32 := Nat.pow_add 2 (32 * i) 32
      unfold addRows
      rw [segment_cons]
      split
      next hne =>
        refine (ih (i + 1) _ _).trans ?_
        refine ((addRow_spec _ _ _ _ _ _ _ _).add_right _).trans ?_
        rw [hpow, Nat.add_zero]
        exact congrArg (· % 2 ^ (32 * limit)) (by ring)
      next hzero =>
        refine (ih (i + 1) _ _).trans ?_
        have hdword : (src1 i).toNat = 0 := by
          rw [not_not.mp hzero]
          rfl
        rw [hdword, hpow]
        exact congrArg (· % 2 ^ (32 * limit)) (by ring)

theorem start_modEq (dst : Dwords) (limit : ℕ) (cin : Bool) :
    segment (put (clear dst 0 limit) 0 (if cin then 1 else 0)) 0 limit ≡ cin.toNat
      [MOD 2 ^ (32 * limit)] := by
  cases limit with
  | zero => exact (Nat.mod_one _).trans (Nat.mod_one _).symm
  | succ n =>
      have hrest : segment (clear dst 0 (n + 1)) 1 n = 0 :=
        segment_eq_zero fun i hi => (clear_apply _ _ _ _).trans (if_pos (by omega))
      rw [segment_cons, put_self, segment_put_outside (.inl Nat.one_pos), hrest, Nat.mul_zero,
        Nat.add_zero]
      cases cin <;> rfl

/-- The product and the carry in, modulo what the destination holds. -/
theorem bigIntMul_value (dst : Dwords) (src1 src2 : Source) (size1 size2 maxSize : ℕ) (cin : Bool) :
    segment (bigIntMul dst src1 size1 src2 size2 maxSize cin).1 0
        (bigIntMul dst src1 size1 src2 size2 maxSize cin).2.1 =
      (segment (src1.data dst) 0 size1 * segment (src2.data dst) 0 size2 + cin.toNat) %
        2 ^ (32 * (bigIntMul dst src1 size1 src2 size2 maxSize cin).2.1) := by
  refine (Nat.mod_eq_of_lt (segment_lt _ _ _)).symm.trans ?_
  have hsize : (bigIntMul dst src1 size1 src2 size2 maxSize cin).2.1 =
      min ((size1 + size2) % 2 ^ 32) maxSize := rfl
  rw [hsize]
  generalize hlimit : min ((size1 + size2) % 2 ^ 32) maxSize = limit
  have hstart := start_modEq dst limit cin
  unfold bigIntMul
  dsimp only
  rw [hlimit]
  split
  next =>
    refine (addRows_spec _ _ _ _ _ _ _ _).trans ?_
    refine (hstart.add_right _).trans (congrArg (· % 2 ^ (32 * limit)) ?_)
    ring
  next =>
    refine (addRows_spec _ _ _ _ _ _ _ _).trans ?_
    refine (hstart.add_right _).trans (congrArg (· % 2 ^ (32 * limit)) ?_)
    ring

/-! ## Logic -/

theorem bitwise2_apply (op : BitVec 32 → BitVec 32 → BitVec 32) (dst : Dwords) (sizeD : ℕ)
    (src : Source) (sizeS j : ℕ) :
    bitwise2 op dst sizeD src sizeS j =
      if j < min sizeS sizeD then op (dst j) (src.data dst j) else dst j := by
  have hsize : (if sizeS > sizeD then sizeD else sizeS) = min sizeS sizeD := by
    split <;> omega
  unfold bitwise2
  rw [hsize, forward_apply]
  · exact if_congr (by omega) rfl rfl
  · intro i d d' h
    rw [h i (Nat.le_refl i), src.data_congr (h i (Nat.le_refl i))]

/-- Sources apart from the destination, none of them larger. -/
theorem bitwise_apply (op : BitVec 32 → BitVec 32 → BitVec 32) (dst data1 data2 : Dwords)
    {sizeD size1 size2 : ℕ} (h1 : size1 ≤ sizeD) (h2 : size2 ≤ sizeD) (hj : j < sizeD) :
    bitwise op dst sizeD (.array data1) size1 (.array data2) size2 j =
      if j < min size1 size2 then op (data1 j) (data2 j)
      else if j < size1 then data1 j
      else if j < size2 then data2 j
      else 0 := by
  unfold bitwise
  dsimp only
  rw [if_neg (Nat.not_lt.mpr h1), if_neg (Nat.not_lt.mpr h2)]
  have happly (f : ℕ → BitVec 32) (n i : ℕ) (d : Dwords) (j : ℕ) :
      forward (fun i _ => f i) n i d j = if i ≤ j ∧ j < i + n then f j else d j :=
    forward_apply (fun _ _ _ _ => rfl) n i d j
  by_cases h1' : size1 > min size1 size2
  · rw [if_pos h1']
    dsimp only
    split
    next =>
      rw [clear_apply, happly, happly]
      split_ifs <;> first | rfl | omega
    next =>
      rw [happly, happly]
      split_ifs <;> first | rfl | omega
  · rw [if_neg h1']
    by_cases h2' : size2 > min size1 size2
    · rw [if_pos h2']
      dsimp only
      split
      next =>
        rw [clear_apply, happly, happly]
        split_ifs <;> first | rfl | omega
      next =>
        rw [happly, happly]
        split_ifs <;> first | rfl | omega
    · rw [if_neg h2']
      dsimp only
      split
      next =>
        rw [clear_apply, happly]
        split_ifs <;> first | rfl | omega
      next =>
        rw [happly]
        split_ifs <;> first | rfl | omega

theorem bigIntAnd2_apply (dst : Dwords) (sizeD : ℕ) (src : Source) (sizeS j : ℕ) :
    bigIntAnd2 dst sizeD src sizeS j =
      if j < min sizeS sizeD then dst j &&& src.data dst j
      else if j < sizeD then 0
      else dst j := by
  have hsize : (if sizeS > sizeD then sizeD else sizeS) = min sizeS sizeD := by
    split <;> omega
  have happly (n j : ℕ) : forward (fun i dst => dst i &&& src.data dst i) n 0 dst j =
      if 0 ≤ j ∧ j < 0 + n then dst j &&& src.data dst j else dst j := by
    refine forward_apply (fun i d d' h => ?_) n 0 dst j
    rw [h i (Nat.le_refl i), src.data_congr (h i (Nat.le_refl i))]
  unfold bigIntAnd2
  rw [hsize]
  split
  next =>
    rw [clear_apply, happly]
    split_ifs <;> first | rfl | omega
  next =>
    rw [happly]
    split_ifs <;> first | rfl | omega

theorem bigIntAnd_apply (dst data1 data2 : Dwords) (sizeD size1 size2 j : ℕ) :
    bigIntAnd dst sizeD (.array data1) size1 (.array data2) size2 j =
      if j < min size1 size2 then data1 j &&& data2 j
      else if j < sizeD then 0
      else dst j := by
  have happly (n j : ℕ) : forward (fun i _ => data1 i &&& data2 i) n 0 dst j =
      if 0 ≤ j ∧ j < 0 + n then data1 j &&& data2 j else dst j :=
    forward_apply (fun _ _ _ _ => rfl) n 0 dst j
  unfold bigIntAnd
  dsimp only
  split
  next =>
    rw [clear_apply, happly]
    split_ifs <;> first | rfl | omega
  next =>
    rw [happly]
    split_ifs <;> first | rfl | omega

/-! ## Shifts -/

/-- Numbers that have no bit in common are added by `or`. -/
theorem mul_or_of_lt {a b k : ℕ} (h : b < 2 ^ k) : a * 2 ^ k ||| b = a * 2 ^ k + b := by
  rw [Nat.mul_comm]
  exact (Nat.two_pow_add_eq_or_of_lt h a).symm

theorem moveUp_apply (src : Source) (amntMov n : ℕ) (dst : Dwords) (j : ℕ) :
    moveUp src amntMov n dst j =
      if amntMov ≤ j ∧ j < amntMov + n then src.data dst (j - amntMov) else dst j := by
  induction n generalizing dst with
  | zero => exact (if_neg (by omega)).symm
  | succ n ih =>
      show moveUp src amntMov n (put dst (amntMov + n) (src.data dst n)) j = _
      rw [ih]
      rcases Nat.lt_trichotomy j (amntMov + n) with hlt | rfl | hgt
      · rw [put_of_ne (Nat.ne_of_lt hlt)]
        refine if_ctx_congr (by omega) (fun h => ?_) fun _ => rfl
        exact src.data_congr (put_of_ne (by omega))
      · rw [if_neg (by omega), if_pos (by omega), put_self, Nat.add_sub_cancel_left]
      · rw [if_neg (by omega), if_neg (by omega), put_of_ne (Nat.ne_of_gt hgt)]

/-- The window over a dword and what overflowed from the one below. -/
theorem window_toNat {amnt : ℕ} (hamnt : amnt < 32) (d : BitVec 32) {overflow : BitVec 32}
    (h : overflow.toNat < 2 ^ amnt) :
    (d.setWidth 64 <<< amnt ||| overflow.setWidth 64).toNat =
      d.toNat * 2 ^ amnt + overflow.toNat := by
  have hd := d.isLt
  have hpow : 2 ^ amnt ≤ 2 ^ 32 := Nat.pow_le_pow_right (by decide) (Nat.le_of_lt hamnt)
  have hle : d.toNat * 2 ^ amnt ≤ (2 ^ 32 - 1) * 2 ^ 32 :=
    Nat.mul_le_mul (Nat.le_sub_one_of_lt hd) hpow
  rw [BitVec.toNat_or, BitVec.toNat_shiftLeft, BitVec.toNat_setWidth, BitVec.toNat_setWidth,
    Nat.mod_eq_of_lt (a := d.toNat) (by omega), Nat.mod_eq_of_lt (a := overflow.toNat) (by omega),
    Nat.shiftLeft_eq, Nat.mod_eq_of_lt (by omega), mul_or_of_lt h]

/-- The dwords of the source are multiplied, and what does not fit is left over. -/
theorem shiftUp_spec {amnt : ℕ} (hamnt : amnt < 32) (src : Source) (n i : ℕ) (dst : Dwords)
    {overflow : BitVec 32} (h : overflow.toNat < 2 ^ amnt) :
    segment (shiftUp src amnt n i dst overflow).1 i n +
        2 ^ (32 * n) * (shiftUp src amnt n i dst overflow).2.toNat =
      segment (src.data dst) i n * 2 ^ amnt + overflow.toNat ∧
    ∀ j, j < i ∨ i + n ≤ j → (shiftUp src amnt n i dst overflow).1 j = dst j := by
  induction n generalizing i dst overflow with
  | zero =>
      refine ⟨?_, fun j hj => rfl⟩
      show 0 + 2 ^ (32 * 0) * overflow.toNat = 0 * 2 ^ amnt + overflow.toNat
      rw [Nat.mul_zero, Nat.pow_zero, Nat.one_mul, Nat.zero_mul]
  | succ n ih =>
      have hwindow := window_toNat hamnt (src.data dst i) h
      have hhalves := toNat_halves ((src.data dst i).setWidth 64 <<< amnt ||| overflow.setWidth 64)
      have hstep : shiftUp src amnt (n + 1) i dst overflow = shiftUp src amnt n (i + 1)
          (put dst i (((src.data dst i).setWidth 64 <<< amnt |||
            overflow.setWidth 64).setWidth 32))
          ((((src.data dst i).setWidth 64 <<< amnt ||| overflow.setWidth 64) >>> 32).setWidth
            32) := rfl
      generalize (src.data dst i).setWidth 64 <<< amnt ||| overflow.setWidth 64 = window at *
      have hhigh : ((window >>> 32).setWidth 32).toNat < 2 ^ amnt := by
        have hd := (src.data dst i).isLt
        have hle : (src.data dst i).toNat * 2 ^ amnt + 2 ^ amnt ≤ 2 ^ 32 * 2 ^ amnt := by
          rw [← Nat.succ_mul]
          exact Nat.mul_le_mul_right _ hd
        refine Nat.lt_of_mul_lt_mul_left (a := 2 ^ 32) ?_
        omega
      obtain ⟨hvalue, hframe⟩ := ih (i + 1) (put dst i (window.setWidth 32)) hhigh
      rw [← hstep] at hvalue hframe
      have hlow : (shiftUp src amnt (n + 1) i dst overflow).1 i = window.setWidth 32 := by
        rw [hframe i (.inl (Nat.lt_succ_self i)), put_self]
      have hsrc : segment (src.data (put dst i (window.setWidth 32))) (i + 1) n =
          segment (src.data dst) (i + 1) n :=
        segment_congr fun k _ => src.data_congr (put_of_ne (by omega))
      refine ⟨?_, fun j hj => ?_⟩
      · rw [hsrc] at hvalue
        rw [hwindow] at hhalves
        rw [segment_cons, segment_cons, hlow, Nat.mul_succ, Nat.pow_add]
        linear_combination hhalves + 2 ^ 32 * hvalue
      · rw [hframe j (by omega)]
        exact put_of_ne (by omega)

/-- What is shifted, from the dwords that are moved on: a source apart from the destination is read
where the moved dwords would be. -/
def shifted (src : Source) (dst : Dwords) (amntMov n : ℕ) : ℕ :=
  match src with
  | .destination => segment dst 0 n
  | .array data => segment data amntMov n

theorem segment_moved (src : Source) (dst : Dwords) (amntMov n : ℕ) :
    segment (src.data (moveUp src amntMov n dst)) amntMov n = shifted src dst amntMov n := by
  cases src with
  | destination =>
      refine segment_congr fun i hi => ?_
      show moveUp .destination amntMov n dst (amntMov + i) = dst (0 + i)
      rw [moveUp_apply, if_pos (by omega), Nat.add_sub_cancel_left, Nat.zero_add]
      rfl
  | array data => rfl

theorem shiftInto_value (dst : Dwords) (src : Source) {sizeD amntMov amnt : ℕ}
    (hmov : amntMov ≤ sizeD) (hamnt : amnt < 32) :
    segment (shiftInto dst src sizeD amntMov amnt).1 0 sizeD +
        2 ^ (32 * sizeD) * (shiftInto dst src sizeD amntMov amnt).2.toNat =
      2 ^ (32 * amntMov) * (shifted src dst amntMov (sizeD - amntMov) * 2 ^ amnt) := by
  obtain ⟨n, rfl⟩ := Nat.exists_eq_add_of_le hmov
  rw [Nat.add_sub_cancel_left]
  have hzero : (0 : BitVec 32).toNat < 2 ^ amnt := Nat.two_pow_pos amnt
  by_cases hne : amntMov = 0
  · subst hne
    have hvalue := (shiftUp_spec hamnt src n 0 dst hzero).1
    have hsrc : shifted src dst 0 n = segment (src.data dst) 0 n := by cases src <;> rfl
    unfold shiftInto
    rw [if_neg (not_not_intro rfl), Nat.zero_add, hvalue, hsrc, Nat.mul_zero, Nat.pow_zero,
      Nat.one_mul]
    rfl
  · obtain ⟨hvalue, hframe⟩ := shiftUp_spec hamnt src n amntMov (moveUp src amntMov n dst) hzero
    rw [segment_moved] at hvalue
    unfold shiftInto
    rw [if_pos hne, Nat.add_sub_cancel_left]
    generalize shiftUp src amnt n amntMov (moveUp src amntMov n dst) 0 = res at *
    have hlow : segment (clear res.1 0 amntMov) 0 amntMov = 0 :=
      segment_eq_zero fun i hi => (clear_apply _ _ _ _).trans (if_pos (by omega))
    have hhigh : segment (clear res.1 0 amntMov) amntMov n = segment res.1 amntMov n :=
      segment_congr fun i hi => (clear_apply _ _ _ _).trans (if_neg (by omega))
    dsimp only
    rw [segment_add, Nat.zero_add, hlow, hhigh, pow_add_limbs]
    have hvalue' : segment res.1 amntMov n + 2 ^ (32 * n) * res.2.toNat =
        shifted src dst amntMov n * 2 ^ amnt := hvalue
    linear_combination 2 ^ (32 * amntMov) * hvalue'

theorem two_pow_amnt (amnt : ℕ) : 2 ^ amnt = 2 ^ (32 * (amnt / 32)) * 2 ^ (amnt % 32) := by
  rw [← Nat.pow_add, Nat.div_add_mod]

/-- A left shift multiplies what is shifted, modulo what fits. -/
theorem bigIntShL_value (dst : Dwords) (src : Source) (sizeS sizeM amnt : ℕ) :
    segment (bigIntShL dst src sizeS sizeM amnt).1 0 (bigIntShL dst src sizeS sizeM amnt).2.1 =
      shifted src dst (amnt / 32) (min sizeM (sizeS + amnt / 32) - amnt / 32) * 2 ^ amnt %
        2 ^ (32 * sizeM) ∧
    (bigIntShL dst src sizeS sizeM amnt).2.1 ≤ sizeM := by
  rcases Nat.lt_or_ge (amnt / 32) sizeM with hlt | hge
  · have hmov : amnt / 32 ≤ min sizeM (sizeS + amnt / 32) := by omega
    have hvalue := shiftInto_value dst src hmov (Nat.mod_lt amnt (by decide : 0 < 32))
    rw [Nat.mul_left_comm, ← two_pow_amnt] at hvalue
    have hsize : min sizeM (sizeS + amnt / 32) ≤ sizeM := Nat.min_le_left _ _
    unfold bigIntShL
    rw [if_neg (Nat.not_le.mpr hlt)]
    dsimp only
    generalize min sizeM (sizeS + amnt / 32) = sizeD at *
    generalize shiftInto dst src sizeD (amnt / 32) (amnt % 32) = res at *
    rw [← hvalue]
    split
    next hne =>
      split
      next hroom =>
        refine ⟨?_, hroom⟩
        show segment (put res.1 sizeD res.2) 0 (sizeD + 1) = _
        have hfits := segment_lt_of_le (put res.1 sizeD res.2) 0 hroom
        rw [segment_succ, Nat.zero_add, put_self, segment_put_outside (.inr (by omega))] at hfits ⊢
        exact (Nat.mod_eq_of_lt hfits).symm
      next hfull =>
        refine ⟨?_, hsize⟩
        obtain rfl : sizeD = sizeM := by omega
        rw [Nat.add_mul_mod_self_left]
        exact (Nat.mod_eq_of_lt (segment_lt _ _ _)).symm
    next hzero =>
      refine ⟨?_, hsize⟩
      have hnone : res.2.toNat = 0 := by
        rw [not_not.mp hzero]
        rfl
      rw [hnone, Nat.mul_zero, Nat.add_zero]
      exact (Nat.mod_eq_of_lt (segment_lt_of_le _ _ hsize)).symm
  · unfold bigIntShL
    rw [if_pos hge]
    refine ⟨?_, Nat.le_refl _⟩
    obtain ⟨k, hk⟩ := Nat.exists_eq_add_of_le hge
    have hall : segment (clear dst 0 sizeM) 0 sizeM = 0 :=
      segment_eq_zero fun i hi => (clear_apply _ _ _ _).trans (if_pos (by omega))
    rw [two_pow_amnt amnt, hk, pow_add_limbs, Nat.mul_assoc, Nat.mul_left_comm,
      Nat.mul_mod_right]
    exact hall

/-- The window over a dword that is shifted down: its halves are the quotient and the remainder. -/
theorem windowDown {s : ℕ} (hs : s < 32) (d : BitVec 32) :
    (((d.setWidth 64 <<< (32 - s)) >>> 32).setWidth 32 : BitVec 32).toNat = d.toNat / 2 ^ s ∧
      ((d.setWidth 64 <<< (32 - s)).setWidth 32 : BitVec 32).toNat =
        d.toNat % 2 ^ s * 2 ^ (32 - s) := by
  have hd := d.isLt
  have hpow : 2 ^ s * 2 ^ (32 - s) = 2 ^ 32 := by
    rw [← Nat.pow_add, Nat.add_sub_cancel' (Nat.le_of_lt hs)]
  have hwindow : (d.setWidth 64 <<< (32 - s)).toNat = d.toNat * 2 ^ (32 - s) := by
    have hle : d.toNat * 2 ^ (32 - s) ≤ (2 ^ 32 - 1) * 2 ^ 32 :=
      Nat.mul_le_mul (Nat.le_sub_one_of_lt hd)
        (Nat.pow_le_pow_right (by decide) (Nat.sub_le 32 s))
    rw [BitVec.toNat_shiftLeft, BitVec.toNat_setWidth, Nat.mod_eq_of_lt (a := d.toNat) (by omega),
      Nat.shiftLeft_eq]
    exact Nat.mod_eq_of_lt (by omega)
  refine ⟨?_, ?_⟩
  · have hquot : d.toNat / 2 ^ s < 2 ^ 32 := Nat.lt_of_le_of_lt (Nat.div_le_self _ _) hd
    rw [BitVec.toNat_setWidth, BitVec.toNat_ushiftRight, Nat.shiftRight_eq_div_pow, hwindow,
      ← hpow, Nat.mul_div_mul_right _ _ (Nat.two_pow_pos _), hpow, Nat.mod_eq_of_lt hquot]
  · rw [BitVec.toNat_setWidth, hwindow, ← hpow, Nat.mul_mod_mul_right]

/-- What underflowed from the dword above stands above the quotient. -/
theorem or_underflow {s : ℕ} (hs : s < 32) (d : BitVec 32) {underflow : BitVec 32}
    (hdvd : 2 ^ (32 - s) ∣ underflow.toNat) :
    (((d.setWidth 64 <<< (32 - s)) >>> 32).setWidth 32 ||| underflow : BitVec 32).toNat =
      d.toNat / 2 ^ s + underflow.toNat := by
  have hpow : 2 ^ (32 - s) * 2 ^ s = 2 ^ 32 := by
    rw [← Nat.pow_add, Nat.sub_add_cancel (Nat.le_of_lt hs)]
  have hlt : d.toNat / 2 ^ s < 2 ^ (32 - s) := by
    rw [Nat.div_lt_iff_lt_mul (Nat.two_pow_pos s), hpow]
    exact d.isLt
  obtain ⟨k, hk⟩ := hdvd
  rw [BitVec.toNat_or, (windowDown hs d).1, hk, Nat.or_comm, Nat.mul_comm, mul_or_of_lt hlt,
    Nat.add_comm]

/-- The dwords of the source are divided, and the remainder is left over. -/
theorem shiftDown_spec {s : ℕ} (hs : s < 32) (src : Dwords) (amntMov n : ℕ) (dst : Dwords)
    {underflow : BitVec 32} (hdvd : 2 ^ (32 - s) ∣ underflow.toNat) :
    2 ^ 32 * segment (shiftDown src amntMov (32 - s) n dst underflow).1 0 n +
        (shiftDown src amntMov (32 - s) n dst underflow).2.toNat =
      2 ^ (32 - s) * segment src amntMov n + 2 ^ (32 * n) * underflow.toNat ∧
    ∀ j, n ≤ j → (shiftDown src amntMov (32 - s) n dst underflow).1 j = dst j := by
  induction n generalizing dst underflow with
  | zero =>
      refine ⟨?_, fun j hj => rfl⟩
      show 2 ^ 32 * 0 + underflow.toNat = 2 ^ (32 - s) * 0 + 2 ^ (32 * 0) * underflow.toNat
      rw [Nat.mul_zero, Nat.mul_zero, Nat.mul_zero, Nat.pow_zero, Nat.one_mul]
  | succ n ih =>
      obtain ⟨-, hlow⟩ := windowDown hs (src (n + amntMov))
      have hhigh := or_underflow hs (src (n + amntMov)) hdvd
      have hstep : shiftDown src amntMov (32 - s) (n + 1) dst underflow =
          shiftDown src amntMov (32 - s) n
            (put dst n ((((src (n + amntMov)).setWidth 64 <<< (32 - s)) >>> 32).setWidth 32 |||
              underflow))
            (((src (n + amntMov)).setWidth 64 <<< (32 - s)).setWidth 32) := rfl
      generalize (((src (n + amntMov)).setWidth 64 <<< (32 - s)) >>> 32).setWidth 32 |||
        underflow = stored at *
      generalize ((src (n + amntMov)).setWidth 64 <<< (32 - s)).setWidth 32 = next at *
      obtain ⟨hvalue, hframe⟩ := @ih (put dst n stored) next
        (hlow ▸ Nat.dvd_mul_left _ _)
      rw [← hstep] at hvalue hframe
      refine ⟨?_, fun j hj => ?_⟩
      · have htop : (shiftDown src amntMov (32 - s) (n + 1) dst underflow).1 n = stored := by
          rw [hframe n (Nat.le_refl n), put_self]
        have hdivmod := Nat.div_add_mod (src (n + amntMov)).toNat (2 ^ s)
        have hpow : 2 ^ s * 2 ^ (32 - s) = 2 ^ 32 := by
          rw [← Nat.pow_add, Nat.add_sub_cancel' (Nat.le_of_lt hs)]
        rw [segment_succ, segment_succ, Nat.zero_add, htop, hhigh, Nat.add_comm amntMov n,
          Nat.mul_succ, Nat.pow_add]
        rw [hlow] at hvalue
        linear_combination hvalue - 2 ^ (32 * n) * ((src (n + amntMov)).toNat / 2 ^ s) * hpow +
          2 ^ (32 * n) * 2 ^ (32 - s) * hdivmod
      · rw [hframe j (Nat.le_of_lt hj)]
        exact put_of_ne (Nat.ne_of_gt hj)

theorem trim_none (h : trim dst n = none) : segment dst 0 n = 0 := by
  induction n with
  | zero => rfl
  | succ n ih =>
      unfold trim at h
      split at h
      next hzero =>
        rw [segment_succ, ih h, Nat.zero_add, Nat.zero_add, hzero]
        exact Nat.mul_zero _
      next => exact nomatch h

theorem trim_some {m : ℕ} (h : trim dst n = some m) :
    segment dst 0 m = segment dst 0 n ∧ m ≤ n ∧ segment dst 0 n ≠ 0 := by
  induction n with
  | zero => exact nomatch h
  | succ n ih =>
      unfold trim at h
      split at h
      next hzero =>
        obtain ⟨hvalue, hle, hne⟩ := ih h
        have hsame : segment dst 0 (n + 1) = segment dst 0 n := by
          rw [segment_succ, Nat.zero_add, hzero]
          exact Nat.add_zero _
        rw [hsame]
        exact ⟨hvalue, Nat.le_succ_of_le hle, hne⟩
      next hne =>
        obtain rfl := Option.some.inj h
        refine ⟨rfl, Nat.le_refl _, ?_⟩
        rw [segment_succ, Nat.zero_add]
        have hpos : 0 < (dst n).toNat :=
          Nat.pos_of_ne_zero fun h => hne (BitVec.eq_of_toNat_eq h)
        have hmul := Nat.mul_pos (Nat.two_pow_pos (32 * n)) hpos
        omega

/-- A right shift by less than the size of the source. -/
theorem bigIntShR_run (dst : Dwords) (src : Source) {amnt n : ℕ} (hsize : amnt / 32 + n < 2 ^ 32)
    (hn : 0 < n) :
    bigIntShR dst (amnt / 32 + n) src (amnt / 32 + n) amnt =
      match trim (shiftDown (src.data dst) (amnt / 32) (32 - amnt % 32) n dst 0).1 n with
      | none => none
      | some sizeD =>
          some ((shiftDown (src.data dst) (amnt / 32) (32 - amnt % 32) n dst 0).1, sizeD,
            decide ((shiftDown (src.data dst) (amnt / 32) (32 - amnt % 32) n dst 0).2 ≠ 0)) := by
  have hcount : ((((min (amnt / 32 + n) (amnt / 32 + n) : ℕ) : ℤ) - (amnt / 32 : ℕ)) %
      2 ^ 32).toNat = n := by omega
  unfold bigIntShR
  rw [if_neg (by omega), if_neg (Nat.lt_irrefl _), hcount]

/-- A right shift divides, but reads outside of the destination when no dword of the quotient is
left. -/
theorem bigIntShR_spec (dst : Dwords) (src : Source) {size : ℕ} (amnt : ℕ) (hsize : size < 2 ^ 32) :
    (∃ dst' size' underflow, bigIntShR dst size src size amnt = some (dst', size', underflow) ∧
      segment dst' 0 size' = segment (src.data dst) 0 size / 2 ^ amnt ∧ size' ≤ size ∧
      (size ≤ amnt / 32 ∨ segment (src.data dst) 0 size / 2 ^ amnt ≠ 0)) ∨
    bigIntShR dst size src size amnt = none ∧ amnt / 32 < size ∧
      segment (src.data dst) 0 size / 2 ^ amnt = 0 := by
  generalize hdata : src.data dst = data
  rcases Nat.lt_or_ge (amnt / 32) size with hlt | hge
  · obtain ⟨n, rfl⟩ := Nat.exists_eq_add_of_le (Nat.le_of_lt hlt)
    have hmod : amnt % 32 < 32 := Nat.mod_lt amnt (by decide)
    obtain ⟨hvalue, -⟩ := @shiftDown_spec _ hmod data (amnt / 32) n dst 0
      (Nat.dvd_zero _)
    have hrun := bigIntShR_run dst src hsize (by omega : 0 < n)
    rw [hdata] at hrun
    have hquot : segment (shiftDown data (amnt / 32) (32 - amnt % 32) n dst 0).1 0 n =
        segment data 0 (amnt / 32 + n) / 2 ^ amnt := by
      have hlow := (shiftDown data (amnt / 32) (32 - amnt % 32) n dst 0).2.isLt
      have hpow : 2 ^ (32 - amnt % 32) * 2 ^ (amnt % 32) = 2 ^ 32 := by
        rw [← Nat.pow_add, Nat.sub_add_cancel (Nat.le_of_lt hmod)]
      have hdiv : segment data (amnt / 32) n / 2 ^ (amnt % 32) =
          2 ^ (32 - amnt % 32) * segment data (amnt / 32) n / 2 ^ 32 := by
        rw [← hpow, Nat.mul_div_mul_left _ _ (Nat.two_pow_pos _)]
      rw [two_pow_amnt amnt, ← Nat.div_div_eq_div_mul, segment_div, Nat.zero_add, hdiv]
      have hzero : (0 : BitVec 32).toNat = 0 := rfl
      rw [hzero, Nat.mul_zero, Nat.add_zero] at hvalue
      omega
    rw [hrun, ← hquot]
    cases htrim : trim (shiftDown data (amnt / 32) (32 - amnt % 32) n dst 0).1 n with
    | none => exact .inr ⟨rfl, hlt, trim_none htrim⟩
    | some m =>
        obtain ⟨hsame, hle, hne⟩ := trim_some htrim
        exact .inl ⟨_, m, _, rfl, hsame, Nat.le_add_left_of_le hle, .inr hne⟩
  · refine .inl ⟨dst, 0, true, ?_, ?_, Nat.zero_le _, .inl hge⟩
    · unfold bigIntShR
      exact if_pos hge
    · have hsmall : segment data 0 size < 2 ^ amnt :=
        Nat.lt_of_lt_of_le (segment_lt_of_le data 0 hge)
          (Nat.pow_le_pow_right (by decide) (Nat.mul_div_le amnt 32))
      rw [segment_zero, Nat.div_eq_of_lt hsmall]

/-- The quotient has no more dwords than the source. -/
theorem bigIntShR_size {size amnt : ℕ} (hsize : size < 2 ^ 32) {res : Dwords × ℕ × Bool}
    (h : bigIntShR dst size src size amnt = some res) : res.2.1 ≤ size := by
  rcases bigIntShR_spec dst src amnt hsize with ⟨dst', m, underflow, hres, -, hle, -⟩ | ⟨hnone, -⟩
  · obtain rfl := Option.some.inj (h.symm.trans hres)
    exact hle
  · exact nomatch h.symm.trans hnone

end Beelzebub.BigInt
