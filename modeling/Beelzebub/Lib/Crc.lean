import Mathlib.Data.List.Basic
import Mathlib.Tactic.Common

/-!
# Cyclic redundancy checks, bit by bit

A register takes the bits of a message, the most significant first.  A polynomial of degree `w` is
the word of its lower coefficients.  What follows holds for every width and, but for the start of
the register, for every polynomial with a constant term.
-/

namespace Crc

/-- The register takes a bit. -/
def step {w : ℕ} (poly c : BitVec w) (bit : Bool) : BitVec w :=
  if c.msb ^^ bit then c <<< 1 ^^^ poly else c <<< 1

/-- The register takes a message. -/
def remainder {w : ℕ} (poly c : BitVec w) (msg : List Bool) : BitVec w := msg.foldl (step poly) c

/-- The bits of a word, the most significant first. -/
def bits {w : ℕ} (b : BitVec w) : List Bool := (List.range w).map b.getMsbD

variable {w : ℕ} {poly c d b : BitVec w} {p q : Bool} {u v : List Bool}

theorem remainder_append (poly c : BitVec w) (u v : List Bool) :
    remainder poly c (u ++ v) = remainder poly (remainder poly c u) v := List.foldl_append

/-- The register and a word that is fed to it bit by bit only matter together. -/
theorem remainder_take (poly c b : BitVec w) {k : ℕ} (hk : k ≤ w) :
    remainder poly c ((List.range k).map b.getMsbD) =
      remainder poly (c ^^^ b) (List.replicate k false) ^^^ b <<< k := by
  induction k with
  | zero => simp [remainder, BitVec.xor_assoc]
  | succ k ih =>
      have hmsb : (b <<< k).msb = b.getMsbD k := BitVec.msb_shiftLeft
      rw [List.range_succ, List.map_append, remainder_append, ih (Nat.le_of_succ_le hk),
        List.replicate_succ', remainder_append]
      generalize remainder poly (c ^^^ b) (List.replicate k false) = t
      show step poly (t ^^^ b <<< k) (b.getMsbD k) = step poly t false ^^^ b <<< (k + 1)
      unfold step
      rw [BitVec.msb_xor, hmsb, Bool.xor_assoc, Bool.xor_self, BitVec.shiftLeft_xor_distrib,
        BitVec.shiftLeft_add]
      split
      · rw [BitVec.xor_assoc, BitVec.xor_comm (b <<< k <<< 1), ← BitVec.xor_assoc]
      · rfl

/-- A word is taken as the register shifts without input after it was added. -/
theorem remainder_bits (poly c b : BitVec w) :
    remainder poly c (bits b) = remainder poly (c ^^^ b) (List.replicate w false) := by
  rw [bits, remainder_take poly c b (Nat.le_refl w), BitVec.shiftLeft_eq_zero (Nat.le_refl w),
    BitVec.xor_zero]

theorem remainder_zero (poly : BitVec w) (k : ℕ) :
    remainder poly 0 (List.replicate k false) = 0 := by
  induction k with
  | zero => rfl
  | succ k ih =>
      have hstep : step poly 0 false = 0 := by simp [step]
      rw [List.replicate_succ, remainder, List.foldl_cons, hstep]
      exact ih

/-- A message with its own remainder behind it leaves nothing. -/
theorem remainder_self (poly c : BitVec w) : remainder poly c (bits c) = 0 := by
  rw [remainder_bits, BitVec.xor_self]
  exact remainder_zero poly w

/-! ## Bursts -/

/-- The lowest bit tells whether the polynomial was added. -/
theorem getLsbD_step_zero (hpoly : poly.getLsbD 0 = true) :
    (step poly c p).getLsbD 0 = (c.msb ^^ p) := by
  unfold step
  cases c.msb ^^ p with
  | false => simp
  | true => simp [hpoly]

/-- The others then come from the bits below them. -/
theorem getLsbD_step_succ {i : ℕ} (hi : i + 1 < w) :
    (step poly c p).getLsbD (i + 1) = (c.getLsbD i ^^ ((c.msb ^^ p) && poly.getLsbD (i + 1))) := by
  unfold step
  cases c.msb ^^ p with
  | false => simp [hi, BitVec.getLsbD_eq_getElem (Nat.lt_of_succ_lt hi)]
  | true => simp [hi, BitVec.getLsbD_eq_getElem (Nat.lt_of_succ_lt hi)]

/-- Equal registers were equal before, but for as many of the upper bits as were taken. -/
theorem remainder_inj_low (hpoly : poly.getLsbD 0 = true) (hlen : u.length = v.length)
    (heq : remainder poly c u = remainder poly d v) :
    ∀ i, i + u.length < w → c.getLsbD i = d.getLsbD i := by
  induction u generalizing v c d with
  | nil =>
      obtain rfl := List.length_eq_zero_iff.mp hlen.symm
      exact fun i _ => congrArg (BitVec.getLsbD · i) heq
  | cons p u ih =>
      cases v with
      | nil => exact nomatch hlen
      | cons q v =>
          intro i hi
          rw [List.length_cons] at hi
          have hlow := ih (Nat.succ.inj hlen) heq
          have hfirst := hlow 0 (by omega)
          have hnext := hlow (i + 1) (by omega)
          rw [getLsbD_step_zero hpoly, getLsbD_step_zero hpoly] at hfirst
          rw [getLsbD_step_succ (by omega), getLsbD_step_succ (by omega), hfirst] at hnext
          exact Bool.xor_left_inj.mp hnext

/-- A register tells apart any two messages that are no longer than itself. -/
theorem remainder_burst (hpoly : poly.getLsbD 0 = true) (hlen : u.length = v.length)
    (hle : u.length ≤ w) (heq : remainder poly c u = remainder poly c v) : u = v := by
  induction u generalizing v c with
  | nil => exact (List.length_eq_zero_iff.mp hlen.symm).symm
  | cons p u ih =>
      cases v with
      | nil => exact nomatch hlen
      | cons q v =>
          have hfirst := remainder_inj_low hpoly (Nat.succ.inj hlen) heq 0
            (by rw [List.length_cons] at hle; omega)
          rw [getLsbD_step_zero hpoly, getLsbD_step_zero hpoly] at hfirst
          obtain rfl : p = q := Bool.xor_right_inj.mp hfirst
          rw [ih (Nat.succ.inj hlen) (Nat.le_of_succ_le hle) heq]

theorem step_inj (hpoly : poly.getLsbD 0 = true) (h : step poly c p = step poly d p) : c = d := by
  have hfirst : (c.msb ^^ p) = (d.msb ^^ p) := by
    rw [← getLsbD_step_zero hpoly, ← getLsbD_step_zero hpoly, h]
  refine BitVec.eq_of_getLsbD_eq fun i hi => ?_
  by_cases hlast : i + 1 < w
  · have hnext := congrArg (BitVec.getLsbD · (i + 1)) h
    rw [getLsbD_step_succ hlast, getLsbD_step_succ hlast, hfirst] at hnext
    exact Bool.xor_left_inj.mp hnext
  · obtain rfl : i = w - 1 := by omega
    rw [← BitVec.msb_eq_getLsbD_last, ← BitVec.msb_eq_getLsbD_last]
    exact Bool.xor_left_inj.mp hfirst

/-- What is taken behind keeps different registers different. -/
theorem remainder_inj (hpoly : poly.getLsbD 0 = true) (u : List Bool)
    (heq : remainder poly c u = remainder poly d u) : c = d := by
  induction u generalizing c d with
  | nil => exact heq
  | cons p u ih => exact step_inj hpoly (ih heq)

end Crc
