import Mathlib.Data.Int.Notation
import Mathlib.Data.Nat.Notation
import Mathlib.Order.Lattice
import Mathlib.Tactic.Common

/-!
# Comparing memory

`memeq` and `memcmp` are single string instructions.  The result is the zero flag after them, and
where no byte is compared that is the zero flag from before.  Of the register that `memcmp` returns
only the lowest byte is set.

The loops in the comments of the functions are the reference.
-/

namespace Beelzebub.MemoryComparison

/-! ## The code -/

/-- `repe cmpsb`: the zero flag after it, for so many bytes and the flag before. -/
def repeCmpsb (mem : ℕ → UInt8) : ℕ → ℕ → ℕ → Bool → Bool
  | 0, _, _, zf => zf
  | len + 1, src1, src2, _ =>
      if mem src1 = mem src2 then repeCmpsb mem len (src1 + 1) (src2 + 1) true else false

/-- What the registers hold that is not set before the instruction. -/
structure Registers where
  zf : Bool
  eax : BitVec 32

def memeq (mem : ℕ → UInt8) (reg : Registers) (src1 src2 len : ℕ) : Bool :=
  if src1 = src2 then true else repeCmpsb mem len src1 src2 reg.zf

/-- `sete %al`. -/
def sete (zf : Bool) (eax : BitVec 32) : BitVec 32 :=
  eax &&& 0xFFFFFF00 ||| if zf then 1 else 0

def memcmp (mem : ℕ → UInt8) (reg : Registers) (src1 src2 len : ℕ) : ℤ :=
  if src1 = src2 then 0 else (sete (repeCmpsb mem len src1 src2 reg.zf) reg.eax).toInt

/-! ## The reference -/

/-- The loop in `memeq`. -/
def memeqLoop (mem : ℕ → UInt8) : ℕ → ℕ → ℕ → Bool
  | 0, _, _ => true
  | len + 1, s1, s2 => if mem s1 ≠ mem s2 then false else memeqLoop mem len (s1 + 1) (s2 + 1)

/-- The loop in `memcmp`. -/
def memcmpLoop (mem : ℕ → UInt8) : ℕ → ℕ → ℕ → ℤ
  | 0, _, _ => 0
  | len + 1, s1, s2 =>
      let res := (mem s1).toInt8 - (mem s2).toInt8
      if res ≠ 0 then res.toInt else memcmpLoop mem len (s1 + 1) (s2 + 1)

section Buffers

variable (mem : ℕ → UInt8) (reg : Registers) (src1 src2 len : ℕ)

/-- The first bytes are equal. -/
def Same : Prop := ∀ i < len, mem (src1 + i) = mem (src2 + i)

/-- `memeq` tells whether they are. -/
def MemeqExact : Prop := memeq mem reg src1 src2 len = true ↔ Same mem src1 src2 len

/-- The result of `memcmp` has the sign of that of the loop. -/
def MemcmpExact : Prop :=
  (memcmp mem reg src1 src2 len).sign = (memcmpLoop mem len src1 src2).sign

/-- The two functions follow the loops, and agree. -/
structure FollowsReference : Prop where
  memeq : MemeqExact mem reg src1 src2 len
  memcmp : MemcmpExact mem reg src1 src2 len
  agree : MemoryComparison.memeq mem reg src1 src2 len = true ↔
    MemoryComparison.memcmp mem reg src1 src2 len = 0

end Buffers

/-! ## The loops -/

variable {mem : ℕ → UInt8} {src1 src2 len : ℕ}

theorem same_succ :
    Same mem src1 src2 (len + 1) ↔ mem src1 = mem src2 ∧ Same mem (src1 + 1) (src2 + 1) len := by
  constructor
  · intro h
    refine ⟨h 0 (Nat.succ_pos len), fun i hi => ?_⟩
    have hnext := h (i + 1) (Nat.succ_lt_succ hi)
    rwa [← Nat.add_assoc, Nat.add_right_comm, ← Nat.add_assoc, Nat.add_right_comm src2] at hnext
  · rintro ⟨hfirst, hrest⟩ i hi
    cases i with
    | zero => exact hfirst
    | succ i =>
        have hnext := hrest i (Nat.lt_of_succ_lt_succ hi)
        rwa [Nat.add_right_comm, Nat.add_assoc, Nat.add_right_comm src2,
          Nat.add_assoc src2] at hnext

theorem same_self (mem : ℕ → UInt8) (src len : ℕ) : Same mem src src len := fun _ _ => rfl

theorem memeqLoop_iff : memeqLoop mem len src1 src2 = true ↔ Same mem src1 src2 len := by
  induction len generalizing src1 src2 with
  | zero => exact ⟨fun _ => nofun, fun _ => rfl⟩
  | succ len ih =>
      rw [memeqLoop, same_succ, ← ih]
      by_cases h : mem src1 = mem src2
      · rw [if_neg (not_not.mpr h), and_iff_right h]
      · rw [if_pos h]
        exact ⟨nofun, fun hboth => absurd hboth.1 h⟩

theorem sub_eq_zero_iff {c d : UInt8} : c.toInt8 - d.toInt8 = 0 ↔ c = d := by
  rw [Int8.sub_eq_iff_eq_add, Int8.zero_add]
  exact ⟨fun h => congrArg Int8.toUInt8 h, fun h => congrArg UInt8.toInt8 h⟩

theorem memcmpLoop_eq_zero_iff :
    memcmpLoop mem len src1 src2 = 0 ↔ Same mem src1 src2 len := by
  induction len generalizing src1 src2 with
  | zero => exact ⟨fun _ => nofun, fun _ => rfl⟩
  | succ len ih =>
      rw [memcmpLoop, same_succ, ← ih]
      by_cases h : mem src1 = mem src2
      · rw [if_neg (not_not.mpr (sub_eq_zero_iff.mpr h)), and_iff_right h]
      · have hne := mt sub_eq_zero_iff.mp h
        rw [if_pos hne]
        exact ⟨fun hzero => absurd (Int8.toInt_inj.mp hzero) hne, fun hboth => absurd hboth.1 h⟩

/-! ## The instruction -/

/-- The flag tells whether the bytes are the same, if there are any. -/
theorem repeCmpsb_iff (hlen : 0 < len) (zf : Bool) :
    repeCmpsb mem len src1 src2 zf = true ↔ Same mem src1 src2 len := by
  obtain ⟨n, rfl⟩ := Nat.exists_eq_add_of_lt hlen
  rw [Nat.zero_add]
  clear hlen
  induction n generalizing src1 src2 zf with
  | zero =>
      rw [repeCmpsb, same_succ]
      by_cases h : mem src1 = mem src2
      · rw [if_pos h]
        exact ⟨fun _ => ⟨h, nofun⟩, fun _ => rfl⟩
      · rw [if_neg h]
        exact ⟨nofun, fun hboth => absurd hboth.1 h⟩
  | succ n ih =>
      rw [repeCmpsb, same_succ]
      by_cases h : mem src1 = mem src2
      · rw [if_pos h, ih, and_iff_right h]
      · rw [if_neg h]
        exact ⟨nofun, fun hboth => absurd hboth.1 h⟩

theorem sete_false (eax : BitVec 32) : sete false eax = eax &&& 0xFFFFFF00 := BitVec.or_zero

/-- The lowest byte is not zero. -/
theorem toInt_sete_true (eax : BitVec 32) : (sete true eax).toInt ≠ 0 := by
  intro hzero
  have hbits : sete true eax = 0 := BitVec.toInt_inj.mp hzero
  have hlow := congrArg (fun x : BitVec 32 => x.getLsbD 0) hbits
  simp [sete] at hlow

/-! ## When the loops are followed -/

variable {reg : Registers}

theorem memeq_self (mem : ℕ → UInt8) (reg : Registers) (src len : ℕ) :
    memeq mem reg src src len = true := if_pos rfl

theorem memcmp_self (mem : ℕ → UInt8) (reg : Registers) (src len : ℕ) :
    memcmp mem reg src src len = 0 := if_pos rfl

theorem memeq_of_pos (hlen : 0 < len) :
    memeq mem reg src1 src2 len = true ↔ Same mem src1 src2 len := by
  by_cases hsrc : src1 = src2
  · subst hsrc
    exact iff_of_true (memeq_self ..) (same_self _ _ _)
  · unfold memeq
    rw [if_neg hsrc, repeCmpsb_iff hlen]

theorem memeqExact_iff :
    MemeqExact mem reg src1 src2 len ↔ src1 = src2 ∨ 0 < len ∨ reg.zf = true := by
  by_cases hsrc : src1 = src2
  · subst hsrc
    exact iff_of_true (iff_of_true (memeq_self ..) (same_self _ _ _)) (.inl rfl)
  · rw [or_iff_right hsrc]
    cases len with
    | zero =>
        have hflag : memeq mem reg src1 src2 0 = reg.zf := if_neg hsrc
        unfold MemeqExact
        rw [hflag, or_iff_right (Nat.lt_irrefl 0)]
        exact ⟨fun h => h.mpr nofun, fun h => iff_of_true h nofun⟩
    | succ len =>
        exact iff_of_true (memeq_of_pos (Nat.succ_pos len)) (.inl (Nat.succ_pos len))

/-- Of equal bytes at different addresses `memcmp` does not say that they are. -/
theorem memcmp_of_same (hsrc : src1 ≠ src2) (hlen : 0 < len) (h : Same mem src1 src2 len) :
    memcmp mem reg src1 src2 len ≠ 0 := by
  unfold memcmp
  rw [if_neg hsrc, (repeCmpsb_iff hlen reg.zf).mpr h]
  exact toInt_sete_true reg.eax

/-- Of others it returns what was left in the register. -/
theorem memcmp_of_not_same (h : ¬Same mem src1 src2 len) :
    memcmp mem reg src1 src2 len = (reg.eax &&& 0xFFFFFF00).toInt := by
  have hsrc : src1 ≠ src2 := by
    rintro rfl
    exact h (same_self _ _ _)
  have hlen : 0 < len := Nat.pos_of_ne_zero fun hzero => h (by rw [hzero]; exact nofun)
  have hflag := mt (repeCmpsb_iff hlen reg.zf).mp h
  unfold memcmp
  rw [if_neg hsrc, Bool.eq_false_iff.mpr hflag, sete_false]

/-- The functions follow the loops if and only if nothing is compared because the pointers are
equal, or the bytes differ and what was left in the register has the sign of the difference. -/
theorem followsReference_iff_register :
    FollowsReference mem reg src1 src2 len ↔
      src1 = src2 ∨ ¬Same mem src1 src2 len ∧
        (reg.eax &&& 0xFFFFFF00).toInt.sign = (memcmpLoop mem len src1 src2).sign := by
  by_cases hsrc : src1 = src2
  · subst hsrc
    refine iff_of_true ?_ (.inl rfl)
    constructor
    case memeq => exact iff_of_true (memeq_self ..) (same_self _ _ _)
    case memcmp =>
      unfold MemcmpExact
      rw [memcmp_self, memcmpLoop_eq_zero_iff.mpr (same_self _ _ _)]
    case agree => exact iff_of_true (memeq_self ..) (memcmp_self ..)
  · rw [or_iff_right hsrc]
    by_cases hsame : Same mem src1 src2 len
    · refine iff_of_false (fun h => ?_) fun h => h.1 hsame
      have hzero := h.agree.mp (h.memeq.mpr hsame)
      rcases Nat.eq_zero_or_pos len with rfl | hlen
      · have hflag : memeq mem reg src1 src2 0 = reg.zf := if_neg hsrc
        have hset : reg.zf = true := hflag.symm.trans (h.memeq.mpr hsame)
        have hcmp : memcmp mem reg src1 src2 0 = (sete reg.zf reg.eax).toInt := if_neg hsrc
        rw [hset] at hcmp
        exact toInt_sete_true reg.eax (hcmp.symm.trans hzero)
      · exact memcmp_of_same hsrc hlen hsame hzero
    · have hlen : 0 < len := Nat.pos_of_ne_zero fun hzero => hsame (by rw [hzero]; exact nofun)
      constructor
      · intro h
        have hcmp := h.memcmp
        unfold MemcmpExact at hcmp
        rw [memcmp_of_not_same hsame] at hcmp
        exact ⟨hsame, hcmp⟩
      · rintro ⟨-, hsign⟩
        constructor
        case memeq => exact memeq_of_pos hlen
        case memcmp =>
          unfold MemcmpExact
          rw [memcmp_of_not_same hsame]
          exact hsign
        case agree =>
          refine iff_of_false (mt (memeq_of_pos hlen).mp hsame) fun hzero => ?_
          rw [memcmp_of_not_same hsame] at hzero
          rw [hzero] at hsign
          exact hsame (memcmpLoop_eq_zero_iff.mp (Int.sign_eq_zero_iff_zero.mp hsign.symm))

/-- `memeq` alone, and both. -/
theorem followsReference_iff (mem : ℕ → UInt8) (reg : Registers) (src1 src2 len : ℕ) :
    (MemeqExact mem reg src1 src2 len ↔ src1 = src2 ∨ 0 < len ∨ reg.zf = true) ∧
      (FollowsReference mem reg src1 src2 len ↔
        src1 = src2 ∨ ¬Same mem src1 src2 len ∧
          (reg.eax &&& 0xFFFFFF00).toInt.sign = (memcmpLoop mem len src1 src2).sign) :=
  ⟨memeqExact_iff, followsReference_iff_register⟩

/-- Two zeros are told apart. -/
theorem not_followsReference :
    ¬ ∀ (mem : ℕ → UInt8) (reg : Registers) (src1 src2 len : ℕ),
      FollowsReference mem reg src1 src2 len := by
  intro h
  have hexact := (h (fun _ => 0) ⟨false, 0⟩ 0 1 1).memcmp
  exact absurd hexact (by unfold MemcmpExact; decide)

end Beelzebub.MemoryComparison
