import Beelzebub.Utils.Strings
import Mathlib.Tactic.Common

/-!
# Comparing without case

Two letters are the same for `strcasecmp` when they are 32 apart and the first one is in the range
of the letters of its case.  The range of the capital letters ends with the first of them.
-/

namespace Beelzebub.Strings

/-! ## The code -/

/-- `res` at the end of the body of the loop: zero where the loop goes on. -/
def caseResult (c₁ c₂ : UInt8) : ℤ :=
  let res := c₁.toInt8.toInt - c₂.toInt8.toInt
  if res ≠ 0 then
    if res = 32 ∧ 0x61 ≤ c₁ ∧ c₁ ≤ 0x7A then 0
    -- From `A` to `A`.
    else if res = -32 ∧ 0x41 ≤ c₁ ∧ c₁ ≤ 0x41 then 0
    else res
  else res

/-- The loop of `strcasecmp`. -/
def caseLoop : Pointer → Pointer → Option ℤ
  | c₁ :: src₁, c₂ :: src₂ =>
      let res := caseResult c₁ c₂
      if res ≠ 0 then some res
      else if c₁ ≠ 0 ∨ c₂ ≠ 0 then caseLoop src₁ src₂
      else some res
  | _, _ => none

/-- Pointers into one memory are equal when as much is left from there on. -/
def strcasecmp (src₁ src₂ : Pointer) : Option ℤ :=
  if src₁ = src₂ then some 0 else caseLoop src₁ src₂

/-- The loop of `strcasencmp`. -/
def caseLoopWithin : Pointer → Pointer → ℕ → Option ℤ
  | c₁ :: src₁, c₂ :: src₂, len =>
      let res := caseResult c₁ c₂
      if res ≠ 0 then some res
      else if decrement len > 0 ∧ (c₁ ≠ 0 ∨ c₂ ≠ 0) then caseLoopWithin src₁ src₂ (decrement len)
      else some res
  | _, _, _ => none

def strcasencmp (src₁ src₂ : Pointer) (len : ℕ) : Option ℤ :=
  if src₁ = src₂ then some 0 else caseLoopWithin src₁ src₂ len

/-! ## Folding -/

/-- A capital letter becomes a small one. -/
def fold (c : UInt8) : UInt8 := if 0x41 ≤ c ∧ c ≤ 0x5A then c + 0x20 else c

/-- A capital letter other than the first, and its small one. -/
def Missed (c₁ c₂ : UInt8) : Prop := 0x42 ≤ c₁ ∧ c₁ ≤ 0x5A ∧ c₂ = c₁ + 0x20

instance (c₁ c₂ : UInt8) : Decidable (Missed c₁ c₂) :=
  inferInstanceAs (Decidable (_ ∧ _ ∧ _))

/-- No capital letter of the first string is missed against the second. -/
def NoneMissed (t f : List UInt8) : Prop := ∀ c ∈ t.zip f, ¬Missed c.1 c.2

/-- A string in memory, with what comes behind it. -/
def inMemory (t rest : List UInt8) : Pointer := t ++ 0 :: rest

/-- Comparing tells whether the strings are equal without case, in one order as in the other, and
with a length it compares the strings cut to that. -/
structure CaseExact (t f rest rest' : List UInt8) : Prop where
  folded : strcasecmp (inMemory t rest) (inMemory f rest') = some 0 ↔ t.map fold = f.map fold
  symmetric : strcasecmp (inMemory t rest) (inMemory f rest') = some 0 ↔
    strcasecmp (inMemory f rest') (inMemory t rest) = some 0
  cut : ∀ len > 0, ∀ behind behind', ∃ res,
    strcasencmp (inMemory t rest) (inMemory f rest') len = some res ∧
      strcasecmp (inMemory (t.take len) behind) (inMemory (f.take len) behind') = some res

/-! ## One character -/

variable {c d : UInt8} {t f rest rest' : List UInt8} {len : ℕ}

theorem toInt_toInt8 (c : UInt8) :
    c.toInt8.toInt = if c.toNat < 128 then (c.toNat : ℤ) else c.toNat - 256 := by
  rw [← Int8.toInt_toBitVec, UInt8.toBitVec_toInt8, BitVec.toInt_eq_toNat_cond,
    UInt8.toNat_toBitVec]
  split <;> split <;> omega

theorem toNat_fold (c : UInt8) :
    (fold c).toNat = if 65 ≤ c.toNat ∧ c.toNat ≤ 90 then c.toNat + 32 else c.toNat := by
  have hrange : 0x41 ≤ c ∧ c ≤ 0x5A ↔ 65 ≤ c.toNat ∧ c.toNat ≤ 90 :=
    and_congr UInt8.le_iff_toNat_le UInt8.le_iff_toNat_le
  unfold fold
  by_cases h : 0x41 ≤ c ∧ c ≤ 0x5A
  · have h' := hrange.mp h
    rw [if_pos h, if_pos h', UInt8.toNat_add]
    show (c.toNat + 32) % 256 = _
    omega
  · rw [if_neg h, if_neg (mt hrange.mpr h)]

theorem fold_eq_zero_iff : fold c = 0 ↔ c = 0 := by
  rw [← UInt8.toNat_inj, ← UInt8.toNat_inj, toNat_fold]
  show (if 65 ≤ c.toNat ∧ c.toNat ≤ 90 then c.toNat + 32 else c.toNat) = 0 ↔ c.toNat = 0
  split
  · omega
  · rfl

theorem missed_iff : Missed c d ↔ 66 ≤ c.toNat ∧ c.toNat ≤ 90 ∧ d.toNat = c.toNat + 32 := by
  unfold Missed
  rw [UInt8.le_iff_toNat_le, UInt8.le_iff_toNat_le, ← UInt8.toNat_inj, UInt8.toNat_add]
  show 66 ≤ c.toNat ∧ c.toNat ≤ 90 ∧ d.toNat = (c.toNat + 32) % 256 ↔ _
  omega

theorem caseResult_eq_zero_iff_toNat :
    caseResult c d = 0 ↔ c.toNat = d.toNat ∨
      (97 ≤ c.toNat ∧ c.toNat ≤ 122 ∧ d.toNat + 32 = c.toNat) ∨
      c.toNat = 65 ∧ d.toNat = 97 := by
  have hlower : 0x61 ≤ c ∧ c ≤ 0x7A ↔ 97 ≤ c.toNat ∧ c.toNat ≤ 122 :=
    and_congr UInt8.le_iff_toNat_le UInt8.le_iff_toNat_le
  have hupper : 0x41 ≤ c ∧ c ≤ 0x41 ↔ 65 ≤ c.toNat ∧ c.toNat ≤ 65 :=
    and_congr UInt8.le_iff_toNat_le UInt8.le_iff_toNat_le
  have hc := c.toNat_lt
  have hd := d.toNat_lt
  unfold caseResult
  simp only [toInt_toInt8, hlower, hupper]
  split_ifs <;> omega

/-- The character is taken as the other if and only if they are the same folded, and the first is
not a letter that the range misses. -/
theorem caseResult_eq_zero_iff : caseResult c d = 0 ↔ fold c = fold d ∧ ¬Missed c d := by
  have hc := c.toNat_lt
  have hd := d.toNat_lt
  rw [caseResult_eq_zero_iff_toNat, missed_iff, ← UInt8.toNat_inj (a := fold c), toNat_fold,
    toNat_fold]
  split_ifs <;> omega

theorem noneMissed_cons :
    NoneMissed (c :: t) (d :: f) ↔ ¬Missed c d ∧ NoneMissed t f := by
  unfold NoneMissed
  rw [List.zip_cons_cons, List.forall_mem_cons]

theorem caseResult_zero_left (hd : d ≠ 0) : caseResult 0 d ≠ 0 := by
  intro h
  exact hd (fold_eq_zero_iff.mp (caseResult_eq_zero_iff.mp h).1.symm)

theorem caseResult_zero_right (hc : c ≠ 0) : caseResult c 0 ≠ 0 := by
  intro h
  exact hc (fold_eq_zero_iff.mp (caseResult_eq_zero_iff.mp h).1)

/-! ## The loops -/

theorem caseLoop_of_ne {src₁ src₂ : Pointer} (h : caseResult c d ≠ 0) :
    caseLoop (c :: src₁) (d :: src₂) = some (caseResult c d) := if_pos h

theorem caseLoop_of_eq {src₁ src₂ : Pointer} (h : caseResult c d = 0) (hc : c ≠ 0) :
    caseLoop (c :: src₁) (d :: src₂) = caseLoop src₁ src₂ :=
  (if_neg (not_not.mpr h)).trans (if_pos (.inl hc))

theorem caseLoopWithin_of_ne {src₁ src₂ : Pointer} (h : caseResult c d ≠ 0) :
    caseLoopWithin (c :: src₁) (d :: src₂) len = some (caseResult c d) := if_pos h

theorem caseLoop_iff (ht : 0 ∉ t) (hf : 0 ∉ f) :
    caseLoop (inMemory t rest) (inMemory f rest') = some 0 ↔
      t.map fold = f.map fold ∧ NoneMissed t f := by
  induction t generalizing f with
  | nil =>
      cases f with
      | nil => exact iff_of_true rfl ⟨rfl, nofun⟩
      | cons d f =>
          have hne := caseResult_zero_left fun h => hf (h ▸ List.mem_cons_self)
          refine iff_of_false (fun h => ?_) fun h => nomatch h.1
          exact hne (Option.some.inj ((caseLoop_of_ne hne).symm.trans h))
  | cons c t ih =>
      have hc : c ≠ 0 := fun h => ht (h ▸ List.mem_cons_self)
      cases f with
      | nil =>
          have hne := caseResult_zero_right hc
          refine iff_of_false (fun h => ?_) fun h => nomatch h.1
          exact hne (Option.some.inj ((caseLoop_of_ne hne).symm.trans h))
      | cons d f =>
          have ht' : 0 ∉ t := fun h => ht (List.mem_cons_of_mem c h)
          have hf' : 0 ∉ f := fun h => hf (List.mem_cons_of_mem d h)
          rw [List.map_cons, List.map_cons, List.cons.injEq, noneMissed_cons]
          by_cases hres : caseResult c d = 0
          · have hboth := caseResult_eq_zero_iff.mp hres
            have hnext : caseLoop (inMemory (c :: t) rest) (inMemory (d :: f) rest') =
              caseLoop (inMemory t rest) (inMemory f rest') := caseLoop_of_eq hres hc
            rw [hnext, ih ht' hf', and_iff_right hboth.1, and_iff_right hboth.2]
          · refine iff_of_false (fun h => ?_) fun h => hres ?_
            · exact hres (Option.some.inj ((caseLoop_of_ne hres).symm.trans h))
            · exact caseResult_eq_zero_iff.mpr ⟨h.1.1, h.2.1⟩

/-- With a length the loop ends as without one on the strings cut to that. -/
theorem caseLoopWithin_cut (ht : 0 ∉ t) (hf : 0 ∉ f) (hlen : 0 < len)
    (behind behind' : List UInt8) :
    ∃ res, caseLoopWithin (inMemory t rest) (inMemory f rest') len = some res ∧
      caseLoop (inMemory (t.take len) behind) (inMemory (f.take len) behind') = some res := by
  obtain ⟨len, rfl⟩ : ∃ n, len = n + 1 := ⟨len - 1, (Nat.succ_pred_eq_of_pos hlen).symm⟩
  clear hlen
  induction t generalizing f len with
  | nil =>
      cases f with
      | nil =>
          refine ⟨0, ?_, rfl⟩
          exact if_neg fun h => h.2.elim (· rfl) (· rfl)
      | cons d f =>
          have hne := caseResult_zero_left fun h => hf (h ▸ List.mem_cons_self)
          exact ⟨_, caseLoopWithin_of_ne hne, caseLoop_of_ne hne⟩
  | cons c t ih =>
      have hc : c ≠ 0 := fun h => ht (h ▸ List.mem_cons_self)
      cases f with
      | nil =>
          have hne := caseResult_zero_right hc
          exact ⟨_, caseLoopWithin_of_ne hne, caseLoop_of_ne hne⟩
      | cons d f =>
          have ht' : 0 ∉ t := fun h => ht (List.mem_cons_of_mem c h)
          have hf' : 0 ∉ f := fun h => hf (List.mem_cons_of_mem d h)
          by_cases hres : caseResult c d = 0
          · have hcut : ∀ n, caseLoop (inMemory ((c :: t).take (n + 1)) behind)
                (inMemory ((d :: f).take (n + 1)) behind') =
              caseLoop (inMemory (t.take n) behind) (inMemory (f.take n) behind') :=
              fun n => caseLoop_of_eq hres hc
            have hwithin : caseLoopWithin (inMemory (c :: t) rest) (inMemory (d :: f) rest')
                (len + 1) = if len > 0 ∧ (c ≠ 0 ∨ d ≠ 0) then
                  caseLoopWithin (inMemory t rest) (inMemory f rest') len
                else some (caseResult c d) := if_neg (not_not.mpr hres)
            rw [hcut, hwithin]
            cases len with
            | zero =>
                rw [if_neg fun h => Nat.lt_irrefl 0 h.1, hres]
                exact ⟨0, rfl, rfl⟩
            | succ len =>
                rw [if_pos ⟨Nat.succ_pos len, .inl hc⟩]
                exact ih ht' hf' len
          · exact ⟨_, caseLoopWithin_of_ne hres, caseLoop_of_ne hres⟩

/-! ## Equality without case -/

theorem noneMissed_self (t : List UInt8) : NoneMissed t t := by
  induction t with
  | nil => exact nofun
  | cons c t ih =>
      refine noneMissed_cons.mpr ⟨fun h => ?_, ih⟩
      have hmissed := missed_iff.mp h
      omega

/-- The test for equal pointers makes no difference. -/
theorem strcasecmp_eq_caseLoop (ht : 0 ∉ t) :
    strcasecmp (inMemory t rest) (inMemory f rest') =
      caseLoop (inMemory t rest) (inMemory f rest') := by
  unfold strcasecmp
  by_cases hsrc : inMemory t rest = inMemory f rest'
  · rw [if_pos hsrc, ← hsrc]
    exact ((caseLoop_iff ht ht).mpr ⟨rfl, noneMissed_self t⟩).symm
  · rw [if_neg hsrc]

theorem strcasencmp_eq_caseLoopWithin (ht : 0 ∉ t) (hlen : 0 < len) :
    strcasencmp (inMemory t rest) (inMemory f rest') len =
      caseLoopWithin (inMemory t rest) (inMemory f rest') len := by
  unfold strcasencmp
  by_cases hsrc : inMemory t rest = inMemory f rest'
  · obtain ⟨res, hwithin, hcut⟩ := @caseLoopWithin_cut t t rest rest len ht ht hlen [] []
    have ht' : 0 ∉ t.take len := fun h => ht (List.mem_of_mem_take h)
    rw [if_pos hsrc, ← hsrc, hwithin, ← hcut]
    exact ((caseLoop_iff ht' ht').mpr ⟨rfl, noneMissed_self _⟩).symm
  · rw [if_neg hsrc]

theorem strcasecmp_iff (ht : 0 ∉ t) (hf : 0 ∉ f) :
    strcasecmp (inMemory t rest) (inMemory f rest') = some 0 ↔
      t.map fold = f.map fold ∧ NoneMissed t f := by
  rw [strcasecmp_eq_caseLoop ht, caseLoop_iff ht hf]

/-- Comparing is as it should be if and only if the strings differ without case, or neither has a
letter that is missed. -/
theorem caseExact_iff (ht : 0 ∉ t) (hf : 0 ∉ f) :
    CaseExact t f rest rest' ↔
      (t.map fold = f.map fold → NoneMissed t f ∧ NoneMissed f t) := by
  constructor
  · intro hexact hsame
    have hzero := hexact.folded.mpr hsame
    exact ⟨((strcasecmp_iff ht hf).mp hzero).2,
      ((strcasecmp_iff hf ht).mp (hexact.symmetric.mp hzero)).2⟩
  · intro hnone
    constructor
    case folded =>
      rw [strcasecmp_iff ht hf]
      exact ⟨fun h => h.1, fun h => ⟨h, (hnone h).1⟩⟩
    case symmetric =>
      rw [strcasecmp_iff ht hf, strcasecmp_iff hf ht]
      constructor
      · exact fun h => ⟨h.1.symm, (hnone h.1).2⟩
      · exact fun h => ⟨h.1.symm, (hnone h.1.symm).1⟩
    case cut =>
      intro len hlen behind behind'
      have ht' : 0 ∉ t.take len := fun h => ht (List.mem_of_mem_take h)
      rw [strcasencmp_eq_caseLoopWithin ht hlen, strcasecmp_eq_caseLoop ht']
      exact caseLoopWithin_cut ht hf hlen behind behind'

theorem caseExact_iff_aA :
    CaseExact [0x61] [0x41] [] [] ↔
      ([0x61].map fold = [0x41].map fold → NoneMissed [0x61] [0x41] ∧ NoneMissed [0x41] [0x61]) :=
  caseExact_iff (by decide) (by decide)

/-- `B` is not `b`. -/
theorem not_caseExact :
    ¬ ∀ t f rest rest' : List UInt8, 0 ∉ t → 0 ∉ f → CaseExact t f rest rest' := by
  intro h
  have hexact := h [0x42] [0x62] [] [] (by decide) (by decide)
  exact absurd (hexact.folded.mpr (by decide)) (by decide)

end Beelzebub.Strings
