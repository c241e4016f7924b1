import Mathlib.Algebra.Ring.Nat
import Mathlib.Data.Int.Notation
import Mathlib.Data.List.Basic

/-!
# Strings

A string is a run of bytes that a zero ends.  A `char *` is taken as what is left of the memory
from there on, so that pointer arithmetic is `List.drop`, and a read past the end is a fault.
-/

namespace Beelzebub.Strings

/-! ## The code -/

/-- What a `char *` points to: the memory from there on. -/
abbrev Pointer := List UInt8

/-- `*p`. -/
def read (p : Pointer) : Option UInt8 := p.head?

def strlen : Pointer → Option ℕ
  | [] => none
  | c :: p => if c = 0 then some 0 else (strlen p).map (· + 1)

/-- `--len` on a `size_t`. -/
def decrement (len : ℕ) : ℕ := if len = 0 then 2 ^ 64 - 1 else len - 1

/-- The loop reads before it tests `len`, so that a `len` of zero is no bound. -/
def strncmp : Pointer → Pointer → ℕ → Option ℤ
  | c₁ :: src₁, c₂ :: src₂, len =>
      let res := c₁.toInt8.toInt - c₂.toInt8.toInt
      if res = 0 ∧ decrement len > 0 ∧ (c₁ ≠ 0 ∨ c₂ ≠ 0) then strncmp src₁ src₂ (decrement len)
      else some res
  | _, _, _ => none

/-- What `strncpy` stores from `dst` on: it stores before it tests `len` too. -/
def strncpy : Pointer → ℕ → Option (List UInt8)
  | [], _ => none
  | c :: src, len =>
      if c ≠ 0 ∧ decrement len > 0 then (strncpy src (decrement len)).map (c :: ·) else some [c]

/-- Whether `memchr` finds the value. -/
def memchr : Pointer → UInt8 → ℕ → Option Bool
  | _, _, 0 => some false
  | [], _, _ + 1 => none
  | c :: src, val, len + 1 => if c = val then some true else memchr src val len

/-- A string with its end. -/
structure CString where
  chars : List UInt8
  nonzero : 0 ∉ chars

/-- The string in memory. -/
def CString.bytes (s : CString) : Pointer := s.chars ++ [0]

def CString.length (s : CString) : ℕ := s.chars.length

/-! ## Reading -/

variable {t f rest : List UInt8} {c₁ c₂ : UInt8} {len : ℕ}

theorem strlen_append (ht : 0 ∉ t) : strlen (t ++ 0 :: rest) = some t.length := by
  induction t with
  | nil => rfl
  | cons c t ih =>
      rw [List.mem_cons, not_or] at ht
      show (if c = 0 then some 0 else (strlen (t ++ 0 :: rest)).map (· + 1)) = _
      rw [if_neg (Ne.symm ht.1), ih ht.2]
      rfl

theorem toInt_sub_eq_zero : c₁.toInt8.toInt - c₂.toInt8.toInt = 0 ↔ c₁ = c₂ := by
  rw [Int.sub_eq_zero]
  constructor
  · intro h
    exact congrArg Int8.toUInt8 (Int8.toInt_inj.mp h)
  · intro h
    rw [h]

/-- A comparison with a string reads neither string beyond its end. -/
theorem strncmp_append (ht : 0 ∉ t) (hf : 0 ∉ f) (len : ℕ) :
    ∃ res, strncmp (t ++ 0 :: rest) (f ++ [0]) len = some res := by
  induction t generalizing f len with
  | nil =>
      cases f with
      | nil => exact ⟨_, if_neg fun h => h.2.2.elim (fun h => h rfl) fun h => h rfl⟩
      | cons c₂ f =>
          have hne : (0 : UInt8) ≠ c₂ := fun h => hf (h ▸ List.mem_cons_self)
          refine ⟨_, if_neg fun h => hne (toInt_sub_eq_zero.mp h.1)⟩
  | cons c₁ t ih =>
      have hne : (0 : UInt8) ≠ c₁ := fun h => ht (h ▸ List.mem_cons_self)
      cases f with
      | nil => exact ⟨_, if_neg fun h => hne (toInt_sub_eq_zero.mp h.1).symm⟩
      | cons c₂ f =>
          unfold strncmp
          dsimp only [List.cons_append]
          split
          next =>
            exact ih (fun h => ht (List.mem_cons_of_mem _ h))
              (fun h => hf (List.mem_cons_of_mem _ h)) _
          next => exact ⟨_, rfl⟩

/-- Nor does it read more than `len` bytes. -/
theorem strncmp_within {p : Pointer} (hf : 0 ∉ f) (hpos : 0 < len) (hlen : len ≤ p.length) :
    ∃ res, strncmp p (f ++ [0]) len = some res := by
  induction p generalizing f len with
  | nil => exact (Nat.lt_irrefl _ (Nat.lt_of_lt_of_le hpos hlen)).elim
  | cons c₁ p ih =>
      cases f with
      | nil =>
          refine ⟨_, if_neg fun h => ?_⟩
          have hzero := toInt_sub_eq_zero.mp h.1
          exact h.2.2.elim (fun h => h hzero) fun h => h rfl
      | cons c₂ f =>
          unfold strncmp
          dsimp only [List.cons_append]
          split
          next hgo =>
            have hdecrement : decrement len = len - 1 := if_neg (Nat.ne_of_gt hpos)
            rw [List.length_cons] at hlen
            refine ih (fun h => hf (List.mem_cons_of_mem _ h)) hgo.2.1 ?_
            rw [hdecrement]
            exact Nat.sub_le_of_le_add hlen
          next => exact ⟨_, rfl⟩

/-- A copy of as many bytes as there are before the end stores these. -/
theorem strncpy_append (ht : 0 ∉ t) (hne : t ≠ []) :
    strncpy (t ++ rest) t.length = some t := by
  induction t with
  | nil => exact (hne rfl).elim
  | cons c t ih =>
      have hc : c ≠ 0 := fun h => ht (h ▸ List.mem_cons_self)
      have hdecrement : decrement (c :: t).length = t.length := if_neg (Nat.succ_ne_zero _)
      unfold strncpy
      dsimp only [List.cons_append]
      rw [hdecrement]
      cases t with
      | nil => exact if_neg fun h => Nat.lt_irrefl 0 h.2
      | cons d t =>
          rw [if_pos ⟨hc, Nat.succ_pos _⟩,
            ih (fun h => ht (List.mem_cons_of_mem _ h)) (List.cons_ne_nil d t)]
          rfl

/-- A copy of a string stores something, whatever `len` is. -/
theorem strncpy_nonempty (t : List UInt8) (len : ℕ) :
    ∃ stored, strncpy (t ++ 0 :: rest) len = some stored ∧ stored ≠ [] := by
  induction t generalizing len with
  | nil => exact ⟨[0], if_neg fun h => h.1 rfl, List.cons_ne_nil 0 []⟩
  | cons c t ih =>
      unfold strncpy
      dsimp only [List.cons_append]
      split
      next =>
        obtain ⟨stored, hstored, -⟩ := ih (decrement len)
        rw [hstored]
        exact ⟨c :: stored, rfl, List.cons_ne_nil c stored⟩
      next => exact ⟨[c], rfl, List.cons_ne_nil c []⟩

/-- A `len` of zero is no bound: a second byte follows the first. -/
theorem strncpy_zero {c : UInt8} (hc : c ≠ 0) (t : List UInt8) :
    ∃ stored, strncpy (c :: t ++ 0 :: rest) 0 = some stored ∧ 1 < stored.length := by
  obtain ⟨stored, hstored, hne⟩ := @strncpy_nonempty rest t (decrement 0)
  refine ⟨c :: stored, ?_, Nat.succ_lt_succ (List.length_pos_iff.mpr hne)⟩
  unfold strncpy
  dsimp only [List.cons_append]
  rw [if_pos ⟨hc, by decide⟩, hstored]
  rfl

/-- What compares equal over its whole length is a prefix. -/
theorem prefix_of_strncmp (ht : 0 ∉ t) (hf : 0 ∉ f) (hlen : f.length ≤ len)
    (h : strncmp (t ++ 0 :: rest) (f ++ [0]) len = some 0) : f <+: t := by
  induction t generalizing f len with
  | nil =>
      cases f with
      | nil => exact List.prefix_refl _
      | cons c₂ f =>
          have hne : (0 : UInt8) ≠ c₂ := fun h => hf (h ▸ List.mem_cons_self)
          have hres := (if_neg fun h => hne (toInt_sub_eq_zero.mp h.1)).symm.trans h
          exact (hne (toInt_sub_eq_zero.mp (Option.some.inj hres))).elim
  | cons c₁ t ih =>
      cases f with
      | nil => exact List.nil_prefix
      | cons c₂ f =>
          have ht' : 0 ∉ t := fun h => ht (List.mem_cons_of_mem _ h)
          have hf' : 0 ∉ f := fun h => hf (List.mem_cons_of_mem _ h)
          have hne : c₁ ≠ 0 := fun h => ht (h ▸ List.mem_cons_self)
          rw [List.length_cons] at hlen
          unfold strncmp at h
          dsimp only [List.cons_append] at h
          split at h
          next hgo =>
            rw [toInt_sub_eq_zero.mp hgo.1]
            have hdecrement : decrement len = len - 1 := if_neg (by omega)
            rw [hdecrement] at h
            exact List.cons_prefix_cons.mpr ⟨rfl, ih ht' hf' (by omega) h⟩
          next hstop =>
            have heq := Option.some.inj h
            have hdecrement : decrement len = len - 1 := if_neg (by omega)
            rw [hdecrement] at hstop
            have hshort : f.length = 0 := by
              by_contra hf0
              exact hstop ⟨heq, by omega, .inl hne⟩
            rw [List.eq_nil_of_length_eq_zero hshort, toInt_sub_eq_zero.mp heq]
            exact List.cons_prefix_cons.mpr ⟨rfl, List.nil_prefix⟩

theorem memchr_append (val : UInt8) (hlen : len ≤ t.length) :
    ∃ found, memchr (t ++ rest) val len = some found := by
  induction t generalizing len with
  | nil =>
      obtain rfl : len = 0 := Nat.le_zero.mp hlen
      exact ⟨false, by unfold memchr; rfl⟩
  | cons c t ih =>
      cases len with
      | zero => exact ⟨false, by unfold memchr; rfl⟩
      | succ len =>
          unfold memchr
          dsimp only [List.cons_append]
          split
          next => exact ⟨true, rfl⟩
          next => exact ih (Nat.le_of_succ_le_succ hlen)

/-- Strings compare equal when they agree in as many bytes, their ends included. -/
theorem strncmp_eq_zero (ht : 0 ∉ t) (hf : 0 ∉ f) (hpos : 0 < len) :
    strncmp (t ++ 0 :: rest) (f ++ [0]) len = some 0 ↔
      (t ++ [0]).take len = (f ++ [0]).take len := by
  induction t generalizing f len with
  | nil =>
      obtain ⟨len, rfl⟩ := Nat.exists_eq_succ_of_ne_zero (Nat.ne_of_gt hpos)
      cases f with
      | nil => exact ⟨fun _ => rfl, fun _ => if_neg fun h => h.2.2.elim (· rfl) (· rfl)⟩
      | cons c₂ f =>
          have hne : (0 : UInt8) ≠ c₂ := fun h => hf (h ▸ List.mem_cons_self)
          have hrun : strncmp ([] ++ 0 :: rest) (c₂ :: f ++ [0]) (len + 1) = some _ :=
            if_neg fun h => hne (toInt_sub_eq_zero.mp h.1)
          constructor
          · intro h
            exact absurd (toInt_sub_eq_zero.mp (Option.some.inj (hrun.symm.trans h))) hne
          · intro h
            exact absurd (List.cons.inj h).1 hne
  | cons c₁ t ih =>
      obtain ⟨len, rfl⟩ := Nat.exists_eq_succ_of_ne_zero (Nat.ne_of_gt hpos)
      have hne : (0 : UInt8) ≠ c₁ := fun h => ht (h ▸ List.mem_cons_self)
      have ht' : 0 ∉ t := fun h => ht (List.mem_cons_of_mem _ h)
      cases f with
      | nil =>
          have hrun : strncmp (c₁ :: t ++ 0 :: rest) ([] ++ [0]) (len + 1) = some _ :=
            if_neg fun h => hne (toInt_sub_eq_zero.mp h.1).symm
          constructor
          · intro h
            exact absurd (toInt_sub_eq_zero.mp (Option.some.inj (hrun.symm.trans h))).symm hne
          · intro h
            exact absurd (List.cons.inj h).1.symm hne
      | cons c₂ f =>
          have hf' : 0 ∉ f := fun h => hf (List.mem_cons_of_mem _ h)
          show (if c₁.toInt8.toInt - c₂.toInt8.toInt = 0 ∧ len > 0 ∧ (c₁ ≠ 0 ∨ c₂ ≠ 0) then
            strncmp (t ++ 0 :: rest) (f ++ [0]) len
            else some (c₁.toInt8.toInt - c₂.toInt8.toInt)) = some 0 ↔
              c₁ :: (t ++ [0]).take len = c₂ :: (f ++ [0]).take len
          rw [List.cons.injEq]
          by_cases heq : c₁ = c₂
          · have hzero := toInt_sub_eq_zero.mpr heq
            rcases Nat.eq_zero_or_pos len with rfl | hlen
            · rw [if_neg fun h => Nat.lt_irrefl 0 h.2.1, hzero]
              exact ⟨fun _ => ⟨heq, rfl⟩, fun _ => rfl⟩
            · rw [if_pos ⟨hzero, hlen, .inl hne.symm⟩, ih ht' hf' hlen]
              exact ⟨fun h => ⟨heq, h⟩, fun h => h.2⟩
          · rw [if_neg fun h => heq (toInt_sub_eq_zero.mp h.1)]
            constructor
            · intro h
              exact absurd (toInt_sub_eq_zero.mp (Option.some.inj h)) heq
            · exact fun h => absurd h.1 heq

/-- With the end of the first string within the length, they are the same. -/
theorem strncmp_whole (ht : 0 ∉ t) (hf : 0 ∉ f) :
    strncmp (t ++ 0 :: rest) (f ++ [0]) (t.length + 1) = some 0 ↔ t = f := by
  rw [strncmp_eq_zero ht hf (Nat.succ_pos _), List.take_of_length_le (by simp)]
  constructor
  · intro h
    rcases Nat.lt_or_ge t.length f.length with hlt | hge
    · rw [List.take_append_of_le_length hlt] at h
      exact absurd (List.mem_of_mem_take (h ▸ List.mem_append_right t List.mem_cons_self)) hf
    · rw [List.take_of_length_le (by simpa using hge)] at h
      exact List.append_cancel_right h
  · rintro rfl
    rw [List.take_of_length_le (by simp)]

/-- Over the length of the second string, it is a prefix. -/
theorem strncmp_starts (ht : 0 ∉ t) (hf : 0 ∉ f) (hne : f ≠ []) :
    strncmp (t ++ 0 :: rest) (f ++ [0]) f.length = some 0 ↔ f <+: t := by
  rw [strncmp_eq_zero ht hf (List.length_pos_iff.mpr hne), List.take_left' rfl]
  constructor
  · intro h
    rcases Nat.lt_or_ge t.length f.length with hlt | hge
    · have hmem : 0 ∈ f := by
        rw [← h, List.take_of_length_le (by rwa [List.length_append])]
        exact List.mem_append_right t List.mem_cons_self
      exact absurd hmem hf
    · rw [List.take_append_of_le_length hge] at h
      exact List.prefix_iff_eq_take.mpr h.symm
  · intro h
    rw [List.take_append_of_le_length h.length_le]
    exact (List.prefix_iff_eq_take.mp h).symm

/-- Without a length to begin with, the first bytes are compared in any case. -/
theorem strncmp_empty (ht : 0 ∉ t) : strncmp (t ++ 0 :: rest) [0] 0 = some 0 ↔ t = [] := by
  cases t with
  | nil =>
      refine ⟨fun _ => rfl, fun _ => ?_⟩
      show strncmp (0 :: rest) [0] 0 = some 0
      unfold strncmp
      exact if_neg fun h => h.2.2.elim (fun h => h rfl) fun h => h rfl
  | cons c t =>
      have hne : c ≠ 0 := fun h => ht (h ▸ List.mem_cons_self)
      have hrun : strncmp (c :: t ++ 0 :: rest) [0] 0 = some _ :=
        if_neg fun h => hne (toInt_sub_eq_zero.mp h.1)
      constructor
      · intro h
        exact absurd (toInt_sub_eq_zero.mp (Option.some.inj (hrun.symm.trans h))) hne
      · exact fun h => nomatch h

theorem memchr_all (t rest : List UInt8) (val : UInt8) :
    memchr (t ++ rest) val t.length = some (decide (val ∈ t)) := by
  induction t with
  | nil =>
      unfold memchr
      rfl
  | cons c t ih =>
      show (if c = val then some true else memchr (t ++ rest) val t.length) = _
      by_cases heq : c = val
      · rw [if_pos heq, decide_eq_true (heq ▸ List.mem_cons_self)]
      · rw [if_neg heq, ih]
        exact congrArg some (decide_eq_decide.mpr
          ⟨List.mem_cons_of_mem c, fun h => (List.mem_cons.mp h).resolve_left (Ne.symm heq)⟩)
end Beelzebub.Strings
