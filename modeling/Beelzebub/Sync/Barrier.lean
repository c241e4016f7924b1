import Beelzebub.Lib.Threads
import Mathlib.Data.Nat.Notation
import Mathlib.Tactic.Common

/-!
# The barrier

Threads that reach the barrier add to a counter and wait until a step number changes.  The last of
them clears the counter and moves the step on.  The barrier is used again and again, and a thread
may be back while others have not seen the new step yet.

A step of the model is one access of an atomic field.
-/

namespace Beelzebub.Sync

/-! ## The code -/

/-- Where a thread is in `Reach`: after the loads of `Total` and of `Step`, after the addition that
was the last one, after the counter is cleared, or in the loop. -/
inductive Barrier.Place where
  | idle
  | entered (total : UInt64)
  | sampled (total step : UInt64)
  | last
  | advancing
  | waiting (step : UInt64)

/-- For the record, the calls that a thread has started, in how many it has added to `Left`, and
from how many it has returned. -/
structure Barrier.Thread where
  place : Barrier.Place
  started : ℕ
  added : ℕ
  returned : ℕ

structure Barrier (ι : Type) where
  left : UInt64
  step : UInt64
  total : UInt64
  thread : ι → Barrier.Thread

namespace Barrier

variable {ι : Type}

/-- The step number may be left from an earlier use. -/
def initial (ι : Type) (total step : UInt64) : Barrier ι := ⟨0, step, total, fun _ => ⟨.idle, 0, 0, 0⟩⟩

variable [DecidableEq ι]

def put (i : ι) (t : Thread) (s : Barrier ι) : Barrier ι :=
  { s with thread := Function.update s.thread i t }

/-- The next access of a thread in `Reach`.  An idle thread makes a call. -/
def reach (i : ι) (s : Barrier ι) : Barrier ι :=
  let t := s.thread i
  match t.place with
  | .idle =>
      let total := s.total - 1
      if total = 0 then
        s.put i { t with started := t.started + 1, returned := t.returned + 1 }
      else s.put i { t with place := .entered total, started := t.started + 1 }
  | .entered total => s.put i { t with place := .sampled total s.step }
  | .sampled total step =>
      let place := if s.left = total then Place.last else .waiting step
      { s.put i { t with place := place, added := t.added + 1 } with left := s.left + 1 }
  | .last => { s.put i { t with place := .advancing } with left := 0 }
  | .advancing =>
      { s.put i { t with place := .idle, returned := t.returned + 1 } with step := s.step + 1 }
  | .waiting step =>
      if s.step = step then s else s.put i { t with place := .idle, returned := t.returned + 1 }

inductive Reachable (total step : UInt64) : Barrier ι → Prop
  | start : Reachable total step (initial ι total step)
  | reach {s : Barrier ι} (i : ι) : Reachable total step s → Reachable total step (s.reach i)

/-! ## What is asked -/

omit [DecidableEq ι] in
/-- A call returns only once every thread has started a call of that number, and a completed round
leaves the counter at zero until a thread adds to it for the next one. -/
structure Separates (s : Barrier ι) : Prop where
  started : ∀ i j, (s.thread i).returned ≤ (s.thread j).started
  left : ∀ i, (∀ j, (s.thread j).added ≤ (s.thread i).returned) → s.left = 0

/-! ## The invariant -/

/-- Where a thread may be once so many rounds are complete.  It may still wait for the step that
completed the round before. -/
def Thread.Fine (rounds : ℕ) (step total : UInt64) (t : Thread) : Prop :=
  match t.place with
  | .idle => t.started = rounds ∧ t.added = rounds ∧ t.returned = rounds
  | .entered k => k = total - 1 ∧ t.started = rounds + 1 ∧ t.added = rounds ∧ t.returned = rounds
  | .sampled k p =>
      k = total - 1 ∧ p = step ∧ t.started = rounds + 1 ∧ t.added = rounds ∧ t.returned = rounds
  | .last => t.started = rounds + 1 ∧ t.added = rounds + 1 ∧ t.returned = rounds
  | .advancing => t.started = rounds + 1 ∧ t.added = rounds + 1 ∧ t.returned = rounds
  | .waiting p =>
      (p = step ∧ t.started = rounds + 1 ∧ t.added = rounds + 1 ∧ t.returned = rounds) ∨
      (p ≠ step ∧ t.started = rounds ∧ t.added = rounds ∧ t.returned + 1 = rounds)

/-- A thread waits in the round that is under way. -/
def Thread.Waits (rounds : ℕ) (t : Thread) : Prop :=
  (∃ p, t.place = .waiting p) ∧ t.added = rounds + 1

/-- What a thread has added to `Left` in the round that is under way. -/
def Thread.weight (rounds : ℕ) (t : Thread) : ℕ := if t.added = rounds + 1 then 1 else 0

/-- How far the round is. -/
inductive Progress [Fintype ι] (rounds : ℕ) (s : Barrier ι) : Prop where
  | gathering (hlast : ∀ i, (s.thread i).place ≠ .last) (hadv : ∀ i, (s.thread i).place ≠ .advancing)
      (hleft : s.left.toNat = Threads.total (Thread.weight rounds) s.thread)
  | clearing (i : ι) (hplace : (s.thread i).place = .last)
      (hothers : ∀ j, j ≠ i → (s.thread j).Waits rounds)
  | advancing (i : ι) (hplace : (s.thread i).place = .advancing) (hleft : s.left = 0)
      (hothers : ∀ j, j ≠ i → (s.thread j).Waits rounds)

structure Inv [Fintype ι] (rounds : ℕ) (n : UInt64) (s : Barrier ι) : Prop where
  total : s.total = n
  fine : ∀ i, (s.thread i).Fine rounds s.step n
  progress : Progress rounds s

variable {rounds : ℕ} {n step : UInt64} {s : Barrier ι} {i j : ι} {t : Thread}

theorem put_same : (s.put i t).thread i = t := Function.update_self ..

theorem put_other (h : j ≠ i) : (s.put i t).thread j = s.thread j := Function.update_of_ne h ..

/-- What holds of the thread that is put and of all others holds of every thread. -/
theorem forall_put {p : Thread → Prop} (hi : p t) (hothers : ∀ j, j ≠ i → p (s.thread j)) (j : ι) :
    p ((s.put i t).thread j) := by
  by_cases hj : j = i
  · rw [hj, put_same]
    exact hi
  · rw [put_other hj]
    exact hothers j hj

omit [DecidableEq ι] in
theorem Thread.weight_le (rounds : ℕ) (t : Thread) : t.weight rounds ≤ 1 := by
  unfold Thread.weight
  split
  next => exact Nat.le_refl 1
  next => exact Nat.zero_le 1

omit [DecidableEq ι] in
theorem weight_of_added (h : t.added = rounds + 1) : t.weight rounds = 1 := if_pos h

omit [DecidableEq ι] in
theorem weight_of_ne (h : t.added ≠ rounds + 1) : t.weight rounds = 0 := if_neg h

omit [DecidableEq ι] in
/-- A thread that waits in this round waits for this step. -/
theorem Thread.Fine.waiting (h : t.Fine rounds step n) (hwaits : t.Waits rounds) :
    t.place = .waiting step ∧ t.started = rounds + 1 ∧ t.returned = rounds := by
  obtain ⟨⟨p, hplace⟩, hadded⟩ := hwaits
  unfold Thread.Fine at h
  rw [hplace] at h
  rcases h with ⟨rfl, hstarted, -, hreturned⟩ | ⟨-, -, hadded', -⟩
  · exact ⟨hplace, hstarted, hreturned⟩
  · exact absurd (hadded'.symm.trans hadded) (Nat.ne_of_lt (Nat.lt_succ_self rounds))

/-! ### While the threads gather -/

variable [Fintype ι]

/-- A thread moves on without adding anything. -/
theorem Inv.move (h : Inv rounds n s) (hlast : ∀ j, (s.thread j).place ≠ .last)
    (hadv : ∀ j, (s.thread j).place ≠ .advancing)
    (hleft : s.left.toNat = Threads.total (Thread.weight rounds) s.thread)
    (hfine : t.Fine rounds s.step n) (hplace : t.place ≠ .last ∧ t.place ≠ .advancing)
    (hadded : t.added = (s.thread i).added) : Inv rounds n (s.put i t) := by
  have hweight : t.weight rounds = (s.thread i).weight rounds := by
    unfold Thread.weight
    rw [hadded]
  constructor
  case total => exact h.total
  case fine =>
    exact forall_put (p := fun t => t.Fine rounds s.step n) hfine fun j _ => h.fine j
  case progress =>
    refine .gathering ?_ ?_ ?_
    · exact forall_put (p := fun t => t.place ≠ .last) hplace.1 fun j _ => hlast j
    · exact forall_put (p := fun t => t.place ≠ .advancing) hplace.2 fun j _ => hadv j
    · have htotal := Threads.total_update (w := Thread.weight rounds) (f := s.thread) (i := i)
        (a := t)
      rw [hweight] at htotal
      exact hleft.trans (Nat.add_right_cancel htotal).symm

/-- A thread that adds makes one more. -/
theorem total_add_one (hi : (s.thread i).added = rounds) (ht : t.added = rounds + 1) :
    Threads.total (Thread.weight rounds) (Function.update s.thread i t) =
      Threads.total (Thread.weight rounds) s.thread + 1 := by
  have htotal := Threads.total_update (w := Thread.weight rounds) (f := s.thread) (i := i) (a := t)
  rw [weight_of_added ht, weight_of_ne (by rw [hi]; exact Nat.ne_of_lt (Nat.lt_succ_self _)),
    Nat.add_zero] at htotal
  exact htotal

omit [DecidableEq ι] in
theorem waits_of_weight (h : Inv rounds n s) (hlast : ∀ j, (s.thread j).place ≠ .last)
    (hadv : ∀ j, (s.thread j).place ≠ .advancing) (hweight : (s.thread j).weight rounds = 1) :
    (s.thread j).Waits rounds := by
  have hadded : (s.thread j).added = rounds + 1 := by
    by_contra hne
    exact absurd (hweight.symm.trans (weight_of_ne hne)) (by decide)
  refine ⟨?_, hadded⟩
  have hfine := h.fine j
  unfold Thread.Fine at hfine
  split at hfine
  next => exact absurd (hfine.2.1.symm.trans hadded) (Nat.ne_of_lt (Nat.lt_succ_self rounds))
  next =>
    exact absurd (hfine.2.2.1.symm.trans hadded) (Nat.ne_of_lt (Nat.lt_succ_self rounds))
  next =>
    exact absurd (hfine.2.2.2.1.symm.trans hadded) (Nat.ne_of_lt (Nat.lt_succ_self rounds))
  next hplace => exact absurd hplace (hlast j)
  next hplace => exact absurd hplace (hadv j)
  next p hplace => exact ⟨p, hplace⟩

omit [DecidableEq ι] [Fintype ι] in
theorem toNat_left_add_one (hlt : s.left.toNat + 1 ≤ n.toNat) :
    (s.left + 1).toNat = s.left.toNat + 1 := by
  rw [UInt64.toNat_add]
  exact Nat.mod_eq_of_lt (Nat.lt_of_le_of_lt hlt n.toNat_lt)

/-- There is room in `Left` for a thread that has not added yet. -/
theorem left_lt (hcard : Fintype.card ι = n.toNat)
    (hleft : s.left.toNat = Threads.total (Thread.weight rounds) s.thread)
    (hi : (s.thread i).added = rounds) (ht : t.added = rounds + 1) :
    s.left.toNat + 1 ≤ n.toNat := by
  rw [hleft, ← total_add_one hi ht, ← hcard]
  exact Threads.total_le_card (Thread.weight_le rounds)

/-- A thread adds, and it is not the last one. -/
theorem Inv.addWaiting (h : Inv rounds n s) (hcard : Fintype.card ι = n.toNat)
    (hlast : ∀ j, (s.thread j).place ≠ .last) (hadv : ∀ j, (s.thread j).place ≠ .advancing)
    (hleft : s.left.toNat = Threads.total (Thread.weight rounds) s.thread)
    (hi : (s.thread i).added = rounds) (hplace : t.place = .waiting s.step)
    (hstarted : t.started = rounds + 1) (hadded : t.added = rounds + 1)
    (hreturned : t.returned = rounds) :
    Inv rounds n { s.put i t with left := s.left + 1 } := by
  constructor
  case total => exact h.total
  case fine =>
    have hfine : t.Fine rounds s.step n := by
      unfold Thread.Fine
      rw [hplace]
      exact .inl ⟨rfl, hstarted, hadded, hreturned⟩
    exact forall_put (p := fun t => t.Fine rounds s.step n) hfine fun j _ => h.fine j
  case progress =>
    refine .gathering ?_ ?_ ?_
    · exact forall_put (p := fun t => t.place ≠ .last) (by simp [hplace]) fun j _ => hlast j
    · exact forall_put (p := fun t => t.place ≠ .advancing) (by simp [hplace]) fun j _ => hadv j
    · show (s.left + 1).toNat = Threads.total _ (Function.update s.thread i t)
      rw [total_add_one hi hadded, ← hleft]
      exact toNat_left_add_one (left_lt hcard hleft hi hadded)

/-- The last thread adds: the others wait. -/
theorem Inv.addLast (h : Inv rounds n s) (hcard : Fintype.card ι = n.toNat)
    (hlast : ∀ j, (s.thread j).place ≠ .last) (hadv : ∀ j, (s.thread j).place ≠ .advancing)
    (hleft : s.left.toNat = Threads.total (Thread.weight rounds) s.thread)
    (hi : (s.thread i).added = rounds) (hplace : t.place = .last)
    (hstarted : t.started = rounds + 1) (hadded : t.added = rounds + 1)
    (hreturned : t.returned = rounds) (hfull : s.left.toNat + 1 = n.toNat) :
    Inv rounds n { s.put i t with left := s.left + 1 } := by
  have hall : Threads.total (Thread.weight rounds) (Function.update s.thread i t) =
      Fintype.card ι := by
    rw [total_add_one hi hadded, ← hleft, hfull, hcard]
  constructor
  case total => exact h.total
  case fine =>
    have hfine : t.Fine rounds s.step n := by
      unfold Thread.Fine
      rw [hplace]
      exact ⟨hstarted, hadded, hreturned⟩
    exact forall_put (p := fun t => t.Fine rounds s.step n) hfine fun j _ => h.fine j
  case progress =>
    refine .clearing i ?_ ?_
    · show ((s.put i t).thread i).place = .last
      rw [put_same]
      exact hplace
    · intro j hj
      show ((s.put i t).thread j).Waits rounds
      have hweight := Threads.eq_one_of_total (Thread.weight_le rounds) hall j
      rw [Function.update_of_ne hj] at hweight
      rw [put_other hj]
      exact waits_of_weight h hlast hadv hweight

/-! ### While the last thread is at work -/

/-- The last thread clears the counter. -/
theorem Inv.clear (h : Inv rounds n s) (hothers : ∀ j, j ≠ i → (s.thread j).Waits rounds)
    (hplace : t.place = .advancing) (hstarted : t.started = rounds + 1)
    (hadded : t.added = rounds + 1) (hreturned : t.returned = rounds) :
    Inv rounds n { s.put i t with left := 0 } := by
  constructor
  case total => exact h.total
  case fine =>
    have hfine : t.Fine rounds s.step n := by
      unfold Thread.Fine
      rw [hplace]
      exact ⟨hstarted, hadded, hreturned⟩
    exact forall_put (p := fun t => t.Fine rounds s.step n) hfine fun j _ => h.fine j
  case progress =>
    refine .advancing i ?_ rfl ?_
    · show ((s.put i t).thread i).place = .advancing
      rw [put_same]
      exact hplace
    · intro j hj
      show ((s.put i t).thread j).Waits rounds
      rw [put_other hj]
      exact hothers j hj

theorem step_ne (step : UInt64) : step ≠ step + 1 := by
  intro heq
  have hnat := congrArg UInt64.toNat heq
  rw [UInt64.toNat_add] at hnat
  have hone : (1 : UInt64).toNat = 1 := rfl
  omega

/-- The last thread moves the step on, which completes the round. -/
theorem Inv.complete (h : Inv rounds n s) (hothers : ∀ j, j ≠ i → (s.thread j).Waits rounds)
    (hleft : s.left = 0) (hplace : t.place = .idle) (hstarted : t.started = rounds + 1)
    (hadded : t.added = rounds + 1) (hreturned : t.returned = rounds + 1) :
    Inv (rounds + 1) n { s.put i t with step := s.step + 1 } := by
  have hwaiting (j : ι) (hj : j ≠ i) := (h.fine j).waiting (hothers j hj)
  have hadded' : ∀ j, ((s.put i t).thread j).added = rounds + 1 :=
    forall_put (p := fun t => t.added = rounds + 1) hadded fun j hj => (hothers j hj).2
  have hother : ∀ j, ((s.put i t).thread j).place = .idle ∨
      ((s.put i t).thread j).place = .waiting s.step :=
    forall_put (p := fun t => t.place = .idle ∨ t.place = .waiting s.step) (.inl hplace)
      fun j hj => .inr (hwaiting j hj).1
  constructor
  case total => exact h.total
  case fine =>
    have hfine : t.Fine (rounds + 1) (s.step + 1) n := by
      unfold Thread.Fine
      rw [hplace]
      exact ⟨hstarted, hadded, hreturned⟩
    apply forall_put (p := fun t => t.Fine (rounds + 1) (s.step + 1) n) hfine
    intro j hj
    obtain ⟨hplace', hstarted', hreturned'⟩ := hwaiting j hj
    unfold Thread.Fine
    rw [hplace']
    exact .inr ⟨step_ne s.step, hstarted', (hothers j hj).2, by rw [hreturned']⟩
  case progress =>
    refine .gathering ?_ ?_ ?_
    · intro j
      show ((s.put i t).thread j).place ≠ .last
      rcases hother j with heq | heq
      · rw [heq]
        exact fun heq => nomatch heq
      · rw [heq]
        exact fun heq => nomatch heq
    · intro j
      show ((s.put i t).thread j).place ≠ .advancing
      rcases hother j with heq | heq
      · rw [heq]
        exact fun heq => nomatch heq
      · rw [heq]
        exact fun heq => nomatch heq
    · show s.left.toNat = Threads.total _ (s.put i t).thread
      rw [hleft]
      refine (Threads.total_eq_zero.mpr ?_).symm
      intro j
      exact weight_of_ne (by rw [hadded' j]; exact Nat.ne_of_lt (Nat.lt_succ_self _))

/-! ### All steps -/

omit [DecidableEq ι] in
theorem Inv.start (n step : UInt64) : Inv 0 n (initial ι n step) where
  total := rfl
  fine := fun _ => ⟨rfl, rfl, rfl⟩
  progress := .gathering (fun _ heq => nomatch heq) (fun _ heq => nomatch heq)
    (Threads.total_eq_zero.mpr fun _ => rfl).symm

omit [Fintype ι] in
/-- A thread that waits in the round that is under way goes on waiting. -/
theorem reach_waits (hfine : (s.thread i).Fine rounds s.step n)
    (hwaits : (s.thread i).Waits rounds) : s.reach i = s := by
  unfold reach
  dsimp only
  rw [(hfine.waiting hwaits).1]
  exact if_pos rfl

/-- One access of one thread while the threads gather. -/
theorem Inv.reachGathering (h : Inv rounds n s) (hcard : Fintype.card ι = n.toNat)
    (htwo : 2 ≤ n.toNat) (hlast : ∀ j, (s.thread j).place ≠ .last)
    (hadv : ∀ j, (s.thread j).place ≠ .advancing)
    (hleft : s.left.toNat = Threads.total (Thread.weight rounds) s.thread) (i : ι) :
    Inv rounds n (s.reach i) := by
  have hpred : (n - 1).toNat = n.toNat - 1 :=
    UInt64.toNat_sub_of_le _ _ (UInt64.le_iff_toNat_le.mpr (Nat.le_of_succ_le htwo))
  have hfine := h.fine i
  unfold Thread.Fine at hfine
  unfold reach
  dsimp only
  cases hplace : (s.thread i).place with
  | idle =>
      rw [hplace] at hfine
      obtain ⟨hstarted, hadded, hreturned⟩ := hfine
      have hne : s.total - 1 ≠ 0 := by
        intro hzero
        rw [h.total] at hzero
        rw [hzero] at hpred
        have hnone : (0 : UInt64).toNat = 0 := rfl
        omega
      dsimp only
      rw [if_neg hne]
      refine h.move hlast hadv hleft ?_ ⟨(fun heq => nomatch heq), fun heq => nomatch heq⟩ rfl
      exact ⟨by rw [h.total], by rw [hstarted], hadded, hreturned⟩
  | entered total =>
      rw [hplace] at hfine
      obtain ⟨htotal, hstarted, hadded, hreturned⟩ := hfine
      refine h.move hlast hadv hleft ?_ ⟨(fun heq => nomatch heq), fun heq => nomatch heq⟩ rfl
      exact ⟨htotal, rfl, hstarted, hadded, hreturned⟩
  | sampled total step =>
      rw [hplace] at hfine
      obtain ⟨rfl, rfl, hstarted, hadded, hreturned⟩ := hfine
      have hadded' : (s.thread i).added + 1 = rounds + 1 := by rw [hadded]
      dsimp only
      split
      next hfull =>
        refine h.addLast hcard hlast hadv hleft hadded rfl hstarted hadded' hreturned ?_
        rw [hfull, hpred]
        omega
      next => exact h.addWaiting hcard hlast hadv hleft hadded rfl hstarted hadded' hreturned
  | last => exact absurd hplace (hlast i)
  | advancing => exact absurd hplace (hadv i)
  | waiting step =>
      rw [hplace] at hfine
      dsimp only
      rcases hfine with ⟨rfl, -⟩ | ⟨hne, hstarted, hadded, hreturned⟩
      · rw [if_pos rfl]
        exact h
      · rw [if_neg (Ne.symm hne)]
        refine h.move hlast hadv hleft ?_ ⟨(fun heq => nomatch heq), fun heq => nomatch heq⟩ rfl
        exact ⟨hstarted, hadded, hreturned⟩

/-- One access of one thread. -/
theorem Inv.reach (h : Inv rounds n s) (hcard : Fintype.card ι = n.toNat) (htwo : 2 ≤ n.toNat)
    (i : ι) : ∃ rounds', Inv rounds' n (s.reach i) := by
  cases h.progress with
  | gathering hlast hadv hleft => exact ⟨rounds, h.reachGathering hcard htwo hlast hadv hleft i⟩
  | clearing j hplace hothers =>
      by_cases hij : i = j
      · subst hij
        have hfine := h.fine i
        unfold Thread.Fine at hfine
        rw [hplace] at hfine
        obtain ⟨hstarted, hadded, hreturned⟩ := hfine
        refine ⟨rounds, ?_⟩
        unfold Barrier.reach
        dsimp only
        rw [hplace]
        exact h.clear hothers rfl hstarted hadded hreturned
      · exact ⟨rounds, by rw [reach_waits (h.fine i) (hothers i hij)]; exact h⟩
  | advancing j hplace hleft hothers =>
      by_cases hij : i = j
      · subst hij
        have hfine := h.fine i
        unfold Thread.Fine at hfine
        rw [hplace] at hfine
        obtain ⟨hstarted, hadded, hreturned⟩ := hfine
        refine ⟨rounds + 1, ?_⟩
        unfold Barrier.reach
        dsimp only
        rw [hplace]
        exact h.complete hothers hleft rfl hstarted hadded (by rw [hreturned])
      · exact ⟨rounds, by rw [reach_waits (h.fine i) (hothers i hij)]; exact h⟩

theorem Reachable.inv (h : Reachable n step s) (hcard : Fintype.card ι = n.toNat)
    (htwo : 2 ≤ n.toNat) : ∃ rounds, Inv rounds n s := by
  induction h with
  | start => exact ⟨0, .start n step⟩
  | reach i _ ih =>
      obtain ⟨rounds, hinv⟩ := ih
      exact hinv.reach hcard htwo i

/-! ## What follows -/

omit [DecidableEq ι] [Fintype ι] in
theorem Thread.Fine.bounds (h : t.Fine rounds step n) :
    t.returned ≤ rounds ∧ rounds ≤ t.started := by
  unfold Thread.Fine at h
  split at h
  all_goals omega

omit [DecidableEq ι] in
theorem Inv.toSeparates (h : Inv rounds n s) : s.Separates := by
  constructor
  case started =>
    intro i j
    exact Nat.le_trans (h.fine i).bounds.1 (h.fine j).bounds.2
  case left =>
    intro i hi
    have hnone : ∀ j, (s.thread j).added ≠ rounds + 1 := by
      intro j heq
      have hle := Nat.le_trans (hi j) (h.fine i).bounds.1
      rw [heq] at hle
      exact Nat.not_succ_le_self rounds hle
    cases h.progress with
    | gathering _ _ hleft =>
        refine UInt64.toNat_inj.mp (hleft.trans ?_)
        exact Threads.total_eq_zero.mpr fun j => weight_of_ne (hnone j)
    | clearing j hplace _ =>
        have hfine := h.fine j
        unfold Thread.Fine at hfine
        rw [hplace] at hfine
        exact absurd hfine.2.1 (hnone j)
    | advancing _ _ hleft _ => exact hleft

/-- The barrier separates the rounds of as many threads as its total, at least two, in every
interleaving. -/
theorem separates {s : Barrier ι} (hcard : Fintype.card ι = n.toNat) (htwo : 2 ≤ n.toNat)
    (h : Reachable n step s) : s.Separates := by
  obtain ⟨rounds, hinv⟩ := h.inv hcard htwo
  exact hinv.toSeparates

/-- Two threads, where the second one has only made its first two accesses. -/
theorem separates_two :
    ((((((initial (Fin 2) 2 0).reach 0).reach 0).reach 0).reach 1).reach 1).Separates := by
  have hrun : Reachable 2 0 ((((((initial (Fin 2) 2 0).reach 0).reach 0).reach 0).reach 1).reach 1) :=
    .reach 1 (.reach 1 (.reach 0 (.reach 0 (.reach 0 .start))))
  exact separates (by decide) (by decide) hrun

end Barrier

end Beelzebub.Sync
