import Mathlib.Algebra.BigOperators.Group.Finset.Basic
import Mathlib.Algebra.Order.BigOperators.Group.Finset
import Mathlib.Algebra.Order.Group.Nat
import Mathlib.Data.Fintype.Card

/-!
# What threads contribute to a counter

A counter in shared memory is often the sum of what each thread has put in.  When one thread
moves on, the sum changes by the difference of its own part.
-/

namespace Beelzebub.Threads

variable {ι α : Type} [Fintype ι] {w v : α → ℕ} {f : ι → α} {i j : ι} {a : α}

/-- What the threads contribute together, when a thread at `a` contributes `w a`. -/
def total (w : α → ℕ) (f : ι → α) : ℕ := ∑ i, w (f i)

theorem total_const (a : α) (h : w a = 0) : total w (fun _ : ι => a) = 0 :=
  Finset.sum_eq_zero fun _ _ => h

/-- The thread's old part goes, its new one comes. -/
theorem total_update [DecidableEq ι] :
    total w (Function.update f i a) + w (f i) = total w f + w a := by
  have hrest : ∑ j ∈ Finset.univ.erase i, w (Function.update f i a j) =
      ∑ j ∈ Finset.univ.erase i, w (f j) :=
    Finset.sum_congr rfl fun j hj => by rw [Function.update_of_ne (Finset.ne_of_mem_erase hj)]
  have hnew := Finset.add_sum_erase Finset.univ (fun j => w (Function.update f i a j))
    (Finset.mem_univ i)
  have hold := Finset.add_sum_erase Finset.univ (fun j => w (f j)) (Finset.mem_univ i)
  rw [hrest, Function.update_self] at hnew
  unfold total
  omega

theorem total_move [DecidableEq ι] {b : α} (hi : f i = b) :
    total w (Function.update f i a) + w b = total w f + w a := by
  have h := total_update (w := w) (f := f) (i := i) (a := a)
  rw [hi] at h
  exact h

theorem total_add : total (fun a => w a + v a) f = total w f + total v f :=
  Finset.sum_add_distrib

theorem total_congr (h : ∀ i, w (f i) = v (f i)) : total w f = total v f :=
  Finset.sum_congr rfl fun i _ => h i

theorem le_total (w : α → ℕ) (f : ι → α) (i : ι) : w (f i) ≤ total w f :=
  Finset.single_le_sum (f := fun i => w (f i)) (fun _ _ => Nat.zero_le _) (Finset.mem_univ i)

/-- Two threads contribute no more than all. -/
theorem add_le_total [DecidableEq ι] (w : α → ℕ) (f : ι → α) (hij : i ≠ j) :
    w (f i) + w (f j) ≤ total w f := by
  have hold := Finset.add_sum_erase Finset.univ (fun j => w (f j)) (Finset.mem_univ i)
  have hj : w (f j) ≤ ∑ j ∈ Finset.univ.erase i, w (f j) :=
    Finset.single_le_sum (f := fun j => w (f j)) (fun _ _ => Nat.zero_le _)
      (Finset.mem_erase.mpr ⟨hij.symm, Finset.mem_univ j⟩)
  unfold total
  omega

/-- Threads that contribute one each contribute no more than there are. -/
theorem total_le_card (h : ∀ a, w a ≤ 1) : total w f ≤ Fintype.card ι := by
  rw [← Finset.card_univ, Finset.card_eq_sum_ones]
  exact Finset.sum_le_sum fun i _ => h (f i)

/-- Where they contribute as much as there are, each of them contributes. -/
theorem eq_one_of_total (h : ∀ a, w a ≤ 1) (hcard : total w f = Fintype.card ι) (i : ι) :
    w (f i) = 1 := by
  rw [← Finset.card_univ, Finset.card_eq_sum_ones] at hcard
  exact (Finset.sum_eq_sum_iff_of_le fun i _ => h (f i)).mp hcard i (Finset.mem_univ i)

theorem total_eq_zero : total w f = 0 ↔ ∀ i, w (f i) = 0 := by
  unfold total
  rw [Finset.sum_eq_zero_iff]
  exact ⟨fun h i => h i (Finset.mem_univ i), fun h i _ => h i⟩

theorem exists_of_total_pos (h : 0 < total w f) : ∃ i, 0 < w (f i) := by
  by_contra hnone
  have hzero : total w f = 0 := total_eq_zero.mpr fun i => by
    by_contra hi
    exact hnone ⟨i, Nat.pos_of_ne_zero hi⟩
  omega

end Beelzebub.Threads
