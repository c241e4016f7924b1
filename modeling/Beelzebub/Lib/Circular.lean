import Mathlib.Data.List.Basic
import Mathlib.Data.Nat.ModEq
import Mathlib.Data.Nat.Notation
import Mathlib.Tactic.Common

/-!
# A queue in circular memory

The elements of a queue are numbered from its start on, and number `p` is kept at `p % cap`.
Runs of elements that do not go past the end are read and written at once.
-/

namespace Beelzebub.Circular

variable {α : Type} {memory memory' : ℕ → α} {cap start stop p q n : ℕ} {xs ys : List α}

/-- What is at `offset` and behind it. -/
def read (memory : ℕ → α) (offset n : ℕ) : List α :=
  (List.range n).map fun k => memory (offset + k)

def write (memory : ℕ → α) (offset : ℕ) (ys : List α) : ℕ → α := fun j =>
  if offset ≤ j then (ys[j - offset]?).getD (memory j) else memory j

/-- The elements `start` to `stop` of the queue `xs` are in memory. -/
def Stores (memory : ℕ → α) (cap start stop : ℕ) (xs : List α) : Prop :=
  ∀ p, start ≤ p → p < stop → xs[p]? = some (memory (p % cap))

theorem mod_add_lt (p n : ℕ) (h : p % cap + n < cap) : (p + n) % cap = p % cap + n := by
  rw [Nat.add_mod, Nat.mod_eq_of_lt (a := n) (Nat.lt_of_le_of_lt (Nat.le_add_left n _) h),
    Nat.mod_eq_of_lt h]

/-- Numbers less than `cap` apart have places of their own. -/
theorem mod_ne_mod (h : p < q) (hlt : q < p + cap) : p % cap ≠ q % cap := by
  intro heq
  have hdvd : cap ∣ q - p := (Nat.modEq_iff_dvd' (Nat.le_of_lt h)).mp heq
  have hle := Nat.le_of_dvd (Nat.sub_pos_of_lt h) hdvd
  omega

theorem write_of_lt {offset j k : ℕ} (hj : j = offset + k) (hk : k < ys.length) :
    write memory offset ys j = ys[k] := by
  subst hj
  unfold write
  rw [if_pos (Nat.le_add_right offset k), Nat.add_sub_cancel_left, List.getElem?_eq_getElem hk]
  rfl

theorem write_of_outside {offset j : ℕ} (h : j < offset ∨ offset + ys.length ≤ j) :
    write memory offset ys j = memory j := by
  unfold write
  split
  next hle =>
    rw [List.getElem?_eq_none (by omega)]
    rfl
  next => rfl

/-- What is written for number `q`, in a run from number `p` on that does not go past the end. -/
theorem write_mod (hfit : p % cap + ys.length ≤ cap) (hle : p ≤ q) (hlt : q - p < ys.length) :
    write memory (p % cap) ys (q % cap) = ys[q - p] := by
  have hmod := mod_add_lt p (q - p) (show p % cap + (q - p) < cap by omega)
  rw [Nat.add_sub_cancel' hle] at hmod
  exact write_of_lt hmod hlt

/-- A run of numbers leaves the place of another number that is less than `cap` away. -/
theorem write_mod_of_ne (hfit : p % cap + ys.length ≤ cap) (hq : q < p ∨ p + ys.length ≤ q)
    (hlow : p + ys.length ≤ q + cap) (hhigh : q < p + cap) :
    write memory (p % cap) ys (q % cap) = memory (q % cap) := by
  refine write_of_outside ?_
  by_contra hin
  -- The place is that of a number of the run.
  have hmod := mod_add_lt p (q % cap - p % cap)
    (show p % cap + (q % cap - p % cap) < cap by omega)
  rcases hq with hq | hq
  · have hne : q % cap ≠ (p + (q % cap - p % cap)) % cap := mod_ne_mod (by omega) (by omega)
    omega
  · have hne : (p + (q % cap - p % cap)) % cap ≠ q % cap := mod_ne_mod (by omega) (by omega)
    omega

theorem Stores.mono {start' : ℕ} (h : Stores memory cap start stop xs) (hle : start ≤ start') :
    Stores memory cap start' stop xs :=
  fun p hp hp' => h p (Nat.le_trans hle hp) hp'

/-- Elements are appended that all fit before the end, and overwrite none that is kept. -/
theorem Stores.append (h : Stores memory cap start xs.length xs)
    (hfit : xs.length % cap + ys.length ≤ cap) (hroom : xs.length + ys.length ≤ start + cap) :
    Stores (write memory (xs.length % cap) ys) cap start (xs ++ ys).length (xs ++ ys) := by
  intro p hp hp'
  rw [List.length_append] at hp'
  by_cases hold : p < xs.length
  · rw [List.getElem?_append_left hold, h p hp hold,
      write_mod_of_ne hfit (Or.inl hold) (by omega) (by omega)]
  · have hle := Nat.le_of_not_lt hold
    have hk : p - xs.length < ys.length := by omega
    rw [List.getElem?_append_right hle, List.getElem?_eq_getElem hk, write_mod hfit hle hk]

/-- A run that does not go past the end is read off. -/
theorem Stores.read (h : Stores memory cap start stop xs) (hp : start ≤ p) (hn : p + n ≤ stop)
    (hfit : p % cap + n ≤ cap) : read memory (p % cap) n = (xs.drop p).take n := by
  refine List.ext_getElem? fun i => ?_
  unfold Circular.read
  rw [List.getElem?_map, List.getElem?_take]
  by_cases hi : i < n
  · have hmod := mod_add_lt p i (show p % cap + i < cap by omega)
    rw [List.getElem?_range hi, if_pos hi, List.getElem?_drop, h (p + i) (by omega) (by omega), hmod]
    rfl
  · rw [List.getElem?_eq_none (by rw [List.length_range]; omega), if_neg hi]
    rfl

end Beelzebub.Circular
