import Mathlib.Data.List.Basic
import Mathlib.Tactic.Common
import Mathlib.Order.Basic

/-!
# Lists of intervals that tile a range

`Tiles start stop lo rs hi` says that the half-open intervals `[start r, stop r)`
of the list `rs` are non-empty and follow each other without gap or overlap from
`lo` to `hi`.  Each point of the range then lies in exactly one interval, and
the list splits there (`Tiles.exists_split`).  `paint` reads such a list as a
map from points to the label of the interval around them.
-/

namespace Tiling

variable {β γ : Type*} {start stop : β → ℕ}

/-- The intervals of the list tile `[lo, hi)`, in order. -/
def Tiles (start stop : β → ℕ) : ℕ → List β → ℕ → Prop
  | lo, [], hi => lo = hi
  | lo, r :: rs, hi => start r = lo ∧ start r < stop r ∧ Tiles start stop (stop r) rs hi

@[simp] theorem tiles_nil {lo hi : ℕ} : Tiles start stop lo [] hi ↔ lo = hi := Iff.rfl

@[simp] theorem tiles_cons {lo hi : ℕ} {r : β} {rs : List β} :
    Tiles start stop lo (r :: rs) hi ↔
      start r = lo ∧ start r < stop r ∧ Tiles start stop (stop r) rs hi := Iff.rfl

theorem tiles_append {lo hi : ℕ} {rs ss : List β} :
    Tiles start stop lo (rs ++ ss) hi ↔
      ∃ m, Tiles start stop lo rs m ∧ Tiles start stop m ss hi := by
  induction rs generalizing lo with
  | nil => simp
  | cons r rs ih =>
      rw [List.cons_append, tiles_cons, ih]
      constructor
      · rintro ⟨h1, h2, m, h3, h4⟩
        exact ⟨m, ⟨h1, h2, h3⟩, h4⟩
      · rintro ⟨m, ⟨h1, h2, h3⟩, h4⟩
        exact ⟨h1, h2, m, h3, h4⟩

theorem Tiles.le {lo hi : ℕ} {rs : List β} (h : Tiles start stop lo rs hi) : lo ≤ hi := by
  induction rs generalizing lo with
  | nil => exact Nat.le_of_eq h
  | cons r rs ih =>
      obtain ⟨h1, h2, h3⟩ := h
      have := ih h3
      omega

/-- Every interval of the list lies in the range and is not empty. -/
theorem Tiles.bounds {lo hi : ℕ} {rs : List β} (h : Tiles start stop lo rs hi) {r : β}
    (hr : r ∈ rs) : lo ≤ start r ∧ start r < stop r ∧ stop r ≤ hi := by
  obtain ⟨xs, ys, rfl⟩ := List.append_of_mem hr
  obtain ⟨m, hx, hm, hlt, hy⟩ := tiles_append.mp h
  have := hx.le
  have := hy.le
  omega

/-- The intervals before and after a given one lie below and above it. -/
theorem Tiles.split {lo hi : ℕ} {xs ys : List β} {r : β}
    (h : Tiles start stop lo (xs ++ r :: ys) hi) :
    Tiles start stop lo xs (start r) ∧ start r < stop r ∧ Tiles start stop (stop r) ys hi := by
  obtain ⟨m, hx, hm, hlt, hy⟩ := tiles_append.mp h
  exact ⟨hm ▸ hx, hlt, hy⟩

theorem tiles_split {lo hi : ℕ} {xs ys : List β} {r : β} :
    Tiles start stop lo (xs ++ r :: ys) hi ↔
      Tiles start stop lo xs (start r) ∧ start r < stop r ∧ Tiles start stop (stop r) ys hi := by
  refine ⟨Tiles.split, ?_⟩
  rintro ⟨hx, hlt, hy⟩
  exact tiles_append.mpr ⟨start r, hx, rfl, hlt, hy⟩

theorem tiles_concat {lo hi : ℕ} {xs : List β} {r : β} :
    Tiles start stop lo (xs ++ [r]) hi ↔
      Tiles start stop lo xs (start r) ∧ start r < stop r ∧ stop r = hi := by
  rw [tiles_split, tiles_nil]

/-- Each point of the range lies in one of the intervals. -/
theorem Tiles.exists_split {lo hi x : ℕ} {rs : List β} (h : Tiles start stop lo rs hi)
    (hlo : lo ≤ x) (hhi : x < hi) :
    ∃ xs r ys, rs = xs ++ r :: ys ∧ start r ≤ x ∧ x < stop r := by
  induction rs generalizing lo with
  | nil => exact absurd (tiles_nil.mp h) (by omega)
  | cons r rs ih =>
      obtain ⟨h1, h2, h3⟩ := h
      rcases Nat.lt_or_ge x (stop r) with hx | hx
      · exact ⟨[], r, rs, rfl, by omega, hx⟩
      · obtain ⟨xs, s, ys, hrs, hs⟩ := ih h3 hx
        exact ⟨r :: xs, s, ys, by rw [hrs, List.cons_append], hs⟩

/-- A point lies in at most one interval of a tiling. -/
theorem Tiles.eq_of_mem {lo hi x : ℕ} {rs : List β} (h : Tiles start stop lo rs hi) {r s : β}
    (hr : r ∈ rs) (hs : s ∈ rs) (hrx : start r ≤ x ∧ x < stop r)
    (hsx : start s ≤ x ∧ x < stop s) : r = s := by
  obtain ⟨xs, ys, rfl⟩ := List.append_of_mem hr
  obtain ⟨h1, h2, h3⟩ := h.split
  simp only [List.mem_append, List.mem_cons] at hs
  rcases hs with hs | rfl | hs
  · have := h1.bounds hs
    omega
  · rfl
  · have := h3.bounds hs
    omega

/-- The intervals of a tiling are in ascending order. -/
theorem Tiles.pairwise {lo hi : ℕ} {rs : List β} (h : Tiles start stop lo rs hi) :
    rs.Pairwise fun r s => stop r ≤ start s := by
  induction rs generalizing lo with
  | nil => exact List.Pairwise.nil
  | cons r rs ih =>
      obtain ⟨-, -, h3⟩ := h
      exact List.Pairwise.cons (fun s hs => (h3.bounds hs).1) (ih h3)

/-- No interval of a tiling occurs twice. -/
theorem Tiles.nodup {lo hi : ℕ} {rs : List β} (h : Tiles start stop lo rs hi) : rs.Nodup := by
  refine h.pairwise.imp_of_mem fun {r s} hr hs hrs => ?_
  rintro rfl
  have := h.bounds hr
  omega

/-- Replacing a stretch of a tiling by another tiling of the same stretch. -/
theorem Tiles.replace {lo hi : ℕ} {xs rs ss ys : List β} {m n : ℕ}
    (h : Tiles start stop lo (xs ++ rs ++ ys) hi) (hr : Tiles start stop m rs n)
    (hne : rs ≠ []) (hs : Tiles start stop m ss n) :
    Tiles start stop lo (xs ++ ss ++ ys) hi := by
  obtain ⟨n', hxr, hy⟩ := tiles_append.mp h
  obtain ⟨m', hx, hr'⟩ := tiles_append.mp hxr
  have hm : m' = m := by
    cases rs with
    | nil => exact absurd rfl hne
    | cons r rs => exact hr'.1.symm.trans hr.1
  have hn : n' = n := by
    subst hm
    clear hxr h hx hne hs
    induction rs generalizing m' with
    | nil => exact hr'.symm.trans hr
    | cons r rs ih => exact ih _ hr'.2.2 hr.2.2
  subst hm hn
  exact tiles_append.mpr ⟨n', tiles_append.mpr ⟨m', hx, hs⟩, hy⟩

/-! ## Reading a tiling as a map -/

/-- The label of the first interval around a point. -/
def paint (start stop : β → ℕ) (label : β → γ) : List β → ℕ → Option γ
  | [], _ => none
  | r :: rs, x =>
      if start r ≤ x ∧ x < stop r then some (label r) else paint start stop label rs x

variable {label : β → γ}

@[simp] theorem paint_nil {x : ℕ} : paint start stop label [] x = none := rfl

theorem paint_cons {r : β} {rs : List β} {x : ℕ} :
    paint start stop label (r :: rs) x =
      if start r ≤ x ∧ x < stop r then some (label r) else paint start stop label rs x := rfl

theorem paint_append {rs ss : List β} {x : ℕ} :
    paint start stop label (rs ++ ss) x =
      (paint start stop label rs x).or (paint start stop label ss x) := by
  induction rs with
  | nil => simp
  | cons r rs ih =>
      rw [List.cons_append, paint_cons, paint_cons, ih]
      split <;> simp

/-- A tiling says nothing outside its range. -/
theorem Tiles.paint_eq_none {lo hi x : ℕ} {rs : List β} (h : Tiles start stop lo rs hi)
    (hx : x < lo ∨ hi ≤ x) : paint start stop label rs x = none := by
  induction rs generalizing lo with
  | nil => rfl
  | cons r rs ih =>
      obtain ⟨h1, h2, h3⟩ := h
      have hle := h3.le
      rw [paint_cons, if_neg (by omega)]
      exact ih h3 (by omega)

/-- In its range a tiling gives the label of the interval around the point. -/
theorem Tiles.paint_eq {lo hi x : ℕ} {xs ys : List β} {r : β}
    (h : Tiles start stop lo (xs ++ r :: ys) hi) (hx : start r ≤ x ∧ x < stop r) :
    paint start stop label (xs ++ r :: ys) x = some (label r) := by
  obtain ⟨h1, -, -⟩ := h.split
  rw [paint_append, h1.paint_eq_none (Or.inr hx.1), Option.none_or, paint_cons, if_pos hx]

end Tiling
