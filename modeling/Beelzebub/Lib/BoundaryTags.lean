import Mathlib.Algebra.Ring.Nat
import Mathlib.Data.List.Basic
import Mathlib.Data.Nat.Notation
import Mathlib.Tactic.Common

/-!
# Chunks with boundary tags

A stretch of memory is cut into chunks.  Each chunk tells its size and where the one before it
starts.  `Tags size prev p s cs e` says that the chunks `cs` cover what is between `s` and `e`,
in this order, and that the first of them has `p` for the one before it.

A cover is split anywhere (`tags_append`), depends only on its own chunks (`tags_congr`), and can
be given another chunk in front of it (`Tags.relink`): this is all that merging and splitting
chunks needs.
-/

namespace BoundaryTags

/-- The last of the addresses, or `p`. -/
def lastOr : ℕ → List ℕ → ℕ
  | p, [] => p
  | _, c :: cs => lastOr c cs

@[simp] theorem lastOr_nil (p : ℕ) : lastOr p [] = p := rfl

@[simp] theorem lastOr_cons (p c : ℕ) (cs : List ℕ) : lastOr p (c :: cs) = lastOr c cs := rfl

@[simp] theorem lastOr_append (p : ℕ) (xs ys : List ℕ) :
    lastOr p (xs ++ ys) = lastOr (lastOr p xs) ys := by
  induction xs generalizing p with
  | nil => rfl
  | cons x xs ih => exact ih x

theorem getLast?_or (p : ℕ) (xs : List ℕ) : xs.getLast?.or (some p) = some (lastOr p xs) := by
  induction xs generalizing p with
  | nil => rfl
  | cons x xs ih =>
      rw [lastOr_cons, ← ih x]
      cases xs with
      | nil => rfl
      | cons y ys => simp [List.getLast?_cons]

theorem lastOr_mem {p : ℕ} {xs : List ℕ} (h : xs ≠ []) : lastOr p xs ∈ xs := by
  induction xs generalizing p with
  | nil => exact absurd rfl h
  | cons x xs ih =>
      cases xs with
      | nil => exact List.mem_cons_self
      | cons y ys => exact List.mem_cons_of_mem _ (ih (p := x) (List.cons_ne_nil y ys))

/-- What is in front of all the others is the last one only if there are no others. -/
theorem ite_lastOr {c v : ℕ} {xs : List ℕ} (h : ∀ x ∈ xs, c < x) :
    (if lastOr c xs = c then v else lastOr c xs) = lastOr v xs := by
  cases xs with
  | nil => exact if_pos rfl
  | cons x xs => exact if_neg (Nat.ne_of_gt (h _ (lastOr_mem (List.cons_ne_nil x xs))))

/-- A list ends in its last address. -/
theorem exists_concat {xs : List ℕ} (h : xs ≠ []) (p : ℕ) : ∃ ys, xs = ys ++ [lastOr p xs] := by
  induction xs generalizing p with
  | nil => exact absurd rfl h
  | cons x xs ih =>
      cases xs with
      | nil => exact ⟨[], rfl⟩
      | cons y ys =>
          obtain ⟨zs, hzs⟩ := ih (List.cons_ne_nil y ys) x
          refine ⟨x :: zs, ?_⟩
          rw [List.cons_append, lastOr_cons, ← hzs]

/-- The chunks `cs` are laid out from `s` to `e`, behind the chunk `p`. -/
def Tags (size prev : ℕ → ℕ) : ℕ → ℕ → List ℕ → ℕ → Prop
  | _, s, [], e => s = e
  | p, s, c :: cs, e => c = s ∧ prev c = p ∧ 0 < size c ∧ Tags size prev c (s + size c) cs e

variable {size prev size' prev' : ℕ → ℕ} {p q s e : ℕ} {xs ys cs : List ℕ} {c d : ℕ}

@[simp] theorem tags_nil : Tags size prev p s [] e ↔ s = e := Iff.rfl

@[simp] theorem tags_cons : Tags size prev p s (c :: cs) e ↔
    c = s ∧ prev c = p ∧ 0 < size c ∧ Tags size prev c (s + size c) cs e := Iff.rfl

theorem tags_append : Tags size prev p s (xs ++ ys) e ↔
    ∃ m, Tags size prev p s xs m ∧ Tags size prev (lastOr p xs) m ys e := by
  induction xs generalizing p s with
  | nil => simp
  | cons x xs ih =>
      rw [List.cons_append, tags_cons, ih]
      constructor
      · rintro ⟨rfl, hp, hpos, m, hxs, hys⟩
        exact ⟨m, ⟨rfl, hp, hpos, hxs⟩, hys⟩
      · rintro ⟨m, ⟨rfl, hp, hpos, hxs⟩, hys⟩
        exact ⟨rfl, hp, hpos, m, hxs, hys⟩

theorem tags_congr (hsize : ∀ c ∈ cs, size' c = size c) (hprev : ∀ c ∈ cs, prev' c = prev c) :
    Tags size' prev' p s cs e ↔ Tags size prev p s cs e := by
  induction cs generalizing p s with
  | nil => simp
  | cons c cs ih =>
      rw [tags_cons, tags_cons, hsize c List.mem_cons_self, hprev c List.mem_cons_self,
        ih (fun d hd => hsize d (List.mem_cons_of_mem _ hd))
          fun d hd => hprev d (List.mem_cons_of_mem _ hd)]

theorem Tags.le (h : Tags size prev p s cs e) : s ≤ e := by
  induction cs generalizing p s with
  | nil => exact Nat.le_of_eq h
  | cons c cs ih => exact Nat.le_trans (Nat.le_add_right _ _) (ih h.2.2.2)

/-- The chunks start and end between `s` and `e`. -/
theorem Tags.bounds (h : Tags size prev p s cs e) (hc : c ∈ cs) :
    s ≤ c ∧ 0 < size c ∧ c + size c ≤ e := by
  induction cs generalizing p s with
  | nil => cases hc
  | cons x xs ih =>
      obtain ⟨rfl, -, hpos, hxs⟩ := h
      rcases List.mem_cons.mp hc with rfl | hc'
      · exact ⟨Nat.le_refl c, hpos, hxs.le⟩
      · obtain ⟨hlow, hrest⟩ := ih hxs hc'
        exact ⟨by omega, hrest⟩

/-- Each chunk ends where a later one starts, or before. -/
theorem Tags.pairwise (h : Tags size prev p s cs e) :
    cs.Pairwise fun c d => c + size c ≤ d := by
  induction cs generalizing p s with
  | nil => exact List.Pairwise.nil
  | cons c cs ih =>
      obtain ⟨rfl, -, -, hcs⟩ := h
      exact List.Pairwise.cons (fun d hd => (hcs.bounds hd).1) (ih hcs)

theorem Tags.sorted (h : Tags size prev p s cs e) : cs.Pairwise (· < ·) := by
  refine h.pairwise.imp_of_mem fun hc _ hle => ?_
  have hpos := (h.bounds hc).2.1
  omega

/-- No chunk starts inside of another one. -/
theorem Tags.not_mem_inside (h : Tags size prev p s cs e) (hc : c ∈ cs) (hlow : c < d)
    (hupp : d < c + size c) : d ∉ cs := by
  intro hd
  obtain ⟨xs, ys, rfl⟩ := List.append_of_mem hc
  obtain ⟨-, hcys, hxc⟩ := List.pairwise_append.mp h.sorted
  rcases List.mem_append.mp hd with hd | hd
  · exact Nat.lt_asymm hlow (hxc d hd c List.mem_cons_self)
  · have hpair := (List.pairwise_append.mp h.pairwise).2.1
    rcases List.mem_cons.mp hd with rfl | hd
    · exact Nat.lt_irrefl _ hlow
    · exact Nat.not_le.mpr hupp ((List.pairwise_cons.mp hpair).1 d hd)

theorem Tags.nodup (h : Tags size prev p s cs e) : cs.Nodup := h.sorted.imp Nat.ne_of_lt

/-- The chunk in front of a cover is written at its first chunk. -/
theorem Tags.relink (h : Tags size prev p s cs e) (hsize : ∀ c ∈ cs, size' c = size c)
    (hhead : s < e → prev' s = q) (hprev : ∀ c ∈ cs, s < c → prev' c = prev c) :
    Tags size' prev' q s cs e := by
  cases cs with
  | nil => exact h
  | cons c cs =>
      have hlt : s < e := by
        have hbounds := h.bounds List.mem_cons_self
        omega
      obtain ⟨rfl, -, hpos, hcs⟩ := h
      refine ⟨rfl, hhead hlt, by rw [hsize c List.mem_cons_self]; exact hpos, ?_⟩
      rw [hsize c List.mem_cons_self]
      refine (tags_congr (fun d hd => hsize d (List.mem_cons_of_mem _ hd)) fun d hd => ?_).mpr hcs
      have hlow := (hcs.bounds hd).1
      exact hprev d (List.mem_cons_of_mem _ hd) (by omega)

/-- Between what is left as it is on both sides, chunks are laid out anew. -/
theorem Tags.splice {i j : ℕ} {ms : List ℕ} (hxs : Tags size prev p s xs i)
    (hms : Tags size' prev' (lastOr p xs) i ms j) (hys : Tags size prev q j ys e)
    (hsize : ∀ c, c < i ∨ j ≤ c → size' c = size c) (hprev : ∀ c, c < i ∨ j < c → prev' c = prev c)
    (hhead : j < e → prev' j = lastOr (lastOr p xs) ms) :
    Tags size' prev' p s (xs ++ (ms ++ ys)) e := by
  have hlow : ∀ c ∈ xs, c < i := fun c hc => by
    have hbounds := hxs.bounds hc
    omega
  refine tags_append.mpr ⟨i, ?_, tags_append.mpr ⟨j, hms, ?_⟩⟩
  · exact (tags_congr (fun c hc => hsize c (Or.inl (hlow c hc)))
      fun c hc => hprev c (Or.inl (hlow c hc))).mpr hxs
  · exact hys.relink (fun c hc => hsize c (Or.inr (hys.bounds hc).1)) hhead
      fun c _ hc => hprev c (Or.inr hc)

/-- The end of a cover is moved by the size of its last chunk. -/
theorem Tags.sum (h : Tags size prev p s cs e) : s + (cs.map size).sum = e := by
  induction cs generalizing p s with
  | nil => exact h
  | cons c cs ih =>
      have hsum := ih h.2.2.2
      rw [List.map_cons, List.sum_cons]
      omega

/-- If all sizes are at least `k`, there are not many chunks. -/
theorem Tags.length_mul_le {k : ℕ} (h : Tags size prev p s cs e) (hk : ∀ c ∈ cs, k ≤ size c) :
    s + cs.length * k ≤ e := by
  induction cs generalizing p s with
  | nil => simpa using h.le
  | cons c cs ih =>
      have hlen := ih h.2.2.2 fun d hd => hk d (List.mem_cons_of_mem _ hd)
      have hc := hk c List.mem_cons_self
      rw [List.length_cons, Nat.succ_mul]
      omega

/-- Chunks of whole lines start where lines do. -/
theorem Tags.dvd {k : ℕ} (h : Tags size prev p s cs e) (hs : k ∣ s) (hk : ∀ c ∈ cs, k ∣ size c)
    (hc : c ∈ cs) : k ∣ c := by
  induction cs generalizing p s with
  | nil => cases hc
  | cons x xs ih =>
      obtain ⟨rfl, -, -, hxs⟩ := h
      rcases List.mem_cons.mp hc with rfl | hc'
      · exact hs
      · exact ih hxs (Nat.dvd_add hs (hk x List.mem_cons_self))
          (fun d hd => hk d (List.mem_cons_of_mem _ hd)) hc'

/-- A cover is determined by the sizes. -/
theorem Tags.unique {prev' : ℕ → ℕ} {p' : ℕ} {cs' : List ℕ} (h : Tags size prev p s cs e)
    (h' : Tags size prev' p' s cs' e) : cs = cs' := by
  induction cs generalizing p s p' cs' with
  | nil =>
      cases cs' with
      | nil => rfl
      | cons c cs' =>
          have hbounds := h'.bounds List.mem_cons_self
          have hend : s = e := h
          omega
  | cons c cs ih =>
      cases cs' with
      | nil =>
          have hbounds := h.bounds List.mem_cons_self
          have hend : s = e := h'
          omega
      | cons c' cs' =>
          obtain ⟨rfl, -, -, hcs⟩ := h
          obtain ⟨rfl, -, -, hcs'⟩ := h'
          rw [ih hcs hcs']

end BoundaryTags
