import Mathlib.Data.Finset.Card
import Mathlib.Data.List.Basic
import Mathlib.Data.List.Induction
import Mathlib.Data.Nat.Notation
import Mathlib.Logic.Function.Iterate
import Mathlib.Tactic.Common

/-!
# Linked lists in a memory

A memory gives each cell a `next` link and, for doubly linked lists, a `prev`
link.  `Seg next prev p xs n` says that the cells `xs` are chained in this order
in both directions, that the first one points back to `p` and that the last one
points on to `n`.  `Chain next s xs` is the singly linked form: following `next`
from `s` visits exactly `xs` and then ends.

A segment splits at every point (`seg_append`) and depends only on the links of
its own cells (`seg_congr`), so an update of a few cells is checked at these
cells alone.
-/

namespace Linked

variable {α : Type*}

/-! ## Doubly linked segments -/

/-- The cells `xs` are doubly linked, between `p` and `n`. -/
def Seg (next prev : α → Option α) : Option α → List α → Option α → Prop
  | _, [], _ => True
  | p, x :: xs, n => prev x = p ∧ next x = xs.head?.or n ∧ Seg next prev (some x) xs n

variable {next prev next' prev' : α → Option α}

@[simp] theorem seg_nil {p n : Option α} : Seg next prev p [] n := trivial

@[simp] theorem seg_cons {p n : Option α} {x : α} {xs : List α} :
    Seg next prev p (x :: xs) n ↔
      prev x = p ∧ next x = xs.head?.or n ∧ Seg next prev (some x) xs n := Iff.rfl

theorem head?_append_or (xs ys : List α) (n : Option α) :
    (xs ++ ys).head?.or n = xs.head?.or (ys.head?.or n) := by
  cases xs <;> simp

/-- A segment is cut at any point: the left part ends at the head of the right
part, which points back to the last cell of the left part. -/
theorem seg_append {p n : Option α} {xs ys : List α} :
    Seg next prev p (xs ++ ys) n ↔
      Seg next prev p xs (ys.head?.or n) ∧ Seg next prev (xs.getLast?.or p) ys n := by
  induction xs generalizing p with
  | nil => simp
  | cons x xs ih =>
      have hlast : (x :: xs).getLast?.or p = xs.getLast?.or (some x) := by
        cases xs with
        | nil => simp
        | cons y ys => simp [List.getLast?_cons]
      rw [List.cons_append, seg_cons, seg_cons, ih, head?_append_or, hlast]
      constructor
      · rintro ⟨h1, h2, h3, h4⟩
        exact ⟨⟨h1, h2, h3⟩, h4⟩
      · rintro ⟨⟨h1, h2, h3⟩, h4⟩
        exact ⟨h1, h2, h3, h4⟩

/-- A segment only reads the links of its own cells. -/
theorem seg_congr {p n : Option α} {xs : List α}
    (hn : ∀ x ∈ xs, next' x = next x) (hp : ∀ x ∈ xs, prev' x = prev x) :
    Seg next' prev' p xs n ↔ Seg next prev p xs n := by
  induction xs generalizing p with
  | nil => simp
  | cons x xs ih =>
      have hx : x ∈ x :: xs := List.mem_cons_self
      rw [seg_cons, seg_cons, hn x hx, hp x hx,
        ih (fun y hy => hn y (List.mem_cons_of_mem _ hy))
          (fun y hy => hp y (List.mem_cons_of_mem _ hy))]

/-- The neighbours of a cell in the middle of a segment. -/
theorem seg_middle {p n : Option α} {xs ys : List α} {x : α}
    (h : Seg next prev p (xs ++ x :: ys) n) :
    prev x = xs.getLast?.or p ∧ next x = ys.head?.or n := by
  obtain ⟨-, h⟩ := seg_append.mp h
  exact ⟨h.1, h.2.1⟩

/-- The cell after the one at a position. -/
theorem Seg.next_getElem? {p : Option α} {xs : List α} (h : Seg next prev p xs none) {k : ℕ}
    {x : α} (hk : xs[k]? = some x) : next x = xs[k + 1]? := by
  induction xs generalizing p k with
  | nil => cases hk
  | cons y ys ih =>
      obtain ⟨-, hn, hs⟩ := h
      cases k with
      | zero =>
          obtain rfl := Option.some.inj hk
          rw [hn, Option.or_none, List.head?_eq_getElem?]
          rfl
      | succ k => exact ih hs hk

/-- The links of a whole list stay in it. -/
theorem Seg.mem_of_next {xs : List α} (h : Seg next prev none xs none) {x y : α} (hx : x ∈ xs)
    (hy : next x = some y) : y ∈ xs := by
  obtain ⟨as, bs, rfl⟩ := List.append_of_mem hx
  obtain ⟨-, hn⟩ := seg_middle h
  rw [hy, Option.or_none] at hn
  exact List.mem_append_right _ (List.mem_cons_of_mem _ (List.mem_of_mem_head? hn.symm))

theorem Seg.mem_of_prev {xs : List α} (h : Seg next prev none xs none) {x y : α} (hx : x ∈ xs)
    (hy : prev x = some y) : y ∈ xs := by
  obtain ⟨as, bs, rfl⟩ := List.append_of_mem hx
  obtain ⟨hp, -⟩ := seg_middle h
  rw [hy, Option.or_none] at hp
  exact List.mem_append_left _ (List.mem_of_getLast? hp.symm)

/-- In a doubly linked list without repetition, the two links are inverse. -/
theorem Seg.next_eq_iff_prev_eq {xs : List α} (h : Seg next prev none xs none) (hnd : xs.Nodup)
    {x y : α} (hx : x ∈ xs) (hy : y ∈ xs) : next x = some y ↔ prev y = some x := by
  obtain ⟨as, bs, rfl⟩ := List.append_of_mem hx
  obtain ⟨cs, ds, heq⟩ := List.append_of_mem hy
  obtain ⟨-, hnext⟩ := seg_middle h
  rw [hnext, Option.or_none]
  constructor
  · intro hb
    obtain ⟨bs', rfl⟩ := List.head?_eq_some_iff.mp hb
    have hsplit : as ++ x :: y :: bs' = (as ++ [x]) ++ y :: bs' := by simp
    rw [hsplit] at h
    simpa using (seg_middle h).1
  · intro hprev
    rw [heq] at h hnd
    rw [(seg_middle h).1, Option.or_none] at hprev
    obtain ⟨cs', rfl⟩ := List.getLast?_eq_some_iff.mp hprev
    have hsplit : (cs' ++ [x]) ++ y :: ds = cs' ++ x :: y :: ds := by simp
    rw [hsplit] at heq hnd
    obtain ⟨hc, hd⟩ : x ∉ cs' ∧ x ∉ y :: ds := by
      refine ⟨fun hc => ?_, (List.nodup_cons.mp (List.nodup_append.mp hnd).2.1).1⟩
      exact (List.nodup_append.mp hnd).2.2 x hc x (by simp) rfl
    obtain ⟨-, -, rfl⟩ := (List.append_cons_inj_of_notMem hc hd).mp heq.symm
    rfl

/-- Redirecting the last cell of a segment. -/
theorem seg_relink_last {p n m : Option α} {xs : List α} (h : Seg next prev p xs n)
    (hnd : xs.Nodup) (hnext : ∀ x ∈ xs, xs.getLast? ≠ some x → next' x = next x)
    (hlast : ∀ x ∈ xs.getLast?, next' x = m) (hprev : ∀ x ∈ xs, prev' x = prev x) :
    Seg next' prev' p xs m := by
  induction xs generalizing p with
  | nil => trivial
  | cons x xs ih =>
      obtain ⟨h1, h2, h3⟩ := h
      obtain ⟨hx, hnd'⟩ := List.nodup_cons.mp hnd
      cases xs with
      | nil => exact ⟨(hprev x (by simp)).trans h1, by simpa using hlast x (by simp), trivial⟩
      | cons y ys =>
          rw [List.getLast?_cons_cons] at hnext hlast
          refine ⟨(hprev x (by simp)).trans h1, ?_, ?_⟩
          · rw [hnext x (by simp) (fun hl => hx (List.mem_of_getLast? hl)), h2]
            rfl
          · exact ih h3 hnd' (fun z hz => hnext z (List.mem_cons_of_mem _ hz)) hlast
              (fun z hz => hprev z (List.mem_cons_of_mem _ hz))

/-- Redirecting the first cell of a segment backwards. -/
theorem seg_relink_head {p q n : Option α} {xs : List α} (h : Seg next prev p xs n)
    (hnd : xs.Nodup) (hnext : ∀ x ∈ xs, next' x = next x)
    (hprev : ∀ x ∈ xs, xs.head? ≠ some x → prev' x = prev x)
    (hhead : ∀ x ∈ xs.head?, prev' x = q) :
    Seg next' prev' q xs n := by
  cases xs with
  | nil => trivial
  | cons x xs =>
      obtain ⟨-, h2, h3⟩ := h
      obtain ⟨hx, -⟩ := List.nodup_cons.mp hnd
      refine ⟨hhead x rfl, (hnext x (by simp)).trans h2, ?_⟩
      refine (seg_congr (fun y hy => hnext y (List.mem_cons_of_mem _ hy)) (fun y hy => ?_)).mpr h3
      refine hprev y (List.mem_cons_of_mem _ hy) ?_
      rintro ⟨⟩
      exact hx hy

/-- Replacing a stretch of cells: the cells on both sides are redirected to the
new stretch, which is linked between them. -/
theorem seg_splice {p n : Option α} {xs ys zs ws : List α}
    (h : Seg next prev p (xs ++ (ys ++ ws)) n) (hnd : (xs ++ (ys ++ ws)).Nodup) (hzs : zs ≠ [])
    (hnext : ∀ x ∈ xs, xs.getLast? ≠ some x → next' x = next x)
    (hlast : ∀ x ∈ xs.getLast?, next' x = zs.head?) (hprev : ∀ x ∈ xs, prev' x = prev x)
    (hnext' : ∀ x ∈ ws, next' x = next x)
    (hprev' : ∀ x ∈ ws, ws.head? ≠ some x → prev' x = prev x)
    (hhead : ∀ x ∈ ws.head?, prev' x = zs.getLast?)
    (hz : Seg next' prev' (xs.getLast?.or p) zs (ws.head?.or n)) :
    Seg next' prev' p (xs ++ (zs ++ ws)) n := by
  obtain ⟨h1, h2⟩ := seg_append.mp h
  obtain ⟨-, h3⟩ := seg_append.mp h2
  obtain ⟨hnd1, hnd2, -⟩ := List.nodup_append.mp hnd
  obtain ⟨-, hnd3, -⟩ := List.nodup_append.mp hnd2
  have hhd : (zs ++ ws).head?.or n = zs.head? := by
    cases zs with
    | nil => exact absurd rfl hzs
    | cons z zs => simp
  have hlt : zs.getLast?.or (xs.getLast?.or p) = zs.getLast? := by
    cases hz : zs.getLast? with
    | none => exact absurd (List.getLast?_eq_none_iff.mp hz) hzs
    | some z => simp
  refine seg_append.mpr ⟨?_, seg_append.mpr ⟨hz, ?_⟩⟩
  · rw [hhd]
    exact seg_relink_last h1 hnd1 hnext hlast hprev
  · rw [hlt]
    exact seg_relink_head h3 hnd3 hnext' hprev' hhead

/-- Removing a cell: its neighbours are redirected to each other. -/
theorem seg_remove {p n : Option α} {xs ys : List α} {x : α}
    (h : Seg next prev p (xs ++ x :: ys) n) (hnd : (xs ++ x :: ys).Nodup)
    (hnext : ∀ y ∈ xs, xs.getLast? ≠ some y → next' y = next y)
    (hlast : ∀ y ∈ xs.getLast?, next' y = next x) (hprev : ∀ y ∈ xs, prev' y = prev y)
    (hnext' : ∀ y ∈ ys, next' y = next y)
    (hprev' : ∀ y ∈ ys, ys.head? ≠ some y → prev' y = prev y)
    (hhead : ∀ y ∈ ys.head?, prev' y = prev x) :
    Seg next' prev' p (xs ++ ys) n := by
  obtain ⟨hp, hn⟩ := seg_middle h
  obtain ⟨h1, -, -, h2⟩ := seg_append.mp h
  obtain ⟨hnd1, hnd2, -⟩ := List.nodup_append.mp hnd
  rw [hn] at hlast
  rw [hp] at hhead
  exact seg_append.mpr ⟨seg_relink_last h1 hnd1 hnext hlast hprev,
    seg_relink_head h2 (List.nodup_cons.mp hnd2).2 hnext' hprev' hhead⟩

/-! ## Links through a sentinel -/

/-- A link that uses `null` for the end of the list. -/
def link [DecidableEq α] (null x : α) : Option α := if x = null then none else some x

section Link

variable [DecidableEq α] {null x y : α}

@[simp] theorem link_null : link null null = none := if_pos rfl

theorem link_of_ne (h : x ≠ null) : link null x = some x := if_neg h

theorem link_eq_none : link null x = none ↔ x = null := by
  by_cases h : x = null <;> simp [link, h]

theorem link_eq_some : link null x = some y ↔ x = y ∧ x ≠ null := by
  by_cases h : x = null <;> simp [link, h]

end Link

/-! ## Singly linked chains -/

/-- Following `next` from `s` visits exactly `xs`. -/
def Chain (next : α → Option α) : Option α → List α → Prop
  | s, [] => s = none
  | s, x :: xs => s = some x ∧ Chain next (next x) xs

@[simp] theorem chain_nil {s : Option α} : Chain next s [] ↔ s = none := Iff.rfl

@[simp] theorem chain_cons {s : Option α} {x : α} {xs : List α} :
    Chain next s (x :: xs) ↔ s = some x ∧ Chain next (next x) xs := Iff.rfl

theorem chain_congr {s : Option α} {xs : List α} (h : ∀ x ∈ xs, next' x = next x) :
    Chain next' s xs ↔ Chain next s xs := by
  induction xs generalizing s with
  | nil => simp
  | cons x xs ih =>
      rw [chain_cons, chain_cons, h x List.mem_cons_self,
        ih fun y hy => h y (List.mem_cons_of_mem _ hy)]

theorem Chain.head? {s : Option α} {xs : List α} (h : Chain next s xs) : s = xs.head? := by
  cases xs with
  | nil => exact h
  | cons x xs => exact h.1

/-- A chain goes on from each of its cells. -/
theorem Chain.suffix {s : Option α} {xs ys : List α} {x : α} (h : Chain next s (xs ++ x :: ys)) :
    Chain next (some x) (x :: ys) := by
  induction xs generalizing s with
  | nil => exact ⟨rfl, h.2⟩
  | cons y xs ih => exact ih h.2

/-- Another chain is linked behind the last cell. -/
theorem Chain.append {s : Option α} {xs ys : List α} {y : α} (h : Chain next s (xs ++ [y]))
    (hsame : ∀ x ∈ xs, next' x = next x) (hys : Chain next' (next' y) ys) :
    Chain next' s (xs ++ [y] ++ ys) := by
  induction xs generalizing s with
  | nil => exact ⟨h.1, hys⟩
  | cons x xs ih =>
      refine ⟨h.1, ?_⟩
      rw [hsame x List.mem_cons_self]
      exact ih h.2 fun w hw => hsame w (List.mem_cons_of_mem _ hw)

/-- A cell without a successor is linked behind the last one. -/
theorem Chain.concat {s : Option α} {xs : List α} {y z : α} (h : Chain next s (xs ++ [y]))
    (hsame : ∀ x ∈ xs, next' x = next x) (hy : next' y = some z) (hz : next' z = none) :
    Chain next' s (xs ++ [y] ++ [z]) :=
  h.append hsame ⟨hy, hz⟩

/-- The cells visited are determined by the start. -/
theorem Chain.unique {s : Option α} {xs ys : List α} (hx : Chain next s xs)
    (hy : Chain next s ys) : xs = ys := by
  induction xs generalizing s ys with
  | nil =>
      cases ys with
      | nil => rfl
      | cons y ys => rw [chain_nil.mp hx] at hy; cases hy.1
  | cons x xs ih =>
      obtain ⟨rfl, hx'⟩ := hx
      cases ys with
      | nil => cases hy
      | cons y ys =>
          obtain ⟨hxy, hy'⟩ := hy
          cases hxy
          rw [ih hx' hy']

/-- A chain ends, and so it comes to no cell twice. -/
theorem Chain.nodup {s : Option α} {xs : List α} (h : Chain next s xs) : xs.Nodup := by
  induction xs generalizing s with
  | nil => exact List.nodup_nil
  | cons x xs ih =>
      refine List.nodup_cons.mpr ⟨?_, ih h.2⟩
      intro hx
      obtain ⟨ys, zs, rfl⟩ := List.append_of_mem hx
      have hlong : Chain next (some x) (x :: (ys ++ x :: zs)) := ⟨rfl, h.2⟩
      have hshort : Chain next (some x) (x :: zs) := h.2.suffix
      have hlength := congrArg List.length (hlong.unique hshort)
      simp only [List.length_cons, List.length_append] at hlength
      omega

/-- Removing a cell: the one before it, or the start, is redirected to the one behind it. -/
theorem Chain.remove {s : Option α} {xs ys : List α} {x : α} (h : Chain next s (xs ++ x :: ys))
    (hnd : xs.Nodup) (hlast : ∀ y, xs.getLast? = some y → next' y = next x)
    (hsame : ∀ y ∈ xs, xs.getLast? ≠ some y → next' y = next y)
    (hys : ∀ y ∈ ys, next' y = next y) :
    Chain next' (if xs.isEmpty then next x else s) (xs ++ ys) := by
  induction xs generalizing s with
  | nil => exact (chain_congr hys).mpr h.2
  | cons y xs ih =>
      obtain ⟨hs, hrest⟩ := h
      obtain ⟨hy, hnd'⟩ := List.nodup_cons.mp hnd
      refine ⟨hs, ?_⟩
      cases xs with
      | nil =>
          rw [hlast y rfl]
          exact (chain_congr hys).mpr hrest.2
      | cons z xs =>
          rw [List.getLast?_cons_cons] at hlast hsame
          rw [hsame y List.mem_cons_self fun hl => hy (List.mem_of_getLast? hl)]
          exact ih hrest hnd' hlast fun w hw => hsame w (List.mem_cons_of_mem _ hw)

/-- Following `next` from `s` visits exactly `xs` and arrives at `e`. -/
def Path (next : α → Option α) (e : Option α) : Option α → List α → Prop
  | s, [] => s = e
  | s, x :: xs => s = some x ∧ Path next e (next x) xs

theorem path_congr {s e : Option α} {xs : List α} (h : ∀ x ∈ xs, next' x = next x) :
    Path next' e s xs ↔ Path next e s xs := by
  induction xs generalizing s with
  | nil => exact Iff.rfl
  | cons x xs ih =>
      rw [Path, Path, h x List.mem_cons_self, ih fun y hy => h y (List.mem_cons_of_mem _ hy)]

theorem Path.concat {s e : Option α} {xs : List α} {x : α} (h : Path next (some x) s xs)
    (hx : next x = e) : Path next e s (xs ++ [x]) := by
  induction xs generalizing s with
  | nil => exact ⟨h, hx⟩
  | cons y ys ih => exact ⟨h.1, ih h.2⟩

/-- A chain from where a path arrives continues it. -/
theorem Path.chain {s e : Option α} {xs ys : List α} (h : Path next e s xs)
    (hy : Chain next e ys) : Chain next s (xs ++ ys) := by
  induction xs generalizing s with
  | nil =>
      rw [Path] at h
      rw [h]
      exact hy
  | cons x xs ih => exact ⟨h.1, ih h.2⟩

/-- A chain of consecutive indices. -/
theorem chain_range' {next : ℕ → Option ℕ} {i n : ℕ}
    (h : ∀ j, i ≤ j → j < i + n → next j = if j + 1 < i + n then some (j + 1) else none) :
    Chain next (if n = 0 then none else some i) (List.range' i n) := by
  induction n generalizing i with
  | zero => rfl
  | succ n ih =>
      rw [List.range'_succ, if_neg (Nat.succ_ne_zero n)]
      refine ⟨rfl, ?_⟩
      rw [h i (Nat.le_refl i) (by omega)]
      have hih := ih (i := i + 1) fun j hj hjn => by
        rw [h j (by omega) (by omega)]
        congr 1
        exact propext (by omega)
      have hstart : (if i + 1 < i + (n + 1) then some (i + 1) else none) =
          if n = 0 then none else some (i + 1) := by
        split_ifs <;> first | rfl | omega
      rwa [hstart]

/-- A doubly linked list read forwards is a chain. -/
theorem Seg.chain {p : Option α} {xs : List α} (h : Seg next prev p xs none) :
    Chain next xs.head? xs := by
  induction xs generalizing p with
  | nil => rfl
  | cons x xs ih =>
      obtain ⟨-, hn, hs⟩ := h
      refine ⟨rfl, ?_⟩
      rw [hn, Option.or_none]
      exact ih hs

/-- Read backwards it is a chain too. -/
theorem Seg.chain_prev {n : Option α} {xs : List α} (h : Seg next prev none xs n) :
    Chain prev xs.getLast? xs.reverse := by
  induction xs using List.reverseRecOn generalizing n with
  | nil => rfl
  | append_singleton xs x ih =>
      obtain ⟨hs, hp, -, -⟩ := seg_append.mp h
      rw [List.reverse_append, List.getLast?_append]
      refine ⟨rfl, ?_⟩
      rw [hp, Option.or_none]
      exact ih hs

/-! ## Links without an end -/

/-- Where the cells are numbered below `n`, a cell that following `f` leads to is reached within
`n` steps, or one of the same kind is. -/
theorem exists_iterate_lt {f : α → α} {x : α} {g : α → ℕ} {P : α → Prop} {m n : ℕ}
    (hg : Function.Injective g) (hP : P (f^[m] x)) (hlt : ∀ k ≤ m, g (f^[k] x) < n) :
    ∃ k < n, k ≤ m ∧ P (f^[k] x) := by
  induction m using Nat.strong_induction_on with
  | _ m ih =>
      rcases Nat.lt_or_ge m n with hm | hm
      · exact ⟨m, hm, Nat.le_refl m, hP⟩
      -- Of more steps than there are numbers, two lead to the same cell.
      · obtain ⟨i, j, hij, hj, hsame⟩ : ∃ i j, i < j ∧ j ≤ m ∧ f^[i] x = f^[j] x := by
          have hcard : (Finset.range n).card < (Finset.range (m + 1)).card := by
            rw [Finset.card_range, Finset.card_range]
            exact Nat.lt_succ_of_le hm
          obtain ⟨i, hi, j, hj, hne, heq⟩ := Finset.exists_ne_map_eq_of_card_lt_of_maps_to hcard
            (f := fun k => g (f^[k] x)) fun k hk =>
              Finset.mem_coe.mpr (Finset.mem_range.mpr
                (hlt k (Nat.lt_succ_iff.mp (Finset.mem_range.mp (Finset.mem_coe.mp hk)))))
          rw [Finset.mem_range] at hi hj
          rcases Nat.lt_or_gt_of_ne hne with hlt | hlt
          · exact ⟨i, j, hlt, Nat.lt_succ_iff.mp hj, hg heq⟩
          · exact ⟨j, i, hlt, Nat.lt_succ_iff.mp hi, (hg heq).symm⟩
        have hshort : f^[m] x = f^[m - j + i] x := by
          rw [Function.iterate_add_apply, hsame, ← Function.iterate_add_apply, Nat.sub_add_cancel hj]
        rw [hshort] at hP
        obtain ⟨k, hk, hkm, hPk⟩ := ih (m - j + i) (by omega) hP fun k hk => hlt k (by omega)
        exact ⟨k, hk, by omega, hPk⟩

end Linked
