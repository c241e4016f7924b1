import Mathlib.Data.List.Basic
import Mathlib.Logic.Function.Basic
import Mathlib.Tactic.Common

/-!
# Trees of tables in a memory

A memory gives each frame an array of words, and some words link to further frames.
Following the links along a path of indices from a root leads to a table (`table`).  The
trees of several roots are apart when no word is met at two positions (`Separate`).

A store into such a memory is one of two kinds.  It leaves the links as they are, and
then all tables stay where they were (`table_congr_link`); or it hangs a blank frame
under a word that linked to nothing, and then that frame is the only new table
(`table_attach`).
-/

namespace Radix

variable {ρ F I W : Type*} {link : W → Option F} {mem mem' : F → I → W}

/-! ## Tables -/

/-- The table at the end of a path. -/
def table (link : W → Option F) (mem : F → I → W) : F → List I → Option F
  | t, [] => some t
  | t, i :: is => (link (mem t i)).bind fun f => table link mem f is

@[simp] theorem table_nil (t : F) : table link mem t [] = some t := rfl

theorem table_cons (t : F) (i : I) (is : List I) :
    table link mem t (i :: is) = (link (mem t i)).bind fun f => table link mem f is := rfl

theorem table_append (t : F) (p q : List I) :
    table link mem t (p ++ q) = (table link mem t p).bind fun f => table link mem f q := by
  induction p generalizing t with
  | nil => rfl
  | cons i p ih =>
      rw [List.cons_append, table_cons, table_cons, Option.bind_assoc]
      congr 1
      funext f
      exact ih f

/-- A path only reads the links along it. -/
theorem table_congr {t : F} {p : List I}
    (h : ∀ q i q', p = q ++ i :: q' → ∀ f, table link mem t q = some f →
      link (mem' f i) = link (mem f i)) : table link mem' t p = table link mem t p := by
  induction p generalizing t with
  | nil => rfl
  | cons i p ih =>
      rw [table_cons, table_cons, h [] i p rfl t rfl]
      cases hl : link (mem t i) with
      | none => rfl
      | some f =>
          refine ih fun q j q' hp f' hf' => ?_
          refine h (i :: q) j q' (congrArg (i :: ·) hp) f' ?_
          rw [table_cons, hl]
          exact hf'

/-- Where all words keep their links, all tables stay. -/
theorem table_congr_link (h : ∀ f i, link (mem' f i) = link (mem f i)) (t : F) (p : List I) :
    table link mem' t p = table link mem t p :=
  table_congr fun _ i _ _ f _ => h f i

/-! ## Stores -/

section Store

variable [DecidableEq F]

/-- Fills a frame with one word. -/
def fill (mem : F → I → W) (t : F) (w : W) : F → I → W := Function.update mem t fun _ => w

theorem fill_apply (t f : F) (i : I) (w : W) :
    fill mem t w f i = if f = t then w else mem f i := by
  unfold fill
  rw [Function.update_apply]
  split <;> rfl

variable [DecidableEq I]

/-- Stores a word. -/
def store (mem : F → I → W) (t : F) (i : I) (w : W) : F → I → W :=
  Function.update mem t (Function.update (mem t) i w)

theorem store_self (t : F) (i : I) (w : W) : store mem t i w t i = w := by
  rw [store, Function.update_self, Function.update_self]

theorem store_of_ne {t f : F} {i j : I} {w : W} (h : ¬(f = t ∧ j = i)) :
    store mem t i w f j = mem f j := by
  unfold store
  by_cases hf : f = t
  · subst hf
    rw [Function.update_self, Function.update_of_ne fun hj => h ⟨rfl, hj⟩]
  · rw [Function.update_of_ne hf]

theorem store_apply (t f : F) (i j : I) (w : W) :
    store mem t i w f j = if f = t ∧ j = i then w else mem f j := by
  split
  next h =>
    obtain ⟨rfl, rfl⟩ := h
    exact store_self f j w
  next h => exact store_of_ne h

/-- A store that keeps the link of its word. -/
theorem link_store {t : F} {i : I} {w : W} (h : link w = link (mem t i)) (f : F) (j : I) :
    link (store mem t i w f j) = link (mem f j) := by
  rw [store_apply]
  split
  next hf =>
    obtain ⟨rfl, rfl⟩ := hf
    exact h
  next => rfl

theorem table_store {t : F} {i : I} {w : W} (h : link w = link (mem t i)) (r : F) (p : List I) :
    table link (store mem t i w) r p = table link mem r p :=
  table_congr_link (link_store h) r p

end Store

/-! ## Forests -/

/-- The words of a forest: those at the end of valid paths. -/
structure Forest (ρ F I : Type*) where
  root : ρ → F
  valid : ρ → List I → Prop
  /-- What leads to a valid path is valid. -/
  valid_of_append : ∀ {r : ρ} {p q : List I}, p ≠ [] → valid r (p ++ q) → valid r p

variable {R : Forest ρ F I} {r r' : ρ} {p q : List I} {t f : F} {i j : I}

/-- The table with the word at the end of a path, in the given memory. -/
def Forest.Holds (R : Forest ρ F I) (link : W → Option F) (mem : F → I → W) (r : ρ) (p : List I)
    (i : I) (t : F) : Prop :=
  R.valid r (p ++ [i]) ∧ table link mem (R.root r) p = some t

/-- No word is met at two positions. -/
def Forest.Separate (R : Forest ρ F I) (link : W → Option F) (mem : F → I → W) : Prop :=
  ∀ {r r' : ρ} {p p' : List I} {i : I} {t : F}, R.Holds link mem r p i t →
    R.Holds link mem r' p' i t → r = r' ∧ p = p'

/-- No valid path leads to the frame. -/
def Forest.Unused (R : Forest ρ F I) (link : W → Option F) (mem : F → I → W) (f : F) : Prop :=
  ∀ {r : ρ} {p : List I} {i : I} {t : F}, R.Holds link mem r p i t → t ≠ f

/-- Where all valid paths lead to the same tables as before, the forest is as separate. -/
theorem Forest.Separate.congr (h : R.Separate link mem)
    (heq : ∀ {r p i}, R.valid r (p ++ [i]) →
      table link mem' (R.root r) p = table link mem (R.root r) p) : R.Separate link mem' := by
  intro r r' p p' i t h1 h2
  exact h ⟨h1.1, (heq h1.1).symm.trans h1.2⟩ ⟨h2.1, (heq h2.1).symm.trans h2.2⟩

/-- A store at the end of the longest paths moves no table. -/
theorem table_store_of_end [DecidableEq F] [DecidableEq I] {w : W} (hsep : R.Separate link mem)
    (hpos : R.Holds link mem r p i t) (hend : ∀ j, ¬R.valid r (p ++ [i, j]))
    (hq : R.valid r' (q ++ [j])) :
    table link (store mem t i w) (R.root r') q = table link mem (R.root r') q := by
  refine table_congr fun q₁ k q₂ hsplit f' hf' => ?_
  have hvalid : R.valid r' (q₁ ++ [k]) := by
    refine R.valid_of_append (q := q₂ ++ [j]) (by simp) ?_
    rw [hsplit] at hq
    simpa using hq
  rw [store_of_ne]
  rintro ⟨rfl, rfl⟩
  obtain ⟨rfl, rfl⟩ := hsep ⟨hvalid, hf'⟩ hpos
  -- the path goes on after the word
  obtain ⟨j', hj'⟩ : ∃ j', R.valid r' (q₁ ++ [k, j']) := by
    rw [hsplit] at hq
    cases q₂ with
    | nil => exact ⟨j, by simpa using hq⟩
    | cons j' q₂ =>
        refine ⟨j', R.valid_of_append (q := q₂ ++ [j]) (by simp) ?_⟩
        simpa using hq
  exact hend j' hj'

section Attach

variable [DecidableEq F] [DecidableEq I] {w blank : W}

/-- Hangs a blank frame under a word. -/
def attach (mem : F → I → W) (t : F) (i : I) (w : W) (f : F) (blank : W) : F → I → W :=
  fill (store mem t i w) f blank

theorem attach_apply (t f f' : F) (i j : I) (w blank : W) :
    attach mem t i w f blank f' j =
      if f' = f then blank else if f' = t ∧ j = i then w else mem f' j := by
  rw [attach, fill_apply, store_apply]

variable (hsep : R.Separate link mem) (hpos : R.Holds link mem r p i t)
  (hnone : link (mem t i) = none) (hlink : link w = some f) (hblank : link blank = none)
  (hunused : R.Unused link mem f)

include hsep hpos hunused

/-- A path that does not go through the word is as before. -/
theorem table_attach_of_not_below (hq : R.valid r' (q ++ [j]))
    (hne : ¬(r' = r ∧ (p ++ [i]) <+: q)) :
    table link (attach mem t i w f blank) (R.root r') q = table link mem (R.root r') q := by
  refine table_congr fun q₁ k q₂ hsplit f' hf' => ?_
  have hvalid : R.valid r' (q₁ ++ [k]) := by
    refine R.valid_of_append (q := q₂ ++ [j]) (by simp) ?_
    rw [hsplit] at hq
    simpa using hq
  have hholds : R.Holds link mem r' q₁ k f' := ⟨hvalid, hf'⟩
  rw [attach_apply, if_neg (hunused hholds)]
  split
  next hword =>
    obtain ⟨rfl, rfl⟩ := hword
    obtain ⟨rfl, rfl⟩ := hsep hholds hpos
    refine absurd ⟨rfl, ?_⟩ hne
    rw [hsplit]
    exact ⟨q₂, by simp⟩
  next => rfl

include hnone hlink hblank

/-- The frame is the only new table. -/
theorem table_attach [DecidableEq ρ] (hq : R.valid r' (q ++ [j])) :
    table link (attach mem t i w f blank) (R.root r') q =
      if r' = r ∧ q = p ++ [i] then some f else table link mem (R.root r') q := by
  by_cases hpre : r' = r ∧ (p ++ [i]) <+: q
  · obtain ⟨rfl, q₂, rfl⟩ := hpre
    have hp : table link (attach mem t i w f blank) (R.root r') p = some t := by
      rw [table_attach_of_not_below hsep hpos hunused hpos.1]
      · exact hpos.2
      · rintro ⟨-, h⟩
        have hlen := h.length_le
        rw [List.length_append] at hlen
        exact Nat.not_succ_le_self _ hlen
    have hword : link (attach mem t i w f blank t i) = some f := by
      rw [attach_apply, if_neg (hunused hpos), if_pos ⟨rfl, rfl⟩, hlink]
    have hleaf : ∀ k, link (attach mem t i w f blank f k) = none := by
      intro k
      rw [attach_apply, if_pos rfl, hblank]
    rw [List.append_assoc, table_append, table_append, hp, hpos.2]
    rw [Option.bind_some, Option.bind_some, List.singleton_append, table_cons, table_cons, hword,
      hnone, Option.bind_some, Option.bind_none]
    cases q₂ with
    | nil => exact (if_pos ⟨rfl, rfl⟩).symm
    | cons k q₂ =>
        rw [table_cons, hleaf, Option.bind_none, if_neg]
        rintro ⟨-, h⟩
        simp at h
  · rw [table_attach_of_not_below hsep hpos hunused hq hpre, if_neg]
    rintro ⟨rfl, rfl⟩
    exact hpre ⟨rfl, List.prefix_rfl⟩

/-- The forest with the new table. -/
theorem separate_attach [DecidableEq ρ] : R.Separate link (attach mem t i w f blank) := by
  intro r₁ r₂ p₁ p₂ k t' h₁ h₂
  have e₁ := h₁.2
  have e₂ := h₂.2
  rw [table_attach hsep hpos hnone hlink hblank hunused h₁.1] at e₁
  rw [table_attach hsep hpos hnone hlink hblank hunused h₂.1] at e₂
  split at e₁
  next hnew₁ =>
    obtain rfl := Option.some.inj e₁
    split at e₂
    next hnew₂ => exact ⟨hnew₁.1.trans hnew₂.1.symm, hnew₁.2.trans hnew₂.2.symm⟩
    next => exact absurd rfl (hunused ⟨h₂.1, e₂⟩)
  next =>
    split at e₂
    next =>
      obtain rfl := Option.some.inj e₂
      exact absurd rfl (hunused ⟨h₁.1, e₁⟩)
    next => exact hsep ⟨h₁.1, e₁⟩ ⟨h₂.1, e₂⟩

end Attach

end Radix
