import Beelzebub.Lib.Linked

/-!
# Lists through pointers to their links

A memory of several singly linked lists in which a link is addressed as such: it is the head of a
list, or the `next` field of a cell.  A loop that holds the address of a link needs no case for the
beginning of a list: it seeks a link, and stores to it.
-/

namespace Linked

/-- Where a link is stored. -/
inductive Slot (V α : Type*) where
  | head (v : V)
  | next (x : α)
  deriving DecidableEq

variable {V α : Type*}

abbrev Links (V α : Type*) := Slot V α → Option α

/-- The list from a slot on. -/
def From (l : Links V α) (slot : Slot V α) (xs : List α) : Prop :=
  Chain (fun x => l (.next x)) (l slot) xs

/-- The first slot that holds nothing, or a cell at which to stop, within so many rounds. -/
def seek (l : Links V α) (stop : α → Bool) : ℕ → Slot V α → Option (Slot V α)
  | 0, _ => none
  | rounds + 1, slot =>
      match l slot with
      | none => some slot
      | some x => if stop x then some slot else seek l stop rounds (.next x)

/-- The slot behind some cells. -/
def behind (slot : Slot V α) : List α → Slot V α
  | [] => slot
  | x :: xs => behind (.next x) xs

variable {l l' : Links V α} {slot : Slot V α} {x : α} {xs ys zs : List α} {stop : α → Bool}

@[simp] theorem from_nil : From l slot [] ↔ l slot = none := Iff.rfl

@[simp] theorem from_cons : From l slot (x :: xs) ↔ l slot = some x ∧ From l (.next x) xs := Iff.rfl

theorem From.head? (h : From l slot xs) : l slot = xs.head? := Chain.head? h

theorem From.nodup (h : From l slot xs) : xs.Nodup := Chain.nodup h

theorem from_congr (hslot : l' slot = l slot) (h : ∀ x ∈ xs, l' (.next x) = l (.next x)) :
    From l' slot xs ↔ From l slot xs := by
  unfold From
  rw [hslot]
  exact chain_congr h

theorem From.behind (h : From l slot (ys ++ zs)) : From l (behind slot ys) zs := by
  induction ys generalizing slot with
  | nil => exact h
  | cons y ys ih => exact ih h.2

/-- The slot behind some cells is the first one, or the field of one of them. -/
theorem behind_eq (slot : Slot V α) (ys : List α) :
    Linked.behind slot ys = slot ∨ ∃ y ∈ ys, Linked.behind slot ys = .next y := by
  induction ys generalizing slot with
  | nil => exact .inl rfl
  | cons y ys ih =>
      right
      rcases ih (.next y) with heq | ⟨z, hz, heq⟩
      · exact ⟨y, List.mem_cons_self, heq⟩
      · exact ⟨z, List.mem_cons_of_mem y hz, heq⟩

theorem behind_head_ne {v w : V} (hne : w ≠ v) (ys : List α) :
    Linked.behind (.head v) ys ≠ .head w := by
  rcases behind_eq (.head v) ys with heq | ⟨y, -, heq⟩
  · rw [heq]
    exact fun hhead => hne (Slot.head.inj hhead).symm
  · rw [heq]
    exact nofun

/-- The loop stops behind the cells at which it does not. -/
theorem From.seek (h : From l slot xs) {rounds : ℕ} (hrounds : xs.length < rounds) :
    ∃ ys zs, xs = ys ++ zs ∧ (∀ y ∈ ys, stop y = false) ∧ (∀ z ∈ zs.head?, stop z = true) ∧
      seek l stop rounds slot = some (Linked.behind slot ys) := by
  induction xs generalizing slot rounds with
  | nil =>
      obtain ⟨rounds, rfl⟩ := Nat.exists_eq_add_of_lt hrounds
      refine ⟨[], [], rfl, nofun, nofun, ?_⟩
      rw [Linked.seek, from_nil.mp h]
      rfl
  | cons x xs ih =>
      obtain ⟨rounds, rfl⟩ : ∃ n, rounds = n + 1 := ⟨rounds - 1, by omega⟩
      rw [List.length_cons] at hrounds
      rw [Linked.seek, h.1]
      cases hstop : stop x with
      | true =>
          refine ⟨[], x :: xs, rfl, nofun, fun z hz => ?_, if_pos hstop⟩
          rw [← Option.some.inj hz, hstop]
      | false =>
          obtain ⟨ys, zs, rfl, hys, hzs, hseek⟩ := ih h.2 (Nat.lt_of_succ_lt_succ hrounds)
          refine ⟨x :: ys, zs, rfl, List.forall_mem_cons.mpr ⟨hstop, hys⟩, hzs, ?_⟩
          dsimp only
          rw [if_neg (by rw [hstop]; exact Bool.false_ne_true)]
          exact hseek

variable [DecidableEq V] [DecidableEq α]

/-- A cell is stored in a slot, in front of what was there. -/
def Links.insert (l : Links V α) (slot : Slot V α) (x : α) : Links V α :=
  Function.update (Function.update l (.next x) (l slot)) slot (some x)

/-- What comes behind a cell is stored in the slot of the cell. -/
def Links.remove (l : Links V α) (slot : Slot V α) (x : α) : Links V α :=
  Function.update l slot (l (.next x))

theorem insert_of_ne {s : Slot V α} (hx : s ≠ .next x) (hs : s ≠ slot) :
    l.insert slot x s = l s := by
  unfold Links.insert
  rw [Function.update_of_ne hs, Function.update_of_ne hx]

theorem remove_of_ne {s : Slot V α} (hs : s ≠ slot) : l.remove slot x s = l s :=
  Function.update_of_ne hs _ _

/-- A new cell between cells of a list. -/
theorem From.insert (h : From l slot (ys ++ zs)) (hx : x ∉ ys ++ zs) (hslot : slot ≠ .next x)
    (hfield : ∀ y ∈ ys ++ zs, slot ≠ .next y) :
    From (l.insert (Linked.behind slot ys) x) slot (ys ++ x :: zs) := by
  induction ys generalizing slot with
  | nil =>
      have hnext : l.insert slot x (.next x) = l slot := by
        unfold Links.insert
        rw [Function.update_of_ne hslot.symm, Function.update_self]
      refine ⟨Function.update_self _ _ _, ?_⟩
      show Chain (fun y => l.insert slot x (.next y)) (l.insert slot x (.next x)) zs
      rw [hnext]
      refine (chain_congr fun z hz => insert_of_ne ?_ (hfield z hz).symm).mpr h
      rintro heq
      cases heq
      exact hx hz
  | cons y ys ih =>
      have hnodup := h.nodup
      rw [List.cons_append, List.nodup_cons] at hnodup
      rw [List.cons_append, List.mem_cons, not_or] at hx
      have hrest := ih h.2 hx.2 (fun heq => hx.1 (Slot.next.inj heq).symm)
        fun z hz heq => hnodup.1 (Slot.next.inj heq ▸ hz)
      refine ⟨?_, hrest⟩
      rw [insert_of_ne hslot]
      · exact h.1
      · rcases behind_eq (V := V) (.next y) ys with heq | ⟨z, hz, heq⟩
        · rw [Linked.behind, heq]
          exact hfield y List.mem_cons_self
        · rw [Linked.behind, heq]
          exact hfield z (List.mem_cons_of_mem y (List.mem_append_left zs hz))

/-- A list without one of its cells. -/
theorem From.remove (h : From l slot (ys ++ x :: zs))
    (hfield : ∀ y ∈ ys ++ x :: zs, slot ≠ .next y) :
    From (l.remove (Linked.behind slot ys) x) slot (ys ++ zs) := by
  induction ys generalizing slot with
  | nil =>
      have hself : l.remove slot x slot = l (.next x) := Function.update_self _ _ _
      show Chain (fun y => l.remove slot x (.next y)) (l.remove slot x slot) zs
      rw [hself]
      refine (chain_congr fun z hz => remove_of_ne ?_).mpr h.2
      exact (hfield z (List.mem_cons_of_mem x hz)).symm
  | cons y ys ih =>
      have hnodup := h.nodup
      rw [List.cons_append, List.nodup_cons] at hnodup
      have hrest := ih h.2 fun z hz heq => hnodup.1 (Slot.next.inj heq ▸ hz)
      refine ⟨?_, hrest⟩
      rw [remove_of_ne]
      · exact h.1
      · rcases behind_eq (V := V) (.next y) ys with heq | ⟨z, hz, heq⟩
        · rw [Linked.behind, heq]
          exact hfield y List.mem_cons_self
        · rw [Linked.behind, heq]
          exact hfield z (List.mem_cons_of_mem y (List.mem_append_left _ hz))

end Linked
