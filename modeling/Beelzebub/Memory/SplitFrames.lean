import Beelzebub.Lib.Linked
import Beelzebub.Memory.Pmm
import Mathlib.Data.Finset.Card
import Mathlib.Order.Interval.Finset.Nat

/-!
# Split frames

The pseudo-stack of free small frames within a split frame: `Stacked d xs` says
that it visits `xs`, the free small frames, and that they are counted.  Splitting
builds such a stack, taking pops it and giving pushes it.
-/

namespace Beelzebub.Memory

open Linked

namespace LargeFrameDescriptor

variable {d : LargeFrameDescriptor} {xs : List Nat}

/-- The link from a small frame to the next one. -/
def smallNext (d : LargeFrameDescriptor) (i : Nat) : Option Nat :=
  link SmallFrameDescriptor.nullIndex (d.small i).nextIndex

/-- The stack of free small frames visits exactly `xs`. -/
structure Stacked (d : LargeFrameDescriptor) (xs : List Nat) : Prop where
  chain : Chain d.smallNext (link SmallFrameDescriptor.nullIndex d.extras.nextFree) xs
  nodup : xs.Nodup
  mem_iff : ∀ i, i ∈ xs ↔ (1 ≤ i ∧ i ≤ subDescriptorsCount) ∧ (d.small i).status = .free
  count : d.extras.freeCount = xs.length

theorem Stacked.length_le (h : d.Stacked xs) : xs.length ≤ subDescriptorsCount := by
  have hsub : xs.toFinset ⊆ Finset.Icc 1 subDescriptorsCount := by
    intro i hi
    rw [List.mem_toFinset, h.mem_iff] at hi
    exact Finset.mem_Icc.mpr hi.1
  have hcard := Finset.card_le_card hsub
  rwa [List.toFinset_card_of_nodup h.nodup, Nat.card_Icc, Nat.add_sub_cancel] at hcard

/-- A small frame that is not free is missing from the stack. -/
theorem Stacked.length_lt (h : d.Stacked xs) {i : Nat}
    (hi : 1 ≤ i ∧ i ≤ subDescriptorsCount) (hs : (d.small i).status ≠ .free) :
    xs.length < subDescriptorsCount := by
  have hsub : xs.toFinset ⊆ (Finset.Icc 1 subDescriptorsCount).erase i := by
    intro j hj
    rw [List.mem_toFinset, h.mem_iff] at hj
    refine Finset.mem_erase.mpr ⟨?_, Finset.mem_Icc.mpr hj.1⟩
    rintro rfl
    exact hs hj.2
  have hcard := Finset.card_le_card hsub
  rw [List.toFinset_card_of_nodup h.nodup, Finset.card_erase_of_mem (Finset.mem_Icc.mpr hi),
    Nat.card_Icc] at hcard
  unfold subDescriptorsCount at hcard ⊢
  omega

/-- If all small frames are free, all are on the stack. -/
theorem Stacked.length_eq_of_free (h : d.Stacked xs)
    (hfree : ∀ i, 1 ≤ i → i ≤ subDescriptorsCount → (d.small i).status = .free) :
    xs.length = subDescriptorsCount := by
  have hsub : Finset.Icc 1 subDescriptorsCount ⊆ xs.toFinset := by
    intro i hi
    have hi := Finset.mem_Icc.mp hi
    rw [List.mem_toFinset, h.mem_iff]
    exact ⟨hi, hfree i hi.1 hi.2⟩
  have hcard := Finset.card_le_card hsub
  rw [List.toFinset_card_of_nodup h.nodup, Nat.card_Icc, Nat.add_sub_cancel] at hcard
  exact Nat.le_antisymm h.length_le hcard

/-! ## Reading updates -/

@[simp] theorem small_setSmall (d : LargeFrameDescriptor) (i : Nat) (s : SmallFrameDescriptor)
    (j : Nat) : (d.setSmall i s).small j = if j = i then s else d.small j :=
  Function.update_apply ..

theorem smallNext_setSmall (d : LargeFrameDescriptor) (i : Nat) (s : SmallFrameDescriptor)
    (j : Nat) : (d.setSmall i s).smallNext j =
      if j = i then link SmallFrameDescriptor.nullIndex s.nextIndex else d.smallNext j := by
  unfold smallNext
  rw [small_setSmall]
  split <;> rfl

/-- A change inside a large frame: the status and the links stay. -/
structure Inner (d d' : LargeFrameDescriptor) : Prop where
  status : d'.status = d.status
  nextIndex : d'.nextIndex = d.nextIndex
  subDescriptors : d'.subDescriptors = d.subDescriptors
  prevIndex : d'.extras.prevIndex = d.extras.prevIndex

/-! ## Taking and giving -/

theorem inner_takeSmall (d : LargeFrameDescriptor) (refCnt : Nat) :
    d.Inner (d.takeSmall refCnt) := ⟨rfl, rfl, rfl, rfl⟩

theorem inner_giveSmall (d : LargeFrameDescriptor) (i : Nat) : d.Inner (d.giveSmall i) :=
  ⟨rfl, rfl, rfl, rfl⟩

theorem inner_setSmall (d : LargeFrameDescriptor) (i : Nat) (s : SmallFrameDescriptor) :
    d.Inner (d.setSmall i s) := ⟨rfl, rfl, rfl, rfl⟩

/-- The first free small frame of a split frame with something left. -/
theorem Stacked.nextFree_eq {i : Nat} (h : d.Stacked (i :: xs)) : d.extras.nextFree = i :=
  (link_eq_some.mp h.chain.1).1

theorem Stacked.nextFree_eq_null_iff (h : d.Stacked xs) :
    d.extras.nextFree = SmallFrameDescriptor.nullIndex ↔ xs = [] := by
  rw [← link_eq_none, h.chain.head?, List.head?_eq_none_iff]

theorem small_takeSmall (d : LargeFrameDescriptor) (refCnt j : Nat) :
    (d.takeSmall refCnt).small j = if j = d.extras.nextFree then
      { d.small d.extras.nextFree with status := .used, referenceCount := refCnt }
      else d.small j := by
  show (d.setSmall _ _).small j = _
  rw [small_setSmall]
  rfl

/-- Taking a small frame pops the stack. -/
theorem Stacked.takeSmall {i : Nat} (h : d.Stacked (i :: xs)) (refCnt : Nat) :
    (d.takeSmall refCnt).Stacked xs := by
  have hi := h.nextFree_eq
  obtain ⟨hnot, hnd⟩ := List.nodup_cons.mp h.nodup
  have hnext : ∀ j ∈ xs, (d.takeSmall refCnt).smallNext j = d.smallNext j := by
    intro j hj
    rw [smallNext, small_takeSmall, hi, if_neg]
    · rfl
    · rintro rfl
      exact hnot hj
  refine ⟨?_, hnd, fun j => ?_, ?_⟩
  · rw [chain_congr hnext]
    have hchain := h.chain.2
    rw [smallNext, ← hi] at hchain
    exact hchain
  · rw [small_takeSmall, hi]
    have hmem := h.mem_iff j
    rw [List.mem_cons] at hmem
    split
    next hj =>
      subst hj
      exact ⟨fun hj => absurd hj hnot, fun hj => by cases hj.2⟩
    next hj => rw [← hmem, or_iff_right hj]
  · have hcount := h.count
    have hlen := h.length_le
    simp only [List.length_cons] at hcount hlen
    show (d.extras.freeCount + 0xFFFF) % 0x10000 = xs.length
    unfold subDescriptorsCount at hlen
    omega

theorem small_giveSmall (d : LargeFrameDescriptor) (i j : Nat) :
    (d.giveSmall i).small j = if j = i then
      { status := .free, referenceCount := 0, nextIndex := d.extras.nextFree } else d.small j := by
  show (d.setSmall _ _).small j = _
  rw [small_setSmall]
  rfl

/-- Giving a small frame pushes the stack. -/
theorem Stacked.giveSmall {i : Nat} (h : d.Stacked xs) (hi : 1 ≤ i ∧ i ≤ subDescriptorsCount)
    (hs : (d.small i).status ≠ .free) : (d.giveSmall i).Stacked (i :: xs) := by
  have hnot : i ∉ xs := fun hmem => hs ((h.mem_iff i).mp hmem).2
  have hnext : ∀ j ∈ xs, (d.giveSmall i).smallNext j = d.smallNext j := by
    intro j hj
    rw [smallNext, small_giveSmall, if_neg]
    · rfl
    · rintro rfl
      exact hnot hj
  have hlen := h.length_lt hi hs
  have hi' : i ≠ SmallFrameDescriptor.nullIndex := by
    unfold SmallFrameDescriptor.nullIndex
    omega
  refine ⟨⟨link_of_ne hi', ?_⟩, List.nodup_cons.mpr ⟨hnot, h.nodup⟩, fun j => ?_, ?_⟩
  · rw [chain_congr hnext, smallNext, small_giveSmall, if_pos rfl]
    exact h.chain
  · rw [small_giveSmall, List.mem_cons]
    split
    next hj =>
      subst hj
      exact ⟨fun _ => ⟨hi, rfl⟩, fun _ => Or.inl rfl⟩
    next hj => rw [or_iff_right hj, h.mem_iff]
  · show (d.extras.freeCount + 1) % 0x10000 = xs.length + 1
    have hcount := h.count
    unfold subDescriptorsCount at hlen
    omega

/-- A change of a used small frame that stays in use. -/
theorem Stacked.setSmall {i : Nat} {s : SmallFrameDescriptor} (h : d.Stacked xs)
    (hs : (d.small i).status ≠ .free) (hs' : s.status ≠ .free) : (d.setSmall i s).Stacked xs := by
  have hnot : i ∉ xs := fun hmem => hs ((h.mem_iff i).mp hmem).2
  refine ⟨?_, h.nodup, fun j => ?_, h.count⟩
  · refine (chain_congr fun j hj => ?_).mpr h.chain
    rw [smallNext_setSmall, if_neg]
    rintro rfl
    exact hnot hj
  · rw [h.mem_iff, small_setSmall]
    split
    next hj =>
      subst hj
      simp only [hs, hs']
    next => rfl

/-! ## Splitting -/

theorem small_setLastNext (d : LargeFrameDescriptor) (last i j : Nat) :
    (d.setLastNext last i).small j =
      if j = last ∧ last ≠ 0 then { d.small last with nextIndex := i } else d.small j := by
  unfold setLastNext
  by_cases hl : last = 0
  · simp [hl]
  · simp [hl]

theorem extras_setLastNext (d : LargeFrameDescriptor) (last i : Nat) :
    (d.setLastNext last i).extras =
      if last = 0 then { d.extras with nextFree := i } else d.extras := by
  unfold setLastNext
  by_cases hl : last = 0
  · simp [hl]
  · simp [hl, setSmall]

theorem inner_setLastNext (d : LargeFrameDescriptor) (last i : Nat) :
    d.Inner (d.setLastNext last i) := by
  unfold setLastNext
  split <;> exact ⟨rfl, rfl, rfl, rfl⟩

theorem Inner.trans {d' d'' : LargeFrameDescriptor} (h : d.Inner d') (h' : d'.Inner d'') :
    d.Inner d'' :=
  ⟨h'.status.trans h.status, h'.nextIndex.trans h.nextIndex,
    h'.subDescriptors.trans h.subDescriptors, h'.prevIndex.trans h.prevIndex⟩

theorem inner_stackSmall (d : LargeFrameDescriptor) (n i last : Nat) :
    d.Inner (stackSmall n i last d) := by
  induction n generalizing i last d with
  | zero => exact inner_setLastNext d last _
  | succ n ih =>
      exact ((inner_setLastNext d last i).trans (inner_setSmall _ i _)).trans (ih _ (i + 1) i)

theorem inner_reserveSmall (d : LargeFrameDescriptor) (n i : Nat) :
    d.Inner (reserveSmall n i d) := by
  induction n generalizing i d with
  | zero => exact ⟨rfl, rfl, rfl, rfl⟩
  | succ n ih => exact (inner_setSmall d i _).trans (ih _ (i + 1))

/-- The small frames that the loop constructs, each pointing to the next one. -/
theorem small_stackSmall (d : LargeFrameDescriptor) (n i last : Nat) (hlast : last < i) (j : Nat) :
    (stackSmall n i last d).small j =
      if i ≤ j ∧ j < i + n then
        { SmallFrameDescriptor.new with nextIndex := if j + 1 < i + n then j + 1 else 0 }
      else if j = last ∧ last ≠ 0 then
        { d.small last with nextIndex := if n = 0 then 0 else i }
      else d.small j := by
  induction n generalizing i last d with
  | zero =>
      have hout : ¬(i ≤ j ∧ j < i + 0) := by omega
      rw [stackSmall, small_setLastNext, if_neg hout]
      rfl
  | succ n ih =>
      rw [stackSmall, ih _ (i + 1) i (Nat.lt_succ_self i)]
      simp only [small_setSmall, small_setLastNext]
      rcases Nat.lt_trichotomy j i with hj | rfl | hj
      · have h1 : ¬(i + 1 ≤ j ∧ j < i + 1 + n) := by omega
        have h2 : ¬(j = i ∧ i ≠ 0) := by omega
        have h3 : ¬(i ≤ j ∧ j < i + (n + 1)) := by omega
        rw [if_neg h1, if_neg h2, if_neg h3, if_neg (Nat.ne_of_lt hj), if_neg (Nat.succ_ne_zero n)]
      · have h1 : ¬(j + 1 ≤ j ∧ j < j + 1 + n) := by omega
        have h2 : j = j ∧ j ≠ 0 := ⟨rfl, by omega⟩
        have h3 : j ≤ j ∧ j < j + (n + 1) := by omega
        have h4 : (if n = 0 then 0 else j + 1) = if j + 1 < j + (n + 1) then j + 1 else 0 := by
          split_ifs <;> omega
        rw [if_neg h1, if_pos h2, if_pos h3, if_pos trivial, h4]
      · have h2 : ¬(j = i ∧ i ≠ 0) := by omega
        have h3 : ¬(j = last ∧ last ≠ 0) := by omega
        have h4 : (i + 1 ≤ j ∧ j < i + 1 + n) ↔ i ≤ j ∧ j < i + (n + 1) := by omega
        have h5 : j + 1 < i + 1 + n ↔ j + 1 < i + (n + 1) := by omega
        simp only [if_neg h2, if_neg h3, if_neg (Nat.ne_of_gt hj), h4, h5]

theorem extras_stackSmall (d : LargeFrameDescriptor) (n i last : Nat) (hlast : last < i) :
    (stackSmall n i last d).extras =
      if last = 0 then { d.extras with nextFree := if n = 0 then 0 else i } else d.extras := by
  induction n generalizing i last d with
  | zero =>
      rw [stackSmall, extras_setLastNext]
      rfl
  | succ n ih =>
      rw [stackSmall, ih _ (i + 1) i (Nat.lt_succ_self i), if_neg (by omega)]
      show (d.setLastNext last i).extras = _
      rw [extras_setLastNext, if_neg (Nat.succ_ne_zero n)]

theorem small_reserveSmall (d : LargeFrameDescriptor) (n i j : Nat) :
    (reserveSmall n i d).small j =
      if i ≤ j ∧ j < i + n then { SmallFrameDescriptor.new with status := .reserved }
      else d.small j := by
  induction n generalizing i d with
  | zero => rw [reserveSmall, if_neg (by omega)]
  | succ n ih =>
      rw [reserveSmall, ih _ (i + 1), small_setSmall]
      by_cases hj : j = i
      · rw [if_neg (by omega), if_pos hj, if_pos (by omega)]
      · rw [if_neg hj]
        by_cases hn : i + 1 ≤ j ∧ j < i + 1 + n
        · rw [if_pos hn, if_pos (by omega)]
        · rw [if_neg hn, if_neg (by omega)]

theorem extras_reserveSmall (d : LargeFrameDescriptor) (n i : Nat) :
    (reserveSmall n i d).extras = d.extras := by
  induction n generalizing i d with
  | zero => rfl
  | succ n ih =>
      rw [reserveSmall, ih]
      rfl

section Split

variable (d) {cnt : Nat}

/-- The small frames after a split: `cnt` free ones, the rest reserved. -/
theorem small_splitLargeFrame (hcnt : cnt ≤ subDescriptorsCount) {j : Nat}
    (hj : 1 ≤ j ∧ j ≤ subDescriptorsCount) :
    (d.splitLargeFrame cnt).small j =
      if j ≤ cnt then { SmallFrameDescriptor.new with nextIndex := if j < cnt then j + 1 else 0 }
      else { SmallFrameDescriptor.new with status := .reserved } := by
  show (reserveSmall _ _ _).small j = _
  rw [small_reserveSmall, small_stackSmall _ _ _ _ Nat.one_pos]
  by_cases hle : j ≤ cnt
  · have h1 : ¬(cnt + 1 ≤ j ∧ j < cnt + 1 + (subDescriptorsCount - cnt)) := by omega
    have h2 : 1 ≤ j ∧ j < 1 + cnt := by omega
    have h3 : j + 1 < 1 + cnt ↔ j < cnt := by omega
    simp only [if_neg h1, if_pos h2, if_pos hle, h3]
  · rw [if_pos (by omega), if_neg hle]

theorem extras_splitLargeFrame (hpos : 0 < cnt) :
    (d.splitLargeFrame cnt).extras =
      { nextFree := 1, freeCount := cnt, prevIndex := SplitFrameExtra.nullIndex } := by
  have h : (reserveSmall (subDescriptorsCount - cnt) (cnt + 1)
      (stackSmall cnt 1 0 { d with extras := .new })).extras =
      { SplitFrameExtra.new with nextFree := 1 } := by
    rw [extras_reserveSmall, extras_stackSmall _ _ _ _ Nat.one_pos, if_pos rfl,
      if_neg (Nat.pos_iff_ne_zero.mp hpos)]
  show { (reserveSmall _ _ _).extras with freeCount := cnt } = _
  rw [h]
  rfl

theorem status_splitLargeFrame : (d.splitLargeFrame cnt).status = .split := rfl

theorem nextIndex_splitLargeFrame : (d.splitLargeFrame cnt).nextIndex = d.nextIndex :=
  (inner_reserveSmall _ _ _).nextIndex.trans (inner_stackSmall _ _ _ _).nextIndex

theorem subDescriptors_splitLargeFrame :
    (d.splitLargeFrame cnt).subDescriptors = d.subDescriptors :=
  (inner_reserveSmall _ _ _).subDescriptors.trans (inner_stackSmall _ _ _ _).subDescriptors

/-- Splitting stacks the free small frames in order. -/
theorem stacked_splitLargeFrame (cnt : Nat) (hpos : 0 < cnt) (hcnt : cnt ≤ subDescriptorsCount) :
    (d.splitLargeFrame cnt).Stacked (List.range' 1 cnt) := by
  have hnext : ∀ j, 1 ≤ j → j < 1 + cnt →
      (d.splitLargeFrame cnt).smallNext j = if j + 1 < 1 + cnt then some (j + 1) else none := by
    intro j hj hjc
    rw [smallNext, small_splitLargeFrame d hcnt ⟨hj, by omega⟩, if_pos (by omega)]
    by_cases hlt : j < cnt
    · rw [if_pos hlt, if_pos (by omega)]
      exact link_of_ne (Nat.succ_ne_zero j)
    · rw [if_neg hlt, if_neg (by omega)]
      exact link_null
  refine ⟨?_, List.nodup_range', fun j => ?_, ?_⟩
  · rw [extras_splitLargeFrame d hpos]
    have hchain := chain_range' hnext
    rwa [if_neg (Nat.pos_iff_ne_zero.mp hpos)] at hchain
  · rw [List.mem_range'_1]
    constructor
    · intro hj
      have hj' : 1 ≤ j ∧ j ≤ subDescriptorsCount := ⟨hj.1, by omega⟩
      refine ⟨hj', ?_⟩
      rw [small_splitLargeFrame d hcnt hj', if_pos (by omega)]
      rfl
    · rintro ⟨hj, hfree⟩
      refine ⟨hj.1, ?_⟩
      by_contra hle
      rw [small_splitLargeFrame d hcnt hj, if_neg (by omega)] at hfree
      cases hfree
  · rw [extras_splitLargeFrame d hpos, List.length_range']

end Split

end LargeFrameDescriptor

end Beelzebub.Memory
