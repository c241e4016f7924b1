import Beelzebub.Memory.SplitFrames

/-!
# The lists of an allocation space

Large frames that are free form a stack, split frames with something left form a
doubly linked list; both use `nextIndex`.  The lemmas here say what becomes of the
two lists under pushes, pops and removals, whatever else the operation changes.
-/

namespace Beelzebub.Memory

open Linked

namespace FrameAllocationSpace

open LargeFrameDescriptor (nullIndex subDescriptorsCount Stacked Inner)

/-- The status of a large frame. -/
def statusOf (space : FrameAllocationSpace) (i : Nat) : FrameStatus := (space.map i).status

/-- The link from a large frame to the next one. -/
def next (space : FrameAllocationSpace) (i : Nat) : Option Nat :=
  link nullIndex (space.map i).nextIndex

/-- The link from a split frame to the previous one. -/
def prev (space : FrameAllocationSpace) (i : Nat) : Option Nat :=
  link nullIndex (space.map i).extras.prevIndex

/-- The stack of free large frames visits exactly `L`. -/
structure LargeStack (space : FrameAllocationSpace) (L : List Nat) : Prop where
  chain : Chain space.next (link nullIndex space.largeFree) L
  nodup : L.Nodup
  mem_iff : ∀ i, i ∈ L ↔ i < space.largeFrameCount ∧ space.statusOf i = .free

/-- The list of split frames is `S`. -/
structure SplitList (space : FrameAllocationSpace) (S : List Nat) : Prop where
  seg : Seg space.next space.prev none S none
  head : link nullIndex space.splitFree = S.head?
  nodup : S.Nodup
  mem_iff : ∀ i, i ∈ S ↔ i < space.largeFrameCount ∧ space.statusOf i = .split

section Lists

variable {space space' : FrameAllocationSpace} {L S : List Nat} {i : Nat}

/-! ## The stack of free large frames -/

theorem LargeStack.largeFree_eq (h : space.LargeStack (i :: L)) :
    space.largeFree = i ∧ i ≠ nullIndex := by
  obtain ⟨heq, hne⟩ := link_eq_some.mp h.chain.1
  exact ⟨heq, heq ▸ hne⟩

theorem LargeStack.congr (h : space.LargeStack L) (hfree : space'.largeFree = space.largeFree)
    (hcount : space'.largeFrameCount = space.largeFrameCount)
    (hstatus : ∀ j, space'.statusOf j = .free ↔ space.statusOf j = .free)
    (hnext : ∀ j ∈ L, space'.next j = space.next j) : space'.LargeStack L := by
  refine ⟨?_, h.nodup, fun j => ?_⟩
  · rw [hfree, chain_congr hnext]
    exact h.chain
  · rw [hcount, hstatus, h.mem_iff]

theorem LargeStack.pop (h : space.LargeStack (i :: L))
    (hfree : link nullIndex space'.largeFree = space.next i)
    (hcount : space'.largeFrameCount = space.largeFrameCount) (hi : space'.statusOf i ≠ .free)
    (hstatus : ∀ j, j ≠ i → (space'.statusOf j = .free ↔ space.statusOf j = .free))
    (hnext : ∀ j ∈ L, space'.next j = space.next j) : space'.LargeStack L := by
  obtain ⟨hnot, hnd⟩ := List.nodup_cons.mp h.nodup
  refine ⟨?_, hnd, fun j => ?_⟩
  · rw [hfree, chain_congr hnext]
    exact h.chain.2
  · have hmem := h.mem_iff j
    rw [List.mem_cons] at hmem
    by_cases hj : j = i
    · subst hj
      exact ⟨fun hj => absurd hj hnot, fun hj => absurd hj.2 hi⟩
    · rw [hcount, hstatus j hj, ← hmem, or_iff_right hj]

theorem LargeStack.push (h : space.LargeStack L) (hi : i < space.largeFrameCount)
    (hnull : i ≠ nullIndex) (hused : space.statusOf i ≠ .free) (hfree : space'.largeFree = i)
    (hcount : space'.largeFrameCount = space.largeFrameCount)
    (hi' : space'.statusOf i = .free)
    (hstatus : ∀ j, j ≠ i → (space'.statusOf j = .free ↔ space.statusOf j = .free))
    (hnexti : space'.next i = link nullIndex space.largeFree)
    (hnext : ∀ j ∈ L, space'.next j = space.next j) : space'.LargeStack (i :: L) := by
  have hnot : i ∉ L := fun hmem => hused ((h.mem_iff i).mp hmem).2
  refine ⟨⟨?_, ?_⟩, List.nodup_cons.mpr ⟨hnot, h.nodup⟩, fun j => ?_⟩
  · rw [hfree]
    exact link_of_ne hnull
  · rw [hnexti, chain_congr hnext]
    exact h.chain
  · rw [List.mem_cons, hcount]
    by_cases hj : j = i
    · subst hj
      exact ⟨fun _ => ⟨hi, hi'⟩, fun _ => Or.inl rfl⟩
    · rw [or_iff_right hj, h.mem_iff, hstatus j hj]

/-! ## The list of split frames -/

theorem SplitList.splitFree_eq (h : space.SplitList (i :: S)) :
    space.splitFree = i ∧ i ≠ nullIndex := by
  obtain ⟨heq, hne⟩ := link_eq_some.mp h.head
  exact ⟨heq, heq ▸ hne⟩

theorem SplitList.congr (h : space.SplitList S) (hfree : space'.splitFree = space.splitFree)
    (hcount : space'.largeFrameCount = space.largeFrameCount)
    (hstatus : ∀ j, space'.statusOf j = .split ↔ space.statusOf j = .split)
    (hnext : ∀ j ∈ S, space'.next j = space.next j)
    (hprev : ∀ j ∈ S, space'.prev j = space.prev j) : space'.SplitList S := by
  refine ⟨(seg_congr hnext hprev).mpr h.seg, ?_, h.nodup, fun j => ?_⟩
  · rw [hfree, h.head]
  · rw [hcount, hstatus, h.mem_iff]

/-- The first split frame leaves the list. -/
theorem SplitList.pop (h : space.SplitList (i :: S))
    (hfree : link nullIndex space'.splitFree = space.next i)
    (hcount : space'.largeFrameCount = space.largeFrameCount) (hi : space'.statusOf i ≠ .split)
    (hstatus : ∀ j, j ≠ i → (space'.statusOf j = .split ↔ space.statusOf j = .split))
    (hnext : ∀ j ∈ S, space'.next j = space.next j)
    (hprev : ∀ j ∈ S, S.head? ≠ some j → space'.prev j = space.prev j)
    (hhead : ∀ j ∈ S.head?, space'.prev j = none) : space'.SplitList S := by
  obtain ⟨hnot, hnd⟩ := List.nodup_cons.mp h.nodup
  obtain ⟨-, hn, hseg⟩ := h.seg
  refine ⟨seg_relink_head hseg hnd hnext hprev hhead, ?_, hnd, fun j => ?_⟩
  · rw [hfree, hn, Option.or_none]
  · have hmem := h.mem_iff j
    rw [List.mem_cons] at hmem
    by_cases hj : j = i
    · subst hj
      exact ⟨fun hj => absurd hj hnot, fun hj => absurd hj.2 hi⟩
    · rw [hcount, hstatus j hj, ← hmem, or_iff_right hj]

/-- A frame joins the list at its front. -/
theorem SplitList.push (h : space.SplitList S) (hi : i < space.largeFrameCount)
    (hnull : i ≠ nullIndex) (hother : space.statusOf i ≠ .split) (hfree : space'.splitFree = i)
    (hcount : space'.largeFrameCount = space.largeFrameCount)
    (hi' : space'.statusOf i = .split)
    (hstatus : ∀ j, j ≠ i → (space'.statusOf j = .split ↔ space.statusOf j = .split))
    (hnexti : space'.next i = link nullIndex space.splitFree) (hprevi : space'.prev i = none)
    (hnext : ∀ j ∈ S, space'.next j = space.next j)
    (hprev : ∀ j ∈ S, S.head? ≠ some j → space'.prev j = space.prev j)
    (hhead : ∀ j ∈ S.head?, space'.prev j = some i) : space'.SplitList (i :: S) := by
  have hnot : i ∉ S := fun hmem => hother ((h.mem_iff i).mp hmem).2
  refine ⟨⟨hprevi, ?_, seg_relink_head h.seg h.nodup hnext hprev hhead⟩, ?_,
    List.nodup_cons.mpr ⟨hnot, h.nodup⟩, fun j => ?_⟩
  · rw [hnexti, h.head, Option.or_none]
  · rw [hfree]
    exact link_of_ne hnull
  · rw [List.mem_cons, hcount]
    by_cases hj : j = i
    · subst hj
      exact ⟨fun _ => ⟨hi, hi'⟩, fun _ => Or.inl rfl⟩
    · rw [or_iff_right hj, h.mem_iff, hstatus j hj]

/-- A frame leaves the list from anywhere. -/
theorem SplitList.remove {S₁ S₂ : List Nat} (h : space.SplitList (S₁ ++ i :: S₂))
    (hfree : link nullIndex space'.splitFree = (S₁ ++ S₂).head?)
    (hcount : space'.largeFrameCount = space.largeFrameCount) (hi : space'.statusOf i ≠ .split)
    (hstatus : ∀ j, j ≠ i → (space'.statusOf j = .split ↔ space.statusOf j = .split))
    (hnext₁ : ∀ j ∈ S₁, S₁.getLast? ≠ some j → space'.next j = space.next j)
    (hlast : ∀ j ∈ S₁.getLast?, space'.next j = space.next i)
    (hprev₁ : ∀ j ∈ S₁, space'.prev j = space.prev j)
    (hnext₂ : ∀ j ∈ S₂, space'.next j = space.next j)
    (hprev₂ : ∀ j ∈ S₂, S₂.head? ≠ some j → space'.prev j = space.prev j)
    (hhead : ∀ j ∈ S₂.head?, space'.prev j = space.prev i) : space'.SplitList (S₁ ++ S₂) := by
  have hsub : (S₁ ++ S₂).Sublist (S₁ ++ i :: S₂) :=
    List.Sublist.append_left (List.sublist_cons_self i S₂) S₁
  refine ⟨seg_remove h.seg h.nodup hnext₁ hlast hprev₁ hnext₂ hprev₂ hhead, hfree,
    h.nodup.sublist hsub, fun j => ?_⟩
  have hmem := h.mem_iff j
  simp only [List.mem_append, List.mem_cons] at hmem ⊢
  by_cases hj : j = i
  · subst hj
    have hnot := List.nodup_middle.mp h.nodup
    rw [List.nodup_cons, List.mem_append] at hnot
    exact ⟨fun hj => absurd hj hnot.1, fun hj => absurd hj.2 hi⟩
  · rw [hcount, hstatus j hj, ← hmem]
    tauto

end Lists

end FrameAllocationSpace

end Beelzebub.Memory
