import Beelzebub.Memory.PmmConstruct

/-!
# Runs of an allocation space

The states that a constructed space can reach, and what holds of its lists in each
of them.
-/

namespace Beelzebub.Memory

open Linked

namespace FrameAllocationSpace

open LargeFrameDescriptor (nullIndex subDescriptorsCount)

/-- The states of a space from its construction on. -/
inductive Reachable (mem : Nat → LargeFrameDescriptor) (physStart physEnd : Nat) :
    FrameAllocationSpace → Prop
  | construct {space : FrameAllocationSpace} :
      FrameAllocationSpace.construct mem physStart physEnd = some space →
      Reachable mem physStart physEnd space
  | allocateFrame {space : FrameAllocationSpace} (size : FrameSize) (refCnt : Nat) :
      Reachable mem physStart physEnd space →
      Reachable mem physStart physEnd (space.allocateFrame size refCnt).2
  | mingle {space : FrameAllocationSpace} (addr newCnt : Nat) (diff : Int)
      (ignoreRefCnt : Bool) : Reachable mem physStart physEnd space →
      Reachable mem physStart physEnd (space.mingle addr newCnt diff ignoreRefCnt).2.2

/-- The lists of a space are in order. -/
structure WellFormed (space : FrameAllocationSpace) : Prop where
  /-- The stack of free frames visits these once each, and no partial frame. -/
  large : ∃ L, space.LargeStack L ∧ ∀ i ∈ L, ¬space.Trailing i
  /-- The split frames form a list with inverse links in both directions. -/
  split : ∃ S, space.SplitList S ∧
    (∀ i ∈ S, ∀ j ∈ S, space.next i = some j ↔ space.prev j = some i) ∧
    ∀ i, link nullIndex space.splitFree = some i → space.prev i = none
  /-- Each split frame's stack visits its free small frames once each. -/
  frames : ∀ i < space.largeFrameCount, (space.statusOf i).IsSplit →
    ∃ xs, (space.map i).Stacked xs ∧ (space.map i).extras.freeCount = xs.length ∧
      (space.statusOf i = .full ↔ (space.map i).extras.freeCount = 0)
  /-- A frame that is wholly free does not stay split. -/
  whole : ∀ i < space.largeFrameCount, space.statusOf i = .split →
    ∃ s, 1 ≤ s ∧ s ≤ subDescriptorsCount ∧ ((space.map i).small s).status ≠ .free

variable {space : FrameAllocationSpace} {mem : Nat → LargeFrameDescriptor}
  {physStart physEnd : Nat}

theorem Inv.toWellFormed (hinv : space.Inv) : space.WellFormed where
  large := by
    obtain ⟨L, hL⟩ := hinv.large
    exact ⟨L, hL, fun i hi => hinv.not_trailing ((hL.mem_iff i).mp hi).2⟩
  split := by
    obtain ⟨S, hS⟩ := hinv.split
    refine ⟨S, hS, fun i hi j hj => hS.seg.next_eq_iff_prev_eq hS.nodup hi hj, fun i hi => ?_⟩
    rw [hS.head] at hi
    cases S with
    | nil => cases hi
    | cons a S =>
        cases hi
        exact hS.seg.1
  frames i hi hsplit := by
    obtain ⟨xs, hstack, hfull, -⟩ := hinv.frames i hi hsplit
    refine ⟨xs, hstack, hstack.count, ?_⟩
    rw [hstack.count, List.length_eq_zero_iff]
    exact hfull
  whole i hi hsplit := by
    obtain ⟨xs, hstack, -, hlen⟩ := hinv.frames i hi (Or.inl hsplit)
    by_contra hall
    have hfree : ∀ s, 1 ≤ s → s ≤ subDescriptorsCount → ((space.map i).small s).status = .free := by
      intro s h1 h2
      by_contra hne
      exact hall ⟨s, h1, h2, hne⟩
    have := hstack.length_eq_of_free hfree
    omega

/-- A step of a run keeps the invariant. -/
theorem Reachable.inv (hstart : NoWrap physStart) (hend : physEnd < 2 ^ 64)
    (hfit : ¬PartFits physStart physEnd nullIndex) (h : Reachable mem physStart physEnd space) :
    space.Inv := by
  induction h with
  | construct h => exact construct_inv hstart hend hfit h
  | allocateFrame size refCnt _ ih => exact (ih.allocateFrame size refCnt).1
  | mingle addr newCnt diff ignoreRefCnt _ ih =>
      exact (ih.mingle addr newCnt diff ignoreRefCnt).1

/-- Memory that holds zeros before the construction. -/
def zeroed (_ : Nat) : LargeFrameDescriptor :=
  { referenceCount := 0, status := .free, nextIndex := 0, subDescriptors := 0
    extras := { nextFree := 0, freeCount := 0, prevIndex := 0 }
    small := fun _ => .new }

end FrameAllocationSpace

end Beelzebub.Memory
