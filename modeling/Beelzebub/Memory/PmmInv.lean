import Beelzebub.Memory.FrameLists

/-!
# The invariant of an allocation space

`Inv` ties the statuses of the frames to the lists that the operations work with.
Allocating and releasing frames keeps it (`Inv.allocateFrame`, `Inv.mingle`).
-/

namespace Beelzebub.Memory

open Linked

/-- The frame is split, with or without free small frames. -/
def FrameStatus.IsSplit (s : FrameStatus) : Prop := s = .split ∨ s = .full

namespace LargeFrameDescriptor

/-- A split frame's stack of free small frames is in order, the frame is full
exactly if the stack is empty, and some small frame is in use. -/
def Consistent (d : LargeFrameDescriptor) : Prop :=
  ∃ xs, d.Stacked xs ∧ (d.status = .full ↔ xs = []) ∧ xs.length < subDescriptorsCount

/-- Two descriptors agree on the small frames and on the status. -/
structure Alike (d d' : LargeFrameDescriptor) : Prop where
  status : d'.status = d.status
  small : d'.small = d.small
  nextFree : d'.extras.nextFree = d.extras.nextFree
  freeCount : d'.extras.freeCount = d.extras.freeCount

theorem Alike.refl (d : LargeFrameDescriptor) : d.Alike d := ⟨rfl, rfl, rfl, rfl⟩

theorem Alike.trans {a b c : LargeFrameDescriptor} (h : a.Alike b) (h' : b.Alike c) :
    a.Alike c :=
  ⟨h'.status.trans h.status, h'.small.trans h.small, h'.nextFree.trans h.nextFree,
    h'.freeCount.trans h.freeCount⟩

theorem Stacked.congr {d d' : LargeFrameDescriptor} {xs : List Nat} (h : d.Stacked xs)
    (hsmall : d'.small = d.small) (hnext : d'.extras.nextFree = d.extras.nextFree)
    (hcount : d'.extras.freeCount = d.extras.freeCount) : d'.Stacked xs := by
  have hlink : d'.smallNext = d.smallNext := by
    funext i
    rw [smallNext, smallNext, hsmall]
  refine ⟨?_, h.nodup, fun i => ?_, ?_⟩
  · rw [hlink, hnext]
    exact h.chain
  · rw [hsmall]
    exact h.mem_iff i
  · rw [hcount]
    exact h.count

theorem Consistent.congr {d d' : LargeFrameDescriptor} (h : d.Consistent) (ha : d.Alike d') :
    d'.Consistent := by
  obtain ⟨xs, hstack, hfull, hlen⟩ := h
  exact ⟨xs, hstack.congr ha.small ha.nextFree ha.freeCount, by rw [ha.status]; exact hfull, hlen⟩

end LargeFrameDescriptor

namespace FrameAllocationSpace

open LargeFrameDescriptor (nullIndex subDescriptorsCount Stacked Inner Alike)

/-- The last frame is only partly there. -/
def Trailing (space : FrameAllocationSpace) (i : Nat) : Prop :=
  i < space.largeFrameCount ∧
    space.allocationEnd < space.allocationStart + (i + 1) * largePageSize

/-- The invariant of an allocation space. -/
structure Inv (space : FrameAllocationSpace) : Prop where
  /-- No frame has the index that stands for none. -/
  bounded : space.largeFrameCount ≤ nullIndex
  /-- The frames cover the allocation area. -/
  extent : space.allocationEnd ≤ space.allocationStart + space.largeFrameCount * largePageSize
  end_lt : space.allocationEnd < 2 ^ 64
  large : ∃ L, space.LargeStack L
  split : ∃ S, space.SplitList S
  frames : ∀ i < space.largeFrameCount, (space.statusOf i).IsSplit → (space.map i).Consistent
  /-- A partial frame is split for good, and its last small frame is not there. -/
  trailing : ∀ i, space.Trailing i →
    (space.statusOf i).IsSplit ∧ ((space.map i).small subDescriptorsCount).status = .reserved

/-! ## Reading updates -/

section Modify

variable (space : FrameAllocationSpace) (i j p : Nat)
  (f : LargeFrameDescriptor → LargeFrameDescriptor)

theorem map_modify :
    (space.modify i f).map j = if j = i then f (space.map i) else space.map j :=
  Function.update_apply ..

@[simp] theorem map_modify_self : (space.modify i f).map i = f (space.map i) := by
  rw [map_modify, if_pos rfl]

theorem map_modify_of_ne {i j : Nat} (h : j ≠ i) :
    (space.modify i f).map j = space.map j := by
  rw [map_modify, if_neg h]

theorem next_modify : (space.modify i f).next j =
    if j = i then link nullIndex (f (space.map i)).nextIndex else space.next j := by
  unfold next
  rw [map_modify]
  split <;> rfl

theorem prev_modify : (space.modify i f).prev j =
    if j = i then link nullIndex (f (space.map i)).extras.prevIndex else space.prev j := by
  unfold prev
  rw [map_modify]
  split <;> rfl

theorem statusOf_modify : (space.modify i f).statusOf j =
    if j = i then (f (space.map i)).status else space.statusOf j := by
  unfold statusOf
  rw [map_modify]
  split <;> rfl

theorem map_setPrev : (space.setPrev i p).map j =
    if j = i ∧ i ≠ nullIndex then { space.map i with extras.prevIndex := p }
    else space.map j := by
  unfold setPrev
  by_cases hi : i ≠ nullIndex
  · rw [if_pos hi, map_modify]
    simp only [hi, ne_eq, not_false_eq_true, and_true]
  · rw [if_neg hi, if_neg fun h => hi h.2]

@[simp] theorem next_setPrev : (space.setPrev i p).next j = space.next j := by
  unfold next
  rw [map_setPrev]
  split
  next h => rw [h.1]
  next => rfl

@[simp] theorem statusOf_setPrev : (space.setPrev i p).statusOf j = space.statusOf j := by
  unfold statusOf
  rw [map_setPrev]
  split
  next h => rw [h.1]
  next => rfl

theorem prev_setPrev : (space.setPrev i p).prev j =
    if j = i ∧ i ≠ nullIndex then link nullIndex p else space.prev j := by
  unfold prev
  rw [map_setPrev]
  split <;> rfl

end Modify

section Setters

variable (space : FrameAllocationSpace) (i j : Nat)

@[simp] theorem map_setLargeFree : (space.setLargeFree i).map = space.map := rfl

@[simp] theorem next_setLargeFree : (space.setLargeFree i).next j = space.next j := rfl

@[simp] theorem prev_setLargeFree : (space.setLargeFree i).prev j = space.prev j := rfl

@[simp] theorem statusOf_setLargeFree : (space.setLargeFree i).statusOf j = space.statusOf j := rfl

@[simp] theorem map_setSplitFree : (space.setSplitFree i).map = space.map := rfl

@[simp] theorem next_setSplitFree : (space.setSplitFree i).next j = space.next j := rfl

@[simp] theorem prev_setSplitFree : (space.setSplitFree i).prev j = space.prev j := rfl

@[simp] theorem statusOf_setSplitFree : (space.setSplitFree i).statusOf j = space.statusOf j := rfl

end Setters

/-- The two spaces have the same bounds. -/
structure SameExtent (space space' : FrameAllocationSpace) : Prop where
  largeFrameCount : space'.largeFrameCount = space.largeFrameCount
  allocationStart : space'.allocationStart = space.allocationStart
  allocationEnd : space'.allocationEnd = space.allocationEnd
  mapAddress : space'.mapAddress = space.mapAddress
  controlAreaSize : space'.controlAreaSize = space.controlAreaSize

theorem SameExtent.refl (space : FrameAllocationSpace) : space.SameExtent space :=
  ⟨rfl, rfl, rfl, rfl, rfl⟩

theorem SameExtent.trans {a b c : FrameAllocationSpace} (h : a.SameExtent b)
    (h' : b.SameExtent c) : a.SameExtent c :=
  ⟨h'.largeFrameCount.trans h.largeFrameCount, h'.allocationStart.trans h.allocationStart,
    h'.allocationEnd.trans h.allocationEnd, h'.mapAddress.trans h.mapAddress,
    h'.controlAreaSize.trans h.controlAreaSize⟩

theorem sameExtent_modify (space : FrameAllocationSpace) (i : Nat)
    (f : LargeFrameDescriptor → LargeFrameDescriptor) : space.SameExtent (space.modify i f) :=
  ⟨rfl, rfl, rfl, rfl, rfl⟩

theorem sameExtent_setPrev (space : FrameAllocationSpace) (i p : Nat) :
    space.SameExtent (space.setPrev i p) := by
  unfold setPrev
  split <;> exact ⟨rfl, rfl, rfl, rfl, rfl⟩

@[simp] theorem largeFree_setPrev (space : FrameAllocationSpace) (i p : Nat) :
    (space.setPrev i p).largeFree = space.largeFree := by
  unfold setPrev
  split <;> rfl

@[simp] theorem splitFree_setPrev (space : FrameAllocationSpace) (i p : Nat) :
    (space.setPrev i p).splitFree = space.splitFree := by
  unfold setPrev
  split <;> rfl

section Preserve

variable {space space' : FrameAllocationSpace} {L S : List Nat} {i : Nat}

theorem SameExtent.trailing_iff (h : space.SameExtent space') :
    space'.Trailing i ↔ space.Trailing i := by
  unfold Trailing
  rw [h.largeFrameCount, h.allocationStart, h.allocationEnd]

/-- An operation that works on one frame keeps the invariant if the lists and that
frame are in order afterwards. -/
theorem Inv.of_lists (hinv : space.Inv) (hext : space.SameExtent space')
    (hL : space'.LargeStack L) (hS : space'.SplitList S)
    (hother : ∀ j, j ≠ i → (space.map j).Alike (space'.map j))
    (hi : (space'.statusOf i).IsSplit → (space'.map i).Consistent)
    (htrail : space.Trailing i → (space'.statusOf i).IsSplit ∧
      ((space'.map i).small subDescriptorsCount).status = .reserved) : space'.Inv where
  bounded := by rw [hext.largeFrameCount]; exact hinv.bounded
  extent := by
    rw [hext.largeFrameCount, hext.allocationStart, hext.allocationEnd]
    exact hinv.extent
  end_lt := by rw [hext.allocationEnd]; exact hinv.end_lt
  large := ⟨L, hL⟩
  split := ⟨S, hS⟩
  frames j hj hsplit := by
    rw [hext.largeFrameCount] at hj
    by_cases hji : j = i
    · subst hji
      exact hi hsplit
    · have ha := hother j hji
      rw [statusOf, ha.status] at hsplit
      exact (hinv.frames j hj hsplit).congr ha
  trailing j hj := by
    rw [hext.trailing_iff] at hj
    by_cases hji : j = i
    · subst hji
      exact htrail hj
    · have ha := hother j hji
      rw [statusOf, ha.status, ha.small]
      exact hinv.trailing j hj

theorem alike_modify_of_ne (space : FrameAllocationSpace) {i j : Nat}
    (f : LargeFrameDescriptor → LargeFrameDescriptor) (h : j ≠ i) :
    (space.map j).Alike ((space.modify i f).map j) := by
  rw [map_modify_of_ne space f h]
  exact .refl _

theorem alike_setPrev (space : FrameAllocationSpace) (i p j : Nat) :
    (space.map j).Alike ((space.setPrev i p).map j) := by
  rw [map_setPrev]
  split
  next h =>
    rw [h.1]
    exact ⟨rfl, rfl, rfl, rfl⟩
  next => exact .refl _

end Preserve

/-! ## The list operations -/

section Operations

variable (space : FrameAllocationSpace) (i j : Nat)

theorem modify_modify (f g : LargeFrameDescriptor → LargeFrameDescriptor) :
    (space.modify i f).modify i g = space.modify i fun d => g (f d) := by
  unfold modify
  simp

/-- A store to `nextIndex` leaves the other link. -/
theorem prev_modify_nextIndex (n : Nat) :
    (space.modify i fun d => { d with nextIndex := n }).prev j = space.prev j := by
  rw [prev_modify]
  split
  next h => rw [h]; rfl
  next => rfl

theorem statusOf_modify_nextIndex (n : Nat) :
    (space.modify i fun d => { d with nextIndex := n }).statusOf j = space.statusOf j := by
  rw [statusOf_modify]
  split
  next h => rw [h]; rfl
  next => rfl

theorem alike_modify_nextIndex (n : Nat) :
    (space.map j).Alike ((space.modify i fun d => { d with nextIndex := n }).map j) := by
  rw [map_modify]
  split
  next h => rw [h]; exact ⟨rfl, rfl, rfl, rfl⟩
  next => exact .refl _

theorem alike_setSplitFree_setPrev (k p : Nat) :
    (space.map j).Alike (((space.setSplitFree k).setPrev i p).map j) :=
  alike_setPrev (space.setSplitFree k) i p j

theorem next_pushSplit : (space.pushSplit i).next j =
    if j = i then link nullIndex space.splitFree else space.next j := by
  rw [pushSplit, next_setPrev, next_setSplitFree, next_modify]

theorem prev_pushSplit : (space.pushSplit i).prev j =
    if j = space.splitFree ∧ space.splitFree ≠ nullIndex then link nullIndex i
    else space.prev j := by
  rw [pushSplit, prev_setPrev, prev_setSplitFree, prev_modify_nextIndex]

theorem alike_pushSplit : (space.map j).Alike ((space.pushSplit i).map j) := by
  refine (alike_modify_nextIndex space i j space.splitFree).trans ?_
  rw [pushSplit]
  exact alike_setSplitFree_setPrev _ _ _ _ _

@[simp] theorem splitFree_pushSplit : (space.pushSplit i).splitFree = i := by
  rw [pushSplit, splitFree_setPrev]
  rfl

@[simp] theorem largeFree_pushSplit : (space.pushSplit i).largeFree = space.largeFree := by
  rw [pushSplit, largeFree_setPrev]
  rfl

theorem sameExtent_setSplitFree : space.SameExtent (space.setSplitFree i) := ⟨rfl, rfl, rfl, rfl, rfl⟩

theorem sameExtent_pushSplit : space.SameExtent (space.pushSplit i) := by
  rw [pushSplit]
  exact ((sameExtent_modify space i _).trans (sameExtent_setSplitFree _ i)).trans
    (sameExtent_setPrev _ _ _)

theorem next_retireSplit : (space.retireSplit i).next j = space.next j := by
  rw [retireSplit, next_setPrev, next_setSplitFree, next_modify]
  split
  next h => rw [h]; rfl
  next => rfl

theorem prev_retireSplit : (space.retireSplit i).prev j =
    if j = (space.map i).nextIndex ∧ (space.map i).nextIndex ≠ nullIndex then none
    else space.prev j := by
  have h : (space.modify i fun d => { d with status := .full }).prev j = space.prev j := by
    rw [prev_modify]
    split
    next h => rw [h]; rfl
    next => rfl
  rw [retireSplit, prev_setPrev, prev_setSplitFree, h, link_null, map_modify_self]

theorem statusOf_retireSplit : (space.retireSplit i).statusOf j =
    if j = i then .full else space.statusOf j := by
  rw [retireSplit, statusOf_setPrev, statusOf_setSplitFree, statusOf_modify]

theorem alike_retireSplit :
    ((space.modify i fun d => { d with status := .full }).map j).Alike
      ((space.retireSplit i).map j) := by
  rw [retireSplit]
  exact alike_setSplitFree_setPrev _ _ _ _ _

@[simp] theorem splitFree_retireSplit :
    (space.retireSplit i).splitFree = (space.map i).nextIndex := by
  rw [retireSplit, splitFree_setPrev, map_modify_self]
  rfl

@[simp] theorem largeFree_retireSplit : (space.retireSplit i).largeFree = space.largeFree := by
  rw [retireSplit, largeFree_setPrev]
  rfl

theorem sameExtent_retireSplit : space.SameExtent (space.retireSplit i) := by
  rw [retireSplit]
  exact ((sameExtent_modify space i _).trans (sameExtent_setSplitFree _ _)).trans
    (sameExtent_setPrev _ _ _)

theorem next_pushLarge : (space.pushLarge i).next j =
    if j = i then link nullIndex space.largeFree else space.next j := by
  rw [pushLarge, next_setLargeFree, next_modify]

theorem prev_pushLarge : (space.pushLarge i).prev j = space.prev j := by
  rw [pushLarge, prev_setLargeFree, prev_modify]
  split
  next h => rw [h]; rfl
  next => rfl

theorem statusOf_pushLarge : (space.pushLarge i).statusOf j =
    if j = i then .free else space.statusOf j := by
  rw [pushLarge, statusOf_setLargeFree, statusOf_modify]
  rfl

theorem sameExtent_pushLarge : space.SameExtent (space.pushLarge i) := ⟨rfl, rfl, rfl, rfl, rfl⟩

theorem alike_pushLarge_of_ne {i j : Nat} (h : j ≠ i) :
    (space.map j).Alike ((space.pushLarge i).map j) := by
  rw [pushLarge, map_setLargeFree]
  exact alike_modify_of_ne space _ h

theorem next_setNext (n : Nat) : (space.setNext i n).next j =
    if j = i ∧ i ≠ nullIndex then link nullIndex n else space.next j := by
  unfold setNext
  by_cases hi : i ≠ nullIndex
  · rw [if_pos hi, next_modify]
    simp only [hi, ne_eq, not_false_eq_true, and_true]
  · rw [if_neg hi, if_neg fun h => hi h.2]

@[simp] theorem prev_setNext (n : Nat) : (space.setNext i n).prev j = space.prev j := by
  unfold setNext
  split
  next => exact prev_modify_nextIndex space i j n
  next => rfl

@[simp] theorem statusOf_setNext (n : Nat) :
    (space.setNext i n).statusOf j = space.statusOf j := by
  unfold setNext
  split
  next => exact statusOf_modify_nextIndex space i j n
  next => rfl

theorem alike_setNext (n : Nat) : (space.map j).Alike ((space.setNext i n).map j) := by
  unfold setNext
  split
  next => exact alike_modify_nextIndex space i j n
  next => exact .refl _

theorem sameExtent_setNext (n : Nat) : space.SameExtent (space.setNext i n) := by
  unfold setNext
  split <;> exact ⟨rfl, rfl, rfl, rfl, rfl⟩

@[simp] theorem largeFree_setNext (n : Nat) :
    (space.setNext i n).largeFree = space.largeFree := by
  unfold setNext
  split <;> rfl

@[simp] theorem splitFree_setNext (n : Nat) :
    (space.setNext i n).splitFree = space.splitFree := by
  unfold setNext
  split <;> rfl

theorem next_unlinkSplit : (space.unlinkSplit i).next j =
    if j = (space.map i).extras.prevIndex ∧ (space.map i).extras.prevIndex ≠ nullIndex then
      space.next i
    else space.next j := by
  rw [unlinkSplit, next_setSplitFree, next_setNext, next_setPrev]
  rfl

theorem prev_unlinkSplit : (space.unlinkSplit i).prev j =
    if j = (space.map i).nextIndex ∧ (space.map i).nextIndex ≠ nullIndex then space.prev i
    else space.prev j := by
  rw [unlinkSplit, prev_setSplitFree, prev_setNext, prev_setPrev]
  rfl

theorem alike_unlinkSplit : (space.map j).Alike ((space.unlinkSplit i).map j) := by
  rw [unlinkSplit, map_setSplitFree]
  exact (alike_setPrev space _ _ j).trans (alike_setNext _ _ j _)

theorem sameExtent_unlinkSplit : space.SameExtent (space.unlinkSplit i) := by
  rw [unlinkSplit]
  exact ((sameExtent_setPrev space _ _).trans (sameExtent_setNext _ _ _)).trans
    (sameExtent_setSplitFree _ _)

@[simp] theorem largeFree_unlinkSplit : (space.unlinkSplit i).largeFree = space.largeFree := by
  rw [unlinkSplit]
  show ((space.setPrev _ _).setNext _ _).largeFree = _
  rw [largeFree_setNext, largeFree_setPrev]

theorem splitFree_unlinkSplit : (space.unlinkSplit i).splitFree =
    if space.splitFree = i then (space.map i).nextIndex else space.splitFree := by
  rw [unlinkSplit, splitFree_setNext, splitFree_setPrev]
  rfl

end Operations

end FrameAllocationSpace

end Beelzebub.Memory
