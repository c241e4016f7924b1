import Beelzebub.Memory.PmmArc

/-!
# How a space is split

The constructor looks for the largest number of frames that fit next to their descriptors, one
binary digit after the other.  `CreateAllocationSpace` makes sure of a size for which there should
be one.
-/

namespace Beelzebub.Memory

namespace FrameAllocationSpace

open LargeFrameDescriptor (nullIndex subDescriptorsCount)

variable {mem : Nat → LargeFrameDescriptor} {physStart physEnd n : Nat}
  {space : FrameAllocationSpace}

/-! ## The best split -/

/-- `n` descriptors and `n` large frames fit into the space. -/
def Fits (physStart physEnd n : Nat) : Prop :=
  physStart + n * LargeFrameDescriptor.size + n * largePageSize ≤ alignedEnd physEnd

/-- The two ends before the search. -/
def searchStart (physStart physEnd : Nat) : Squeeze :=
  { ctrlEnd := physStart, allocStart := alignedEnd physEnd, frameCount := 0 }

/-- The search ends with as many frames as there can be. -/
structure BestSplit (physStart physEnd n : Nat) (s : Squeeze) : Prop where
  count : s.frameCount = n
  lt : n < 2 ^ 32
  fits : n = 0 ∨ Fits physStart physEnd n
  most : ∀ m < 2 ^ 32, Fits physStart physEnd m → m ≤ n
  ctrlEnd : s.ctrlEnd = physStart + n * LargeFrameDescriptor.size
  allocStart : s.allocStart = alignedEnd physEnd - n * largePageSize
  aligned : largePageSize ∣ s.allocStart

/-- A space where a partial frame may have been added. -/
structure SoundSpace (physStart physEnd n : Nat) (space : FrameAllocationSpace) : Prop where
  allocationStart : space.allocationStart = alignedEnd physEnd - n * largePageSize
  count : space.largeFrameCount = n ∨ space.largeFrameCount = n + 1
  control : physStart + space.controlAreaSize ≤ space.allocationStart
  small : space.largeFrameCount = n + 1 → ∀ j, 1 ≤ j → j ≤ subDescriptorsCount →
    ((space.map n).small j).status = .free → alignedEnd physEnd + j * pageSize + pageSize ≤ physEnd

theorem largePageSize_dvd_alignedEnd (physEnd : Nat) : largePageSize ∣ alignedEnd physEnd :=
  Nat.dvd_sub_mod physEnd

theorem squeeze_best (hstart : NoWrap physStart) (hend : physEnd < 2 ^ 64) :
    ∃ n, squeeze 32 (searchStart physStart physEnd) =
        (searchStart physStart physEnd).advance n ∧
      BestSplit physStart physEnd n (squeeze 32 (searchStart physStart physEnd)) := by
  have hle := alignedEnd_le physEnd
  obtain ⟨n, hn, heq, hroom, hmax⟩ := squeeze_spec 32 (searchStart physStart physEnd)
    (Nat.le_refl _)
    (by
      unfold NoWrap LargeFrameDescriptor.size at hstart
      unfold LargeFrameDescriptor.size searchStart
      simp only
      omega)
    (by
      unfold searchStart
      simp only
      omega)
  refine ⟨n, heq, ?_⟩
  rw [heq]
  constructor
  case count => exact Nat.zero_add n
  case lt => exact hn
  case fits => exact hroom
  case most => exact hmax
  case ctrlEnd => rfl
  case allocStart => rfl
  case aligned =>
    exact Nat.dvd_sub (largePageSize_dvd_alignedEnd physEnd) (Nat.dvd_mul_left _ _)

/-- The free small frames of a partial frame. -/
theorem WithPartial.small_below (h : WithPartial mem physStart physEnd n space)
    (hfit : PartFits physStart physEnd n) {j : Nat} (hj : 1 ≤ j) (hj' : j ≤ subDescriptorsCount)
    (hfree : ((space.map n).small j).status = .free) :
    alignedEnd physEnd + j * pageSize + pageSize ≤ physEnd := by
  obtain ⟨-, hlt⟩ := partialCount_bounds hfit.2
  rw [h.map, if_pos rfl,
    LargeFrameDescriptor.small_splitLargeFrame _ (Nat.le_of_lt hlt) ⟨hj, hj'⟩] at hfree
  split at hfree
  next hle =>
    have hthree := hfit.2
    unfold partialCount at hle
    unfold pageSize at hle hthree ⊢
    omega
  next => exact nomatch hfree

theorem construct_sound (hend : physEnd < 2 ^ 64) (hzero : n ≠ 0)
    (heq : squeeze 32 (searchStart physStart physEnd) =
      (searchStart physStart physEnd).advance n)
    (hfits : Fits physStart physEnd n) (h : construct mem physStart physEnd = some space) :
    SoundSpace physStart physEnd n space := by
  rw [construct_of_squeeze hzero rfl heq] at h
  obtain rfl := Option.some.inj h
  have hroom : physStart + n * LargeFrameDescriptor.size ≤ alignedEnd physEnd - n * largePageSize :=
    Nat.le_sub_of_add_le hfits
  obtain ⟨hcount, hstart, -, -, hctrl⟩ := stacked_extent mem physStart physEnd n
  rcases addPartialFrame_spec mem physStart physEnd n hend hfits with ⟨-, hsame⟩ | ⟨hfit, hpart⟩
  · rw [hsame]
    constructor
    case allocationStart => exact hstart
    case count => exact .inl hcount
    case control =>
      rw [hctrl, hstart]
      exact hroom
    case small =>
      intro hmore
      rw [hcount] at hmore
      exact absurd hmore (Nat.ne_of_lt (Nat.lt_succ_self n))
  · constructor
    case allocationStart => exact hpart.allocationStart
    case count => exact .inr hpart.largeFrameCount
    case control =>
      rw [hpart.controlAreaSize, hpart.allocationStart]
      exact Nat.le_sub_of_add_le hfit.1
    case small =>
      intro _ j hj hj' hfree
      exact hpart.small_below hfit hj hj' hfree

/-- For memory below `2 ^ 52` the search finds the best split, and the space that is built on it
keeps its structures apart and its small frames within the memory. -/
theorem construct_best_split (mem : Nat → LargeFrameDescriptor) {physStart physEnd : Nat}
    (hlt : physStart < physEnd) (hbound : physEnd < 2 ^ 52) :
    ∃ n, BestSplit physStart physEnd n (squeeze 32 (searchStart physStart physEnd)) ∧
      ∀ space, construct mem physStart physEnd = some space →
        SoundSpace physStart physEnd n space := by
  have hwrap : NoWrap physStart := by
    unfold NoWrap LargeFrameDescriptor.size
    omega
  obtain ⟨n, heq, hbest⟩ := squeeze_best hwrap (Nat.lt_trans hbound (by decide))
  refine ⟨n, hbest, ?_⟩
  intro space h
  have hzero : n ≠ 0 := by
    rintro rfl
    rw [construct_eq_none rfl heq] at h
    exact nomatch h
  exact construct_sound (Nat.lt_trans hbound (by decide)) hzero heq
    (hbest.fits.resolve_left hzero) h

def clearMemory (_ : Nat) : LargeFrameDescriptor :=
  { referenceCount := 0, status := .free, nextIndex := 0, subDescriptors := 0, extras := .new
    small := fun _ => .new }

/-- Sixteen megabytes and three pages, which make seven large frames and a partial one. -/
theorem construct_best_split_small :
    ∃ n, BestSplit 0x2000000 0x3003000 n (squeeze 32 (searchStart 0x2000000 0x3003000)) ∧
      ∀ space, construct clearMemory 0x2000000 0x3003000 = some space →
        SoundSpace 0x2000000 0x3003000 n space :=
  construct_best_split clearMemory (by decide) (by decide)

/-! ## Whether there is a frame -/

theorem frameCount_le_squeeze (k : Nat) (s : Squeeze) : s.frameCount ≤ (squeeze k s).frameCount := by
  induction k generalizing s with
  | zero => exact Nat.le_refl _
  | succ k ih =>
      rw [squeeze]
      dsimp only
      split
      next => exact ih s
      next =>
        split
        next =>
          split
          next => exact Nat.le_add_right _ _
          next =>
            refine Nat.le_trans ?_ (ih _)
            exact Nat.le_add_right _ _
        next => exact ih s

theorem largeFrameCount_addPartialFrame (ctrlEnd algnEnd : Nat) (space : FrameAllocationSpace) :
    space.largeFrameCount ≤ (space.addPartialFrame ctrlEnd algnEnd).largeFrameCount := by
  unfold addPartialFrame
  dsimp only
  split
  next => exact Nat.le_succ _
  next => exact Nat.le_refl _

/-- What the constructor makes of the two ends. -/
def built (mem : Nat → LargeFrameDescriptor) (physStart physEnd : Nat) (s : Squeeze) :
    FrameAllocationSpace :=
  let space : FrameAllocationSpace :=
    { memoryStart := physStart
      memoryEnd := physEnd
      size := Word.sub physEnd physStart
      allocationStart := s.allocStart
      allocationEnd := alignedEnd physEnd
      allocableSize := alignedEnd physEnd - s.allocStart
      controlAreaSize := s.frameCount * LargeFrameDescriptor.size
      freeSize := alignedEnd physEnd - s.allocStart
      reservedSize := 0
      largeFrameCount := s.frameCount
      mapAddress := physStart
      map := mem
      largeFree := nullIndex
      splitFree := nullIndex }
  (space.stackLarge s.frameCount 0 none).addPartialFrame s.ctrlEnd (alignedEnd physEnd)

theorem construct_eq_built (mem : Nat → LargeFrameDescriptor) (physStart physEnd : Nat) :
    construct mem physStart physEnd =
      if (squeeze 32 (searchStart physStart physEnd)).frameCount = 0 then none
      else some (built mem physStart physEnd (squeeze 32 (searchStart physStart physEnd))) := rfl

theorem frameCount_le_built (s : Squeeze) :
    s.frameCount ≤ (built mem physStart physEnd s).largeFrameCount := by
  refine Nat.le_trans ?_ (largeFrameCount_addPartialFrame _ _ _)
  rw [(stackLarge_frame _ _ _ _).1.largeFrameCount]

/-- The constructor succeeds if the search has found a frame, and then the space has one. -/
theorem construct_usable_iff (mem : Nat → LargeFrameDescriptor) (physStart physEnd : Nat) :
    (∃ space, construct mem physStart physEnd = some space ∧ 0 < space.largeFrameCount) ↔
      0 < (squeeze 32 (searchStart physStart physEnd)).frameCount := by
  rw [construct_eq_built]
  generalize squeeze 32 _ = s
  split
  next hzero =>
    rw [hzero]
    exact iff_of_false (fun ⟨_, hnone, _⟩ => nomatch hnone) (Nat.lt_irrefl 0)
  next hne =>
    have hpos := Nat.pos_of_ne_zero hne
    exact iff_of_true ⟨_, rfl, Nat.lt_of_lt_of_le hpos (frameCount_le_built s)⟩ hpos

/-- Where nothing wraps around, it has found one if one fits. -/
theorem frameCount_pos_iff (hstart : NoWrap physStart) (hend : physEnd < 2 ^ 64) :
    0 < (squeeze 32 (searchStart physStart physEnd)).frameCount ↔ Fits physStart physEnd 1 := by
  obtain ⟨n, -, hbest⟩ := squeeze_best hstart hend
  rw [hbest.count]
  constructor
  · intro hpos
    exact Squeeze.Room.mono (s := searchStart physStart physEnd)
      (hbest.fits.resolve_left (Nat.ne_of_gt hpos)) hpos
  · exact hbest.most 1 (by decide)

/-- Close to `2 ^ 64` the control structures seem to end at low addresses. -/
theorem frameCount_pos_of_wrap (hstart : ¬NoWrap physStart) (hend : physEnd < 2 ^ 64)
    (hle : physStart ≤ alignedEnd physEnd) :
    0 < (squeeze 32 (searchStart physStart physEnd)).frameCount := by
  have hle' := alignedEnd_le physEnd
  unfold NoWrap LargeFrameDescriptor.size at hstart
  have hctrl : Word.add physStart (2 ^ 31 * LargeFrameDescriptor.size) =
      physStart + 2 ^ 31 * LargeFrameDescriptor.size - 2 ^ 64 := by
    unfold Word.add LargeFrameDescriptor.size
    omega
  have halloc : Word.sub (alignedEnd physEnd) (2 ^ 31 * largePageSize) =
      alignedEnd physEnd - 2 ^ 31 * largePageSize :=
    Word.sub_of_le (by omega) (by unfold largePageSize; omega)
  rw [squeeze]
  unfold searchStart
  dsimp only
  rw [hctrl, halloc, if_neg (by omega),
    if_pos (by unfold LargeFrameDescriptor.size largePageSize; omega)]
  split
  next => exact Nat.add_pos_right _ (Nat.two_pow_pos 31)
  next =>
    refine Nat.lt_of_lt_of_le ?_ (frameCount_le_squeeze 31 _)
    exact Nat.add_pos_right _ (Nat.two_pow_pos 31)

end FrameAllocationSpace

namespace Machine

open FrameAllocationSpace

/-! ## The size check -/

/-- The start of the memory is used for a page of records. -/
def Pushes (m : Machine) : Prop :=
  m.mainAllocator = 0 ∨ m.allocationSpace + 2 * spaceSize > m.tempSpaceLimit

instance (m : Machine) : Decidable m.Pushes := inferInstanceAs (Decidable (_ ∨ _))

/-- Where the space itself starts. -/
def spaceStart (m : Machine) (start : Nat) : Nat := if m.Pushes then start + pageSize else start

/-- Just as much memory as is asked for, of which the end is lost up to a page and the start is
used for records. -/
def Corner (m : Machine) (start stop : Nat) : Prop :=
  m.Pushes ∧ stop = start + 2 * 2 ^ 21 ∧ stop % largePageSize = largePageSize - pageSize ∧
    NoWrap (start + pageSize)

variable {m : Machine} {start stop : Nat}

/-- A call that passes the size check constructs a space. -/
theorem createAllocationSpace_of_construct {mem : Nat → LargeFrameDescriptor}
    (hsize : ¬Word.sub stop start < 2 * 2 ^ 21) :
    (∃ m', m.createAllocationSpace mem start stop = some (.okay, m')) ↔
      ∃ space, construct mem (m.spaceStart start) stop = some space := by
  unfold createAllocationSpace spaceStart
  rw [if_neg hsize]
  by_cases hmain : m.mainAllocator = 0
  · rw [if_neg (not_not.mpr hmain), if_pos (show m.Pushes from .inl hmain)]
    cases construct mem (start + pageSize) stop with
    | none => exact iff_of_false (fun ⟨_, h⟩ => nomatch h) fun ⟨_, h⟩ => nomatch h
    | some space => exact iff_of_true ⟨_, rfl⟩ ⟨_, rfl⟩
  · rw [if_pos hmain]
    by_cases hroom : m.allocationSpace + 2 * spaceSize > m.tempSpaceLimit
    · rw [if_pos hroom, if_pos (show m.Pushes from .inr hroom)]
      cases construct mem (start + pageSize) stop with
      | none => exact iff_of_false (fun ⟨_, h⟩ => nomatch h) fun ⟨_, h⟩ => nomatch h
      | some space => exact iff_of_true ⟨_, rfl⟩ ⟨_, rfl⟩
    · rw [if_neg hroom, if_neg (show ¬m.Pushes from not_or.mpr ⟨hmain, hroom⟩)]
      cases construct mem start stop with
      | none => exact iff_of_false (fun ⟨_, h⟩ => nomatch h) fun ⟨_, h⟩ => nomatch h
      | some space => exact iff_of_true ⟨_, rfl⟩ ⟨_, rfl⟩

/-- The corner is where no frame fits. -/
theorem fits_one_iff (hstart : start % pageSize = 0) (hstop : stop % pageSize = 0)
    (hsize : start + 2 * 2 ^ 21 ≤ stop) (hwrap : NoWrap (m.spaceStart start)) :
    Fits (m.spaceStart start) stop 1 ↔ ¬m.Corner start stop := by
  unfold Corner Fits alignedEnd
  unfold spaceStart at hwrap ⊢
  have hmod := Nat.mod_lt stop (show 0 < largePageSize by decide)
  by_cases hpush : m.Pushes
  · rw [if_pos hpush] at hwrap ⊢
    have hiff : m.Pushes ∧ stop = start + 2 * 2 ^ 21 ∧
        stop % largePageSize = largePageSize - pageSize ∧ NoWrap (start + pageSize) ↔
        stop = start + 2 * 2 ^ 21 ∧ stop % largePageSize = largePageSize - pageSize :=
      ⟨fun h => ⟨h.2.1, h.2.2.1⟩, fun h => ⟨hpush, h.1, h.2, hwrap⟩⟩
    rw [hiff]
    unfold pageSize at hstart hstop ⊢
    unfold largePageSize at hmod ⊢
    unfold LargeFrameDescriptor.size
    omega
  · rw [if_neg hpush]
    refine iff_of_true ?_ fun h => hpush h.1
    unfold pageSize at hstart hstop
    unfold largePageSize at hmod ⊢
    unfold LargeFrameDescriptor.size
    omega

/-- A range that passes the size check makes a space with a frame if and only if it is not in the
corner. -/
theorem createAllocationSpace_usable_iff (mem : Nat → LargeFrameDescriptor)
    (hstart : start % pageSize = 0) (hstop : stop % pageSize = 0)
    (hsize : start + 2 * 2 ^ 21 ≤ stop) (hbound : stop < 2 ^ 64) :
    (∃ space m', construct mem (m.spaceStart start) stop = some space ∧
        0 < space.largeFrameCount ∧ m.createAllocationSpace mem start stop = some (.okay, m')) ↔
      ¬m.Corner start stop := by
  have hcheck : ¬Word.sub stop start < 2 * 2 ^ 21 := by
    rw [Word.sub_of_le hbound (by omega)]
    omega
  have hcall : (∃ m', m.createAllocationSpace mem start stop = some (.okay, m')) ↔
      ∃ space, construct mem (m.spaceStart start) stop = some space :=
    createAllocationSpace_of_construct hcheck
  have hlow : m.spaceStart start ≤ alignedEnd stop := by
    have hgap := alignedEnd_gap stop
    have hle : m.spaceStart start ≤ start + pageSize := by
      unfold spaceStart
      split
      next => exact Nat.le_refl _
      next => exact Nat.le_add_right _ _
    unfold pageSize at hle
    unfold largePageSize at hgap
    omega
  calc (∃ space m', construct mem (m.spaceStart start) stop = some space ∧
          0 < space.largeFrameCount ∧ m.createAllocationSpace mem start stop = some (.okay, m'))
      ↔ ∃ space, construct mem (m.spaceStart start) stop = some space ∧
          0 < space.largeFrameCount := by
        constructor
        · rintro ⟨space, -, hspace, hpos, -⟩
          exact ⟨space, hspace, hpos⟩
        · rintro ⟨space, hspace, hpos⟩
          obtain ⟨m', hm'⟩ := hcall.mpr ⟨space, hspace⟩
          exact ⟨space, m', hspace, hpos, hm'⟩
    _ ↔ 0 < (squeeze 32 (searchStart (m.spaceStart start) stop)).frameCount :=
        construct_usable_iff _ _ _
    _ ↔ ¬m.Corner start stop := by
        by_cases hwrap : NoWrap (m.spaceStart start)
        · rw [frameCount_pos_iff hwrap hbound]
          exact fits_one_iff hstart hstop hsize hwrap
        · refine iff_of_true (frameCount_pos_of_wrap hwrap hbound hlow) ?_
          rintro ⟨hpush, -, -, hno⟩
          unfold spaceStart at hwrap
          rw [if_pos hpush] at hwrap
          exact hwrap hno

/-- Before the first space. -/
def coldMachine : Machine :=
  ⟨0, 0, 0, fun _ => ⟨0, 0⟩, fun _ => ⟨0, 0, 0, 0, 0, 0⟩, fun _ => 0, fun _ => none⟩

theorem createAllocationSpace_usable_iff_small :
    (∃ space m', construct clearMemory (coldMachine.spaceStart 0x400000) 0x800000 = some space ∧
        0 < space.largeFrameCount ∧
        coldMachine.createAllocationSpace clearMemory 0x400000 0x800000 = some (.okay, m')) ↔
      ¬coldMachine.Corner 0x400000 0x800000 :=
  createAllocationSpace_usable_iff clearMemory (by decide) (by decide) (by decide) (by decide)

/-- The last page of the first `4` MiB on, and `4` MiB of memory. -/
theorem not_usable : ¬∀ (m : Machine) (mem : Nat → LargeFrameDescriptor) (start stop : Nat),
    start % pageSize = 0 → stop % pageSize = 0 → start + 2 * 2 ^ 21 ≤ stop → stop < 2 ^ 64 →
    ∃ space m', construct mem (m.spaceStart start) stop = some space ∧
      0 < space.largeFrameCount ∧ m.createAllocationSpace mem start stop = some (.okay, m') := by
  intro h
  obtain ⟨space, -, hspace, hpos, -⟩ := h coldMachine clearMemory 0x3FF000 0x7FF000 (by decide)
    (by decide) (by decide) (by decide)
  have hcount := (construct_usable_iff _ _ _).mp ⟨space, hspace, hpos⟩
  rw [frameCount_pos_iff (by decide) (by decide)] at hcount
  exact absurd hcount (by unfold Fits; decide)

end Machine

end Beelzebub.Memory
