import Beelzebub.Memory.PmmSteps

/-!
# Construction of an allocation space

The constructor finds, in 32 steps, how many large frames fit next to their
descriptors, stacks them, and may add a partial frame at the end.  What comes out
satisfies the invariant as long as the partial frame is not the frame whose index
stands for none (`construct_inv`).
-/

namespace Beelzebub.Memory

open Linked

namespace FrameAllocationSpace

open LargeFrameDescriptor (nullIndex subDescriptorsCount Stacked)

/-- The end of the memory, rounded down to a large page. -/
def alignedEnd (physEnd : Nat) : Nat := physEnd - physEnd % largePageSize

/-- The first and largest step of the constructor does not wrap around. -/
def NoWrap (physStart : Nat) : Prop := physStart + 2 ^ 31 * LargeFrameDescriptor.size < 2 ^ 64

/-- Frame number `n` and the descriptors up to it fit. -/
def WholeFits (physStart physEnd n : Nat) : Prop :=
  physStart + (n + 1) * LargeFrameDescriptor.size + (n + 1) * largePageSize ≤ alignedEnd physEnd

/-- The descriptors up to number `n` fit in front of `n` large frames, and enough is
left behind them for a partial frame. -/
def PartFits (physStart physEnd n : Nat) : Prop :=
  physStart + (n + 1) * LargeFrameDescriptor.size + n * largePageSize ≤ alignedEnd physEnd ∧
    3 * pageSize ≤ physEnd - alignedEnd physEnd

instance (physStart : Nat) : Decidable (NoWrap physStart) := inferInstanceAs (Decidable (_ < _))

instance (physStart physEnd n : Nat) : Decidable (WholeFits physStart physEnd n) :=
  inferInstanceAs (Decidable (_ ≤ _))

instance (physStart physEnd n : Nat) : Decidable (PartFits physStart physEnd n) :=
  inferInstanceAs (Decidable (_ ∧ _))

/-! ## The two ends -/

/-- The ends after `n` frames were given room. -/
def Squeeze.advance (s : Squeeze) (n : Nat) : Squeeze :=
  { ctrlEnd := s.ctrlEnd + n * LargeFrameDescriptor.size
    allocStart := s.allocStart - n * largePageSize
    frameCount := s.frameCount + n }

theorem Squeeze.advance_zero (s : Squeeze) : s.advance 0 = s := by
  simp [Squeeze.advance]

theorem Squeeze.advance_advance (s : Squeeze) (m n : Nat) :
    (s.advance m).advance n = s.advance (m + n) := by
  simp only [Squeeze.advance, Nat.add_mul, Nat.add_assoc, Nat.sub_sub]

/-- `n` frames and their descriptors fit between the two ends. -/
def Squeeze.Room (s : Squeeze) (n : Nat) : Prop :=
  s.ctrlEnd + n * LargeFrameDescriptor.size + n * largePageSize ≤ s.allocStart

theorem Squeeze.Room.mono {s : Squeeze} {m n : Nat} (h : s.Room n) (hle : m ≤ n) : s.Room m := by
  have hsize := Nat.mul_le_mul_right LargeFrameDescriptor.size hle
  have hpage := Nat.mul_le_mul_right largePageSize hle
  unfold Squeeze.Room at h ⊢
  omega

/-- Room for more frames is room for the rest of them behind the first ones. -/
theorem Squeeze.room_advance {s : Squeeze} {m n : Nat} (h : s.Room (m + n)) :
    (s.advance m).Room n := by
  unfold Squeeze.Room Squeeze.advance at *
  rw [Nat.add_mul, Nat.add_mul] at h
  simp only
  omega

/-- The constructor gives room to as many frames as it can.  Nothing wraps around, since the first
step does not. -/
theorem squeeze_spec (k : Nat) (s : Squeeze) (hk : k ≤ 32)
    (hctrl : 2 * s.ctrlEnd + 2 ^ k * LargeFrameDescriptor.size < 2 ^ 65)
    (hstart : s.allocStart < 2 ^ 64) :
    ∃ n < 2 ^ k, squeeze k s = s.advance n ∧ (n = 0 ∨ s.Room n) ∧
      ∀ m < 2 ^ k, s.Room m → m ≤ n := by
  induction k generalizing s with
  | zero =>
      refine ⟨0, by decide, s.advance_zero.symm, Or.inl rfl, ?_⟩
      intro m hm _
      exact Nat.le_of_lt_succ hm
  | succ k ih =>
      have hpow : 2 ^ k ≤ 2 ^ 31 := Nat.pow_le_pow_right (by decide) (by omega)
      rw [squeeze]
      rw [Nat.pow_succ] at hctrl ⊢
      unfold LargeFrameDescriptor.size at hctrl
      have hadd : Word.add s.ctrlEnd (2 ^ k * LargeFrameDescriptor.size) =
          s.ctrlEnd + 2 ^ k * LargeFrameDescriptor.size := by
        refine Word.add_of_lt ?_
        unfold LargeFrameDescriptor.size
        omega
      -- the ends stay where they are
      have hstay (hnone : ¬s.Room (2 ^ k)) : ∃ n < 2 ^ k * 2, squeeze k s = s.advance n ∧
          (n = 0 ∨ s.Room n) ∧ ∀ m < 2 ^ k * 2, s.Room m → m ≤ n := by
        obtain ⟨n, hn, heq, hroom, hmax⟩ := ih s (by omega)
          (by unfold LargeFrameDescriptor.size; omega) hstart
        refine ⟨n, by omega, heq, hroom, ?_⟩
        intro m _ hm
        refine hmax m ?_ hm
        by_contra hle
        exact hnone (hm.mono (Nat.not_lt.mp hle))
      simp only [hadd]
      by_cases hle : 2 ^ k * largePageSize ≤ s.allocStart
      · rw [Word.sub_of_le hstart hle]
        rw [if_neg (by omega)]
        by_cases hfit : s.ctrlEnd + 2 ^ k * LargeFrameDescriptor.size ≤
            s.allocStart - 2 ^ k * largePageSize
        · rw [if_pos hfit]
          have hroom : s.Room (2 ^ k) := by
            unfold Squeeze.Room
            omega
          split
          next hexact =>
            refine ⟨2 ^ k, by have := Nat.two_pow_pos k; omega, rfl, Or.inr hroom, ?_⟩
            intro m _ hm
            by_contra hlt
            have hmore : (s.advance (2 ^ k)).Room (m - 2 ^ k) := by
              refine Squeeze.room_advance ?_
              rw [Nat.add_sub_cancel' (Nat.le_of_lt (Nat.not_le.mp hlt))]
              exact hm
            have hone : 1 ≤ m - 2 ^ k := by omega
            have hmore := hmore.mono hone
            unfold Squeeze.Room Squeeze.advance LargeFrameDescriptor.size at hmore
            unfold LargeFrameDescriptor.size at hexact
            simp only at hmore
            omega
          next hne =>
            unfold LargeFrameDescriptor.size largePageSize at hfit
            obtain ⟨n, hn, heq, hroom', hmax⟩ := ih (s.advance (2 ^ k)) (by omega)
              (by
                unfold Squeeze.advance LargeFrameDescriptor.size
                simp only
                omega)
              (by
                unfold Squeeze.advance
                simp only
                omega)
            refine ⟨2 ^ k + n, by omega, ?_, Or.inr ?_, ?_⟩
            · rw [← Squeeze.advance_advance, ← heq]
              rfl
            · rcases hroom' with rfl | hroom'
              · exact hroom
              · unfold Squeeze.Room Squeeze.advance at hroom'
                unfold Squeeze.Room
                rw [Nat.add_mul, Nat.add_mul]
                simp only at hroom'
                omega
            · intro m hm hroom'
              rcases Nat.le_total m (2 ^ k) with hsmall | hlarge
              · exact Nat.le_trans hsmall (Nat.le_add_right _ _)
              · have hrest := hmax (m - 2 ^ k) (by omega) (Squeeze.room_advance
                  (by rw [Nat.add_sub_cancel' hlarge]; exact hroom'))
                omega
        · rw [if_neg hfit]
          refine hstay ?_
          intro hroom
          unfold Squeeze.Room at hroom
          omega
      · rw [Word.sub_of_lt (by unfold largePageSize; omega) (by omega)]
        rw [if_pos (by unfold largePageSize at hle ⊢; omega)]
        refine hstay ?_
        intro hroom
        unfold Squeeze.Room at hroom
        omega

/-! ## The stack of large frames -/

section StackLarge

variable (space : FrameAllocationSpace)

theorem map_setLastNext (last : Option Nat) (i j : Nat) :
    (space.setLastNext last i).map j =
      if last = some j then { space.map j with nextIndex := i } else space.map j := by
  cases last with
  | none => rfl
  | some l =>
      rw [setLastNext, map_modify]
      by_cases hj : j = l
      · subst hj
        rw [if_pos rfl, if_pos rfl]
      · rw [if_neg hj, if_neg fun h => hj (Option.some.inj h).symm]

/-- Nothing but the descriptors and the stack changes. -/
theorem stackLarge_frame (n i : Nat) (last : Option Nat) :
    space.SameExtent (stackLarge n i last space) ∧
      (stackLarge n i last space).splitFree = space.splitFree ∧
      (stackLarge n i last space).memoryEnd = space.memoryEnd := by
  have hset : ∀ (sp : FrameAllocationSpace) (last : Option Nat) (k : Nat),
      sp.SameExtent (sp.setLastNext last k) ∧ (sp.setLastNext last k).splitFree = sp.splitFree ∧
        (sp.setLastNext last k).memoryEnd = sp.memoryEnd := by
    intro sp last k
    cases last <;> exact ⟨⟨rfl, rfl, rfl, rfl, rfl⟩, rfl, rfl⟩
  induction n generalizing i last space with
  | zero => exact hset space last nullIndex
  | succ n ih =>
      obtain ⟨hext, hsplit, hend⟩ := hset space last i
      obtain ⟨hext', hsplit', hend'⟩ := ih ((space.setLastNext last i).modify i
        (LargeFrameDescriptor.new (space.allocationStart + i * largePageSize))) (i + 1) (some i)
      exact ⟨(hext.trans (sameExtent_modify _ i _)).trans hext', hsplit'.trans hsplit,
        hend'.trans hend⟩

theorem largeFree_stackLarge (n i : Nat) (last : Option Nat) :
    (stackLarge n i last space).largeFree =
      if last = none then (if n = 0 then nullIndex else i) else space.largeFree := by
  induction n generalizing i last space with
  | zero => cases last <;> rfl
  | succ n ih =>
      rw [stackLarge, ih, if_neg (by simp), if_neg (Nat.succ_ne_zero n)]
      cases last <;> rfl

/-- The large frames that the loop constructs, each pointing to the next one. -/
theorem map_stackLarge (n i : Nat) (last : Option Nat) (hlast : ∀ l ∈ last, l < i) (j : Nat) :
    (stackLarge n i last space).map j =
      if i ≤ j ∧ j < i + n then
        { (space.map j).new (space.allocationStart + j * largePageSize) with
          nextIndex := if j + 1 < i + n then j + 1 else nullIndex }
      else if last = some j then
        { space.map j with nextIndex := if n = 0 then nullIndex else i }
      else space.map j := by
  induction n generalizing i last space with
  | zero =>
      have hout : ¬(i ≤ j ∧ j < i + 0) := by omega
      rw [stackLarge, map_setLastNext, if_neg hout]
      rfl
  | succ n ih =>
      have hstart : ((space.setLastNext last i).modify i (LargeFrameDescriptor.new
          (space.allocationStart + i * largePageSize))).allocationStart =
          space.allocationStart := by
        cases last <;> rfl
      rw [stackLarge, ih _ (i + 1) (some i) (by simp), hstart]
      simp only [map_modify, map_setLastNext]
      rcases Nat.lt_trichotomy j i with hj | rfl | hj
      · have h1 : ¬(i + 1 ≤ j ∧ j < i + 1 + n) := by omega
        have h2 : ¬some i = some j := by simp; omega
        have h3 : ¬(i ≤ j ∧ j < i + (n + 1)) := by omega
        rw [if_neg h1, if_neg h2, if_neg h3, if_neg (Nat.ne_of_lt hj), if_neg (Nat.succ_ne_zero n)]
      · have h1 : ¬(j + 1 ≤ j ∧ j < j + 1 + n) := by omega
        have h2 : j ≤ j ∧ j < j + (n + 1) := by omega
        have h3 : last ≠ some j := fun h => Nat.lt_irrefl j (hlast j h)
        have h4 : (if n = 0 then nullIndex else j + 1) =
            if j + 1 < j + (n + 1) then j + 1 else nullIndex := by
          split_ifs <;> first | rfl | omega
        rw [if_neg h1, if_pos rfl, if_pos h2, if_pos rfl, if_neg h3, h4]
      · have h1 : ¬some i = some j := by simp; omega
        have h2 : ¬last = some j := fun h => by have := hlast j h; omega
        have h3 : (i + 1 ≤ j ∧ j < i + 1 + n) ↔ i ≤ j ∧ j < i + (n + 1) := by omega
        have h4 : j + 1 < i + 1 + n ↔ j + 1 < i + (n + 1) := by omega
        simp only [if_neg h1, if_neg h2, if_neg (Nat.ne_of_gt hj), h3, h4]

end StackLarge

/-! ## The constructed space -/

/-- The fields that the constructor sets once it knows that `n` frames fit. -/
def blank (mem : Nat → LargeFrameDescriptor) (physStart physEnd n : Nat) :
    FrameAllocationSpace :=
  { memoryStart := physStart
    memoryEnd := physEnd
    size := Word.sub physEnd physStart
    allocationStart := alignedEnd physEnd - n * largePageSize
    allocationEnd := alignedEnd physEnd
    allocableSize := alignedEnd physEnd - (alignedEnd physEnd - n * largePageSize)
    controlAreaSize := n * LargeFrameDescriptor.size
    freeSize := alignedEnd physEnd - (alignedEnd physEnd - n * largePageSize)
    reservedSize := 0
    largeFrameCount := n
    mapAddress := physStart
    map := mem
    largeFree := nullIndex
    splitFree := nullIndex }

/-- A space of `n` free large frames, before the partial frame is looked at. -/
def stacked (mem : Nat → LargeFrameDescriptor) (physStart physEnd n : Nat) :
    FrameAllocationSpace :=
  (blank mem physStart physEnd n).stackLarge n 0 none

/-- The number of small frames that a partial frame has. -/
def partialCount (physEnd : Nat) : Nat := (physEnd - alignedEnd physEnd) / pageSize - 2

section Construct

variable {mem : Nat → LargeFrameDescriptor} {physStart physEnd n : Nat}
  {space : FrameAllocationSpace}

theorem alignedEnd_le (physEnd : Nat) : alignedEnd physEnd ≤ physEnd := Nat.sub_le ..

theorem alignedEnd_gap (physEnd : Nat) : physEnd - alignedEnd physEnd < largePageSize := by
  have := Nat.mod_lt physEnd (show 0 < largePageSize by decide)
  have := Nat.mod_le physEnd largePageSize
  unfold alignedEnd
  omega

theorem stacked_extent (mem : Nat → LargeFrameDescriptor) (physStart physEnd n : Nat) :
    (stacked mem physStart physEnd n).largeFrameCount = n ∧
      (stacked mem physStart physEnd n).allocationStart =
        alignedEnd physEnd - n * largePageSize ∧
      (stacked mem physStart physEnd n).allocationEnd = alignedEnd physEnd ∧
      (stacked mem physStart physEnd n).mapAddress = physStart ∧
      (stacked mem physStart physEnd n).controlAreaSize = n * LargeFrameDescriptor.size := by
  have hext := (stackLarge_frame (blank mem physStart physEnd n) n 0 none).1
  exact ⟨hext.largeFrameCount, hext.allocationStart, hext.allocationEnd, hext.mapAddress,
    hext.controlAreaSize⟩

theorem stacked_map {i : Nat} (hi : i < n) :
    ((stacked mem physStart physEnd n).map i).status = .free ∧
      ((stacked mem physStart physEnd n).map i).nextIndex =
        if i + 1 < n then i + 1 else nullIndex := by
  have hrange : 0 ≤ i ∧ i < 0 + n := by omega
  rw [stacked, map_stackLarge _ _ _ _ (by simp), if_pos hrange, Nat.zero_add]
  exact ⟨rfl, rfl⟩

/-- What the constructor makes of the number of frames that it found room for. -/
theorem construct_of_squeeze {s : Squeeze} (hzero : n ≠ 0)
    (hs : s = { ctrlEnd := physStart, allocStart := alignedEnd physEnd, frameCount := 0 })
    (heq : squeeze 32 s = s.advance n) :
    construct mem physStart physEnd = some ((stacked mem physStart physEnd n).addPartialFrame
      (physStart + n * LargeFrameDescriptor.size) (alignedEnd physEnd)) := by
  subst hs
  unfold alignedEnd at heq
  unfold construct
  simp only [heq, Squeeze.advance, Nat.zero_add]
  rw [if_neg hzero]
  rfl

theorem construct_eq_none {s : Squeeze}
    (hs : s = { ctrlEnd := physStart, allocStart := alignedEnd physEnd, frameCount := 0 })
    (heq : squeeze 32 s = s.advance 0) : construct mem physStart physEnd = none := by
  subst hs
  unfold alignedEnd at heq
  unfold construct
  simp only [heq, Squeeze.advance, Nat.zero_add]
  rfl

/-- What the constructor builds: as many large frames as it found room for, and
perhaps a partial one. -/
theorem construct_eq (hstart : NoWrap physStart) (hend : physEnd < 2 ^ 64)
    (h : construct mem physStart physEnd = some space) :
    ∃ n, 0 < n ∧ n < 2 ^ 32 ∧
      physStart + n * LargeFrameDescriptor.size + n * largePageSize ≤ alignedEnd physEnd ∧
      space = (stacked mem physStart physEnd n).addPartialFrame
        (physStart + n * LargeFrameDescriptor.size) (alignedEnd physEnd) := by
  have hle := alignedEnd_le physEnd
  obtain ⟨n, hn, heq, hroom, -⟩ := squeeze_spec 32
    { ctrlEnd := physStart, allocStart := alignedEnd physEnd, frameCount := 0 } (Nat.le_refl _)
    (by
      unfold NoWrap LargeFrameDescriptor.size at hstart
      unfold LargeFrameDescriptor.size
      simp only
      omega)
    (by simp only; omega)
  by_cases hzero : n = 0
  · subst hzero
    rw [construct_eq_none rfl heq] at h
    cases h
  · rw [construct_of_squeeze hzero rfl heq] at h
    exact ⟨n, Nat.pos_of_ne_zero hzero, hn, hroom.resolve_left hzero, (Option.some.inj h).symm⟩

/-- The space with a partial frame, as number `n`. -/
structure WithPartial (mem : Nat → LargeFrameDescriptor) (physStart physEnd n : Nat)
    (space : FrameAllocationSpace) : Prop where
  largeFrameCount : space.largeFrameCount = n + 1
  allocationStart : space.allocationStart = alignedEnd physEnd - n * largePageSize
  allocationEnd : space.allocationEnd = physEnd
  mapAddress : space.mapAddress = physStart
  controlAreaSize : space.controlAreaSize = (n + 1) * LargeFrameDescriptor.size
  largeFree : space.largeFree = (stacked mem physStart physEnd n).largeFree
  splitFree : space.splitFree = n
  map : ∀ j, space.map j = if j = n then
    (((stacked mem physStart physEnd n).map n).new (alignedEnd physEnd)).splitLargeFrame
      (partialCount physEnd)
    else (stacked mem physStart physEnd n).map j

theorem addPartialFrame_spec (mem : Nat → LargeFrameDescriptor) (physStart physEnd n : Nat)
    (hend : physEnd < 2 ^ 64)
    (hroom : physStart + n * LargeFrameDescriptor.size + n * largePageSize ≤
      alignedEnd physEnd) :
    ¬PartFits physStart physEnd n ∧
        (stacked mem physStart physEnd n).addPartialFrame
          (physStart + n * LargeFrameDescriptor.size) (alignedEnd physEnd) =
        stacked mem physStart physEnd n ∨
      PartFits physStart physEnd n ∧ WithPartial mem physStart physEnd n
        ((stacked mem physStart physEnd n).addPartialFrame
          (physStart + n * LargeFrameDescriptor.size) (alignedEnd physEnd)) := by
  have hle := alignedEnd_le physEnd
  obtain ⟨hcount, hstart, hallocEnd, haddr, hctrl⟩ := stacked_extent mem physStart physEnd n
  have hmem : (stacked mem physStart physEnd n).memoryEnd = physEnd :=
    (stackLarge_frame (blank mem physStart physEnd n) n 0 none).2.2
  have hsub : Word.sub (alignedEnd physEnd - n * largePageSize)
      (physStart + n * LargeFrameDescriptor.size) = alignedEnd physEnd - n * largePageSize -
        (physStart + n * LargeFrameDescriptor.size) :=
    Word.sub_of_le (by omega) (by omega)
  have hiff : Word.sub (stacked mem physStart physEnd n).allocationStart
      (physStart + n * LargeFrameDescriptor.size) ≥ LargeFrameDescriptor.size ∧
      (stacked mem physStart physEnd n).memoryEnd - alignedEnd physEnd ≥ 3 * pageSize ↔
      PartFits physStart physEnd n := by
    rw [hstart, hsub, hmem, PartFits]
    unfold LargeFrameDescriptor.size largePageSize at hroom ⊢
    omega
  by_cases hfit : PartFits physStart physEnd n
  · refine Or.inr ⟨hfit, ?_⟩
    rw [addPartialFrame, if_pos (hiff.mpr hfit)]
    refine ⟨?_, hstart, hmem, haddr, ?_, rfl, hcount, fun j => ?_⟩
    · show (stacked mem physStart physEnd n).largeFrameCount + 1 = _
      rw [hcount]
    · show (stacked mem physStart physEnd n).controlAreaSize + _ = _
      rw [hctrl, Nat.succ_mul]
    · show Function.update _ _ _ j = _
      rw [Function.update_apply, hcount, hmem]
      rfl
  · refine Or.inl ⟨hfit, ?_⟩
    rw [addPartialFrame, if_neg fun h => hfit (hiff.mp h)]

theorem largeStack_stacked (hn : n < 2 ^ 32) :
    (stacked mem physStart physEnd n).LargeStack (List.range' 0 n) := by
  obtain ⟨hcount, -⟩ := stacked_extent mem physStart physEnd n
  have hnext : ∀ i, 0 ≤ i → i < 0 + n → (stacked mem physStart physEnd n).next i =
      if i + 1 < 0 + n then some (i + 1) else none := by
    intro i _ hi
    rw [Nat.zero_add] at hi ⊢
    rw [next, (stacked_map hi).2]
    by_cases hlt : i + 1 < n
    · rw [if_pos hlt, if_pos hlt]
      refine link_of_ne ?_
      unfold LargeFrameDescriptor.nullIndex SplitFrameExtra.nullIndex
      omega
    · rw [if_neg hlt, if_neg hlt]
      exact link_null
  refine ⟨?_, List.nodup_range', fun i => ?_⟩
  · have hfree := largeFree_stackLarge (blank mem physStart physEnd n) n 0 none
    rw [if_pos rfl] at hfree
    rw [stacked, hfree]
    have hchain := chain_range' hnext
    cases n with
    | zero => exact hchain
    | succ n => exact hchain
  · rw [List.mem_range'_1, hcount, Nat.zero_add]
    exact ⟨fun hi => ⟨hi.2, (stacked_map hi.2).1⟩, fun hi => ⟨Nat.zero_le i, hi.1⟩⟩

theorem splitList_stacked : (stacked mem physStart physEnd n).SplitList [] := by
  obtain ⟨hcount, -⟩ := stacked_extent mem physStart physEnd n
  refine ⟨trivial, ?_, List.nodup_nil, fun i => ?_⟩
  · rw [stacked, (stackLarge_frame (blank mem physStart physEnd n) n 0 none).2.1]
    exact link_null
  · refine ⟨fun h => absurd h List.not_mem_nil, fun ⟨hi, hsplit⟩ => ?_⟩
    rw [hcount] at hi
    rw [statusOf, (stacked_map hi).1] at hsplit
    cases hsplit

/-- Without a partial frame all frames are free. -/
theorem inv_stacked (hn : n < 2 ^ 32) (hend : physEnd < 2 ^ 64)
    (hroom : n * largePageSize ≤ alignedEnd physEnd) : (stacked mem physStart physEnd n).Inv := by
  have hle := alignedEnd_le physEnd
  obtain ⟨hcount, hstart, hallocEnd, -⟩ := stacked_extent mem physStart physEnd n
  constructor
  case bounded =>
    rw [hcount]
    unfold LargeFrameDescriptor.nullIndex SplitFrameExtra.nullIndex
    omega
  case extent =>
    rw [hcount, hstart, hallocEnd]
    omega
  case end_lt =>
    rw [hallocEnd]
    omega
  case large => exact ⟨_, largeStack_stacked hn⟩
  case split => exact ⟨_, splitList_stacked⟩
  case frames =>
    intro i hi hsplit
    rw [hcount] at hi
    exact absurd (stacked_map hi).1 (IsSplit.ne_free hsplit)
  case trailing =>
    rintro i ⟨hi, hlt⟩
    rw [hcount] at hi
    rw [hstart, hallocEnd] at hlt
    unfold largePageSize at hroom hlt
    omega

theorem partialCount_bounds (h : 3 * pageSize ≤ physEnd - alignedEnd physEnd) :
    0 < partialCount physEnd ∧ partialCount physEnd < subDescriptorsCount := by
  have := alignedEnd_gap physEnd
  unfold partialCount LargeFrameDescriptor.subDescriptorsCount
  unfold largePageSize at this
  unfold pageSize at h ⊢
  omega

/-- With a partial frame, that one is split and all others are free. -/
theorem WithPartial.inv (h : WithPartial mem physStart physEnd n space)
    (hfit : PartFits physStart physEnd n) (hn : n < nullIndex) (hend : physEnd < 2 ^ 64) :
    space.Inv := by
  have hgap := alignedEnd_gap physEnd
  obtain ⟨hpos, hlt⟩ := partialCount_bounds hfit.2
  have hn' : n < 2 ^ 32 := by
    unfold LargeFrameDescriptor.nullIndex SplitFrameExtra.nullIndex at hn
    omega
  have hsplit : space.statusOf n = .split := by
    rw [statusOf, h.map, if_pos rfl]
    rfl
  have hother : ∀ j, j ≠ n → space.map j = (stacked mem physStart physEnd n).map j := by
    intro j hj
    rw [h.map, if_neg hj]
  have hfree : ∀ j < n, space.statusOf j = .free := by
    intro j hj
    rw [statusOf, hother j (Nat.ne_of_lt hj)]
    exact (stacked_map hj).1
  constructor
  case bounded =>
    rw [h.largeFrameCount]
    exact hn
  case extent =>
    rw [h.largeFrameCount, h.allocationStart, h.allocationEnd, Nat.succ_mul]
    omega
  case end_lt =>
    rw [h.allocationEnd]
    exact hend
  case large =>
    have hL : (stacked mem physStart physEnd n).LargeStack _ := largeStack_stacked hn'
    refine ⟨List.range' 0 n, ?_, List.nodup_range', fun i => ?_⟩
    · rw [h.largeFree, chain_congr fun j hj => ?_]
      · exact hL.chain
      · rw [List.mem_range'_1, Nat.zero_add] at hj
        rw [next, next, hother j (Nat.ne_of_lt hj.2)]
    · rw [List.mem_range'_1, Nat.zero_add, h.largeFrameCount]
      constructor
      · exact fun hi => ⟨Nat.lt_succ_of_lt hi.2, hfree i hi.2⟩
      · rintro ⟨hi, hst⟩
        refine ⟨Nat.zero_le i, Nat.lt_of_le_of_ne (Nat.le_of_lt_succ hi) ?_⟩
        rintro rfl
        rw [hsplit] at hst
        cases hst
  case split =>
    refine ⟨[n], ⟨?_, ?_, trivial⟩, ?_, List.nodup_singleton n, fun i => ?_⟩
    · rw [prev, h.map, if_pos rfl, LargeFrameDescriptor.extras_splitLargeFrame _ hpos]
      exact link_null
    · rw [next, h.map, if_pos rfl, LargeFrameDescriptor.nextIndex_splitLargeFrame]
      exact link_null
    · rw [h.splitFree]
      exact link_of_ne (Nat.ne_of_lt hn)
    · rw [List.mem_singleton, h.largeFrameCount]
      constructor
      · rintro rfl
        exact ⟨Nat.lt_succ_self i, hsplit⟩
      · rintro ⟨hi, hst⟩
        by_contra hne
        rw [hfree i (by omega)] at hst
        cases hst
  case frames =>
    intro i hi hst
    have hin : i = n := by
      by_contra hne
      rw [h.largeFrameCount] at hi
      exact IsSplit.ne_free hst (hfree i (by omega))
    rw [hin, h.map, if_pos rfl]
    refine ⟨List.range' 1 (partialCount physEnd),
      LargeFrameDescriptor.stacked_splitLargeFrame _ _ hpos (Nat.le_of_lt hlt), ?_, ?_⟩
    · rw [LargeFrameDescriptor.status_splitLargeFrame]
      simp [Nat.pos_iff_ne_zero.mp hpos]
    · rw [List.length_range']
      exact hlt
  case trailing =>
    rintro i ⟨hi, hend'⟩
    have hin : i = n := by
      by_contra hne
      rw [h.largeFrameCount] at hi
      rw [h.allocationStart, h.allocationEnd] at hend'
      have hroom := hfit.1
      have hle := alignedEnd_le physEnd
      unfold largePageSize at hend' hroom
      omega
    subst hin
    refine ⟨Or.inl hsplit, ?_⟩
    rw [h.map, if_pos rfl, LargeFrameDescriptor.small_splitLargeFrame _ (Nat.le_of_lt hlt)
      (by decide), if_neg (Nat.not_le_of_lt hlt)]

/-- The constructor establishes the invariant, unless the partial frame would get
the index that stands for none. -/
theorem construct_inv (hstart : NoWrap physStart) (hend : physEnd < 2 ^ 64)
    (hfit : ¬PartFits physStart physEnd nullIndex)
    (h : construct mem physStart physEnd = some space) : space.Inv := by
  obtain ⟨n, -, hn, hroom, rfl⟩ := construct_eq hstart hend h
  rcases addPartialFrame_spec mem physStart physEnd n hend hroom with ⟨-, heq⟩ | ⟨hpart, hwith⟩
  · rw [heq]
    exact inv_stacked hn hend (by omega)
  · refine hwith.inv hpart (Nat.lt_of_le_of_ne ?_ ?_) hend
    · unfold LargeFrameDescriptor.nullIndex SplitFrameExtra.nullIndex
      omega
    · rintro rfl
      exact hfit hpart

end Construct

end FrameAllocationSpace

end Beelzebub.Memory
