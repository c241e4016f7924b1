import Beelzebub.Memory.Ownership

/-!
# No memory is handed out twice

Runs of an allocation space together with the allocations that are held.
-/

namespace Beelzebub.Memory

namespace FrameAllocationSpace

open LargeFrameDescriptor (nullIndex subDescriptorsCount)

/-- A run from the construction on, with the allocations that were made and not
freed yet. -/
inductive Run (mem : Nat → LargeFrameDescriptor) (physStart physEnd : Nat) :
    FrameAllocationSpace → List Allocation → Prop
  | construct {space : FrameAllocationSpace} :
      FrameAllocationSpace.construct mem physStart physEnd = some space →
      Run mem physStart physEnd space []
  | allocateFrame {space : FrameAllocationSpace} {live : List Allocation} (size : FrameSize)
      (refCnt : Nat) : Run mem physStart physEnd space live →
      Run mem physStart physEnd (space.allocateFrame size refCnt).2
        (record (space.allocateFrame size refCnt).1 size live)
  | mingle {space : FrameAllocationSpace} {live : List Allocation} (addr newCnt : Nat)
      (diff : Int) (ignoreRefCnt : Bool) : Run mem physStart physEnd space live →
      Run mem physStart physEnd (space.mingle addr newCnt diff ignoreRefCnt).2.2
        (if Frees diff (space.mingle addr newCnt diff ignoreRefCnt) then release addr live
          else live)

/-- The first page of a large frame, which holds the descriptors once it is split. -/
def descriptorPage (space : FrameAllocationSpace) (l : Nat) : Allocation :=
  { address := space.address (.large l), size := ._4KiB }

/-- The allocations that are held are the holders' alone. -/
structure Exclusive (space : FrameAllocationSpace) (live : List Allocation) : Prop where
  inRange : ∀ f ∈ live, space.allocationStart ≤ f.address ∧
    f.address + f.size.bytes ≤ space.allocationEnd
  /-- They are past the control structures. -/
  control : ∀ f ∈ live, space.mapAddress + space.controlAreaSize ≤ f.address
  /-- They miss the descriptors of split frames. -/
  descriptors : ∀ f ∈ live, ∀ l < space.largeFrameCount, (space.statusOf l).IsSplit →
    f.Disjoint (space.descriptorPage l)
  disjoint : live.Pairwise Allocation.Disjoint
  /-- The address leads to a frame in use, of the size that was asked for. -/
  info : ∀ f ∈ live, space.InUse (space.select f.address) ∧
    space.address (space.select f.address) = f.address ∧
    space.getFrameInfo f.address =
      (.pageInUse, some (f.size, (space.descriptor (space.select f.address)).referenceCount))
  /-- The address frees that frame. -/
  freeing : ∀ f ∈ live, ∀ newCnt, (space.mingle f.address newCnt 0 true).1 = .okay ∧
    Loses space (space.mingle f.address newCnt 0 true).2.2 (space.select f.address)

section Runs

variable {space : FrameAllocationSpace} {mem : Nat → LargeFrameDescriptor}
  {physStart physEnd addr : Nat} {live : List Allocation} {g : Frame}

theorem index_select (addr : Nat) : (space.select addr).index = space.largeIndex addr := by
  unfold select
  split <;> rfl

theorem smallIndex_of_select {l s : Nat} (h : space.select addr = .small l s) :
    smallIndex addr = s := by
  unfold select at h
  split at h
  all_goals injection h

theorem Addressable.largeIndex_address (ha : space.Addressable) (hg : space.InUse g) :
    space.largeIndex (space.address g) = g.index := by
  rw [← index_select, ha.select_eq hg (contains_self g)]

theorem Addressable.smallIndex_address {l s : Nat} (ha : space.Addressable)
    (hg : space.InUse (.small l s)) : smallIndex (space.address (.small l s)) = s :=
  smallIndex_of_select (ha.select_eq hg (contains_self _))

theorem Addressable.not_out {g : Frame} (ha : space.Addressable) (hg : space.InUse g) :
    ¬(space.address g < space.allocationStart ∨ space.address g ≥ space.allocationEnd) := by
  have hrange := ha.inRange hg
  have hbytes := g.size.bytes_pos
  omega

/-- `GetFrameInfo` finds a frame in use by its address. -/
theorem Addressable.getFrameInfo (ha : space.Addressable) (hg : space.InUse g) :
    space.getFrameInfo (space.address g) =
      (.pageInUse, some (g.size, (space.descriptor g).referenceCount)) := by
  have hidx := ha.largeIndex_address hg
  rw [FrameAllocationSpace.getFrameInfo, if_neg (ha.not_out hg)]
  simp only [hidx]
  cases g with
  | large l =>
      have hused : (space.map l).status = .used := hg.2
      simp only [Frame.index, hused]
      rfl
  | small l s =>
      obtain ⟨⟨-, hsplit, hs⟩, hused⟩ := inUse_small.mp hg
      have hne : ¬s = 0 := by omega
      simp only [Frame.index, ha.smallIndex_address hg]
      rcases hsplit with hst | hst
      · have hst : (space.map l).status = .split := hst
        simp only [hst, if_neg hne, hused]
        rfl
      · have hst : (space.map l).status = .full := hst
        simp only [hst, if_neg hne, hused]
        rfl

/-- Freeing a frame in use by its address succeeds. -/
theorem Addressable.mingle_okay (ha : space.Addressable) (hg : space.InUse g) (newCnt : Nat) :
    (space.mingle (space.address g) newCnt 0 true).1 = .okay := by
  have hidx := ha.largeIndex_address hg
  rw [FrameAllocationSpace.mingle, if_neg (ha.not_out hg)]
  simp only [hidx]
  cases g with
  | large l =>
      have hused : (space.map l).status = .used := hg.2
      simp only [Frame.index, hused]
      rfl
  | small l s =>
      obtain ⟨⟨-, hsplit, hs⟩, hused⟩ := inUse_small.mp hg
      have hne : ¬s = 0 := by omega
      have hsmall : (space.mingleSmall l s newCnt 0 true).1 = .okay := by
        unfold mingleSmall
        simp only [if_neg hne, hused]
        rfl
      simp only [Frame.index, ha.smallIndex_address hg]
      rcases hsplit with hst | hst
      · have hst : (space.map l).status = .split := hst
        simp only [hst]
        exact hsmall
      · have hst : (space.map l).status = .full := hst
        simp only [hst]
        exact hsmall

/-- A frame in use misses the first page of every split frame. -/
theorem InUse.disjoint_descriptorPage {l : Nat} (hg : space.InUse g)
    (hsplit : (space.statusOf l).IsSplit) :
    (space.allocation g).Disjoint (space.descriptorPage l) := by
  unfold Allocation.Disjoint
  simp only [allocation, descriptorPage, address]
  unfold largePageSize pageSize
  cases g with
  | large i =>
      have hne : i ≠ l := by
        rintro rfl
        exact IsSplit.ne_used hsplit hg.2
      simp only [Frame.index, Frame.page, Frame.size, FrameSize.bytes]
      omega
  | small i s =>
      obtain ⟨⟨-, -, hs⟩, -⟩ := inUse_small.mp hg
      unfold LargeFrameDescriptor.subDescriptorsCount at hs
      simp only [Frame.index, Frame.page, Frame.size, FrameSize.bytes]
      omega

/-- If the list tracks the frames in use, what it holds is exclusive. -/
theorem Tracks.toExclusive (h : space.Tracks live) (ha : space.Addressable) :
    space.Exclusive live where
  inRange f hf := by
    obtain ⟨g, hg, rfl⟩ := (h.mem_iff f).mp hf
    exact ha.inRange hg
  control f hf := by
    obtain ⟨g, hg, rfl⟩ := (h.mem_iff f).mp hf
    exact Nat.le_trans ha.control (ha.inRange hg).1
  descriptors f hf l _ hsplit := by
    obtain ⟨g, hg, rfl⟩ := (h.mem_iff f).mp hf
    exact InUse.disjoint_descriptorPage hg hsplit
  disjoint := by
    refine h.nodup.pairwise_of_forall_ne fun f hf f' hf' hne => ?_
    obtain ⟨g, hg, rfl⟩ := (h.mem_iff f).mp hf
    obtain ⟨g', hg', rfl⟩ := (h.mem_iff f').mp hf'
    exact ha.disjoint hg hg' fun heq => hne (heq ▸ rfl)
  info f hf := by
    obtain ⟨g, hg, rfl⟩ := (h.mem_iff f).mp hf
    have hsel : space.select (space.allocation g).address = g :=
      ha.select_eq hg (contains_self g)
    rw [hsel]
    exact ⟨hg, rfl, ha.getFrameInfo hg⟩
  freeing f hf newCnt := by
    obtain ⟨g, hg, rfl⟩ := (h.mem_iff f).mp hf
    have hokay := ha.mingle_okay hg newCnt
    have hfrees : Frees 0 (space.mingle (space.address g) newCnt 0 true) = true := by
      simp [Frees, hokay]
    exact ⟨hokay, (ha.inv.mingle (space.address g) newCnt 0 true).2.inUse.1 hfrees⟩

/-! ## Construction -/

theorem alignedEnd_mod (physEnd : Nat) : alignedEnd physEnd % largePageSize = 0 := by
  unfold alignedEnd largePageSize
  omega

/-- The constructor numbers at most 2048 frames, if no frame after them fits. -/
theorem construct_count {n : Nat} (hwhole : ¬WholeFits physStart physEnd 2048)
    (hroom : physStart + n * LargeFrameDescriptor.size + n * largePageSize ≤
      alignedEnd physEnd) : n ≤ 2048 := by
  by_contra hn
  refine hwhole ?_
  unfold WholeFits
  unfold LargeFrameDescriptor.size largePageSize at hroom ⊢
  omega

theorem addressable_stacked {n : Nat} (hn : 0 < n) (hend : physEnd < 2 ^ 64)
    (hwhole : ¬WholeFits physStart physEnd 2048)
    (hroom : physStart + n * LargeFrameDescriptor.size + n * largePageSize ≤
      alignedEnd physEnd) :
    (stacked mem physStart physEnd n).Addressable ∧
      ∀ g, ¬(stacked mem physStart physEnd n).InUse g := by
  have hcount := construct_count hwhole hroom
  have hmod := alignedEnd_mod physEnd
  obtain ⟨hframes, hstart, hallocEnd, haddr, hctrl⟩ := stacked_extent mem physStart physEnd n
  refine ⟨?_, fun g hg => ?_⟩
  · constructor
    case inv => exact inv_stacked (by omega) hend (by omega)
    case count =>
      rw [hframes]
      exact hcount
    case aligned =>
      rw [hstart]
      unfold largePageSize at hmod hroom ⊢
      omega
    case start_pos =>
      rw [hstart]
      unfold LargeFrameDescriptor.size at hroom
      omega
    case control =>
      rw [haddr, hctrl, hstart]
      omega
    case beyond =>
      intro l hl s _ hs hlt
      rw [hframes] at hl
      unfold LargeFrameDescriptor.subDescriptorsCount at hs
      unfold address at hlt
      rw [hallocEnd, hstart] at hlt
      unfold largePageSize at hroom hlt
      unfold Frame.index Frame.page pageSize at hlt
      simp only at hlt
      omega
  · -- every frame is free
    have hfree : (stacked mem physStart physEnd n).statusOf g.index = .free := by
      have hl : g.index < n := by
        cases g with
        | large l => exact hframes ▸ hg.1
        | small l s => exact hframes ▸ hg.1.1
      exact (stacked_map hl).1
    cases g with
    | large l => exact not_inUse_large (fun h => by cases hfree.symm.trans h) hg
    | small l s => exact not_inUse_small (fun h => IsSplit.ne_free h hfree) hg

theorem WithPartial.addressable {n : Nat} (h : WithPartial mem physStart physEnd n space)
    (hend : physEnd < 2 ^ 64) (hwhole : ¬WholeFits physStart physEnd 2048)
    (hpart : ¬PartFits physStart physEnd 2048) (hfit : PartFits physStart physEnd n) :
    space.Addressable ∧ ∀ g, ¬space.InUse g := by
  have hroom := hfit.1
  have hcount : n < 2048 := by
    refine Nat.lt_of_le_of_ne (construct_count hwhole ?_) ?_
    · unfold LargeFrameDescriptor.size at hroom ⊢
      omega
    · rintro rfl
      exact hpart hfit
  have hmod := alignedEnd_mod physEnd
  have hle := alignedEnd_le physEnd
  obtain ⟨hpos, hlt⟩ := partialCount_bounds hfit.2
  have hfree : ∀ l < n, space.statusOf l = .free := by
    intro l hl
    rw [statusOf, h.map, if_neg (Nat.ne_of_lt hl)]
    exact (stacked_map hl).1
  have hsmall : ∀ s, 1 ≤ s → s ≤ subDescriptorsCount → (space.map n).small s =
      if s ≤ partialCount physEnd then { SmallFrameDescriptor.new with
        nextIndex := if s < partialCount physEnd then s + 1 else 0 }
      else { SmallFrameDescriptor.new with status := .reserved } := by
    intro s hs hs'
    rw [h.map, if_pos rfl, LargeFrameDescriptor.small_splitLargeFrame _ (Nat.le_of_lt hlt)
      ⟨hs, hs'⟩]
  refine ⟨?_, fun g hg => ?_⟩
  · constructor
    case inv =>
      refine h.inv hfit ?_ hend
      unfold LargeFrameDescriptor.nullIndex SplitFrameExtra.nullIndex
      omega
    case count =>
      rw [h.largeFrameCount]
      exact hcount
    case aligned =>
      rw [h.allocationStart]
      unfold largePageSize at hmod hroom ⊢
      omega
    case start_pos =>
      rw [h.allocationStart]
      unfold LargeFrameDescriptor.size at hroom
      omega
    case control =>
      rw [h.mapAddress, h.controlAreaSize, h.allocationStart]
      omega
    case beyond =>
      intro l hl s hs hs' hbeyond
      rw [h.largeFrameCount] at hl
      unfold address at hbeyond
      rw [h.allocationEnd, h.allocationStart] at hbeyond
      unfold Frame.index Frame.page at hbeyond
      simp only at hbeyond
      have hln : l = n := by
        by_contra hne
        unfold LargeFrameDescriptor.subDescriptorsCount at hs'
        unfold largePageSize at hroom hbeyond
        unfold pageSize at hbeyond
        omega
      subst hln
      rw [hsmall s hs hs', if_neg]
      unfold partialCount
      unfold largePageSize at hroom hbeyond
      unfold pageSize at hbeyond ⊢
      omega
  · cases g with
    | large l =>
        obtain ⟨hl, hused⟩ := inUse_large.mp hg
        rw [h.largeFrameCount] at hl
        by_cases hln : l = n
        · subst hln
          rw [statusOf, h.map, if_pos rfl] at hused
          cases hused
        · rw [hfree l (by omega)] at hused
          cases hused
    | small l s =>
        obtain ⟨⟨hl, hsplit, hs⟩, hused⟩ := inUse_small.mp hg
        rw [h.largeFrameCount] at hl
        by_cases hln : l = n
        · subst hln
          rw [hsmall s hs.1 hs.2] at hused
          split at hused <;> cases hused
        · exact IsSplit.ne_free hsplit (hfree l (by omega))

/-- A space of at most 2048 frames starts with all of them addressable and none in
use. -/
theorem construct_addressable (hstart : NoWrap physStart) (hend : physEnd < 2 ^ 64)
    (hwhole : ¬WholeFits physStart physEnd 2048) (hpart : ¬PartFits physStart physEnd 2048)
    (h : construct mem physStart physEnd = some space) :
    space.Addressable ∧ ∀ g, ¬space.InUse g := by
  obtain ⟨n, hn, -, hroom, rfl⟩ := construct_eq hstart hend h
  rcases addPartialFrame_spec mem physStart physEnd n hend hroom with ⟨-, heq⟩ | ⟨hfit, hwith⟩
  · rw [heq]
    exact addressable_stacked hn hend hwhole hroom
  · exact hwith.addressable hend hwhole hpart hfit

/-! ## Runs -/

theorem Run.tracks (hstart : NoWrap physStart) (hend : physEnd < 2 ^ 64)
    (hwhole : ¬WholeFits physStart physEnd 2048) (hpart : ¬PartFits physStart physEnd 2048)
    (h : Run mem physStart physEnd space live) : space.Addressable ∧ space.Tracks live := by
  induction h with
  | construct h =>
      obtain ⟨ha, hnone⟩ := construct_addressable hstart hend hwhole hpart h
      refine ⟨ha, fun f => ⟨fun hf => ?_, fun ⟨g, hg, _⟩ => absurd hg (hnone g)⟩, List.nodup_nil⟩
      cases hf
  | allocateFrame size refCnt _ ih =>
      exact ⟨(ih.1.allocateFrame size refCnt).1, ih.2.allocateFrame ih.1 size refCnt⟩
  | mingle addr newCnt diff ignoreRefCnt _ ih =>
      exact ⟨ih.1.mingle addr newCnt diff ignoreRefCnt,
        ih.2.mingle ih.1 addr newCnt diff ignoreRefCnt⟩

/-- In every run of a space of at most 2048 frames, what is held is exclusive, and an
allocation marks one more frame, which its address selects. -/
theorem Run.exclusive (hstart : NoWrap physStart) (hend : physEnd < 2 ^ 64)
    (hwhole : ¬WholeFits physStart physEnd 2048) (hpart : ¬PartFits physStart physEnd 2048)
    (h : Run mem physStart physEnd space live) :
    space.Exclusive live ∧ ∀ size refCnt, (space.allocateFrame size refCnt).1 ≠ 0 →
      Marks space (space.allocateFrame size refCnt).2 (space.allocateFrame size refCnt).1 refCnt
        size := by
  obtain ⟨ha, ht⟩ := h.tracks hstart hend hwhole hpart
  refine ⟨ht.toExclusive ha, fun size refCnt hne => ?_⟩
  obtain ⟨-, hzero | hmarks⟩ := ha.allocateFrame size refCnt
  · exact absurd hzero.1 hne
  · exact hmarks.2

/-- Some 16 MiB, of which the first large frame is taken. -/
theorem Run.exclusive_small :
    ∃ space, Run zeroed 0x100000 0x1104000 space [{ address := 0x200000, size := ._2MiB }] ∧
      space.Exclusive [{ address := 0x200000, size := ._2MiB }] := by
  have h : Run zeroed 0x100000 0x1104000 _ _ := .construct (Option.some_get (by decide)).symm
  have h := h.allocateFrame ._2MiB 1
  have hlive : record (((FrameAllocationSpace.construct zeroed 0x100000 0x1104000).get
      (by decide)).allocateFrame ._2MiB 1).1 ._2MiB [] =
      [{ address := 0x200000, size := ._2MiB }] := by
    decide
  rw [hlive] at h
  exact ⟨_, h, (h.exclusive (by decide) (by decide) (by decide) (by decide)).1⟩

/-- The first small frame comes from the first split frame. -/
theorem allocateFrame_first {l s : Nat} (hfree : space.splitFree = l) (hl : l ≠ nullIndex)
    (hs : (space.map l).extras.nextFree = s) (hnull : s ≠ SmallFrameDescriptor.nullIndex)
    (refCnt : Nat) :
    (space.allocateFrame ._4KiB refCnt).1 = space.frameAddress l s ∧
      (space.allocateFrame ._4KiB refCnt).2.largeFree = space.largeFree ∧
      (space.allocateFrame ._4KiB refCnt).2.allocationStart = space.allocationStart := by
  simp only [FrameAllocationSpace.allocateFrame, hfree, if_neg hl, hs, if_neg hnull]
  split
  · have hext := sameExtent_retireSplit
      (space.modify l (LargeFrameDescriptor.takeSmall refCnt)) l
    exact ⟨hext.frameAddress l s, largeFree_retireSplit _ l, hext.allocationStart⟩
  · exact ⟨rfl, rfl, rfl⟩

/-- A large frame comes from the top of the stack. -/
theorem allocateFrame_large (space : FrameAllocationSpace) (hnull : space.largeFree ≠ nullIndex)
    (refCnt : Nat) :
    (space.allocateFrame ._2MiB refCnt).1 = space.frameAddress space.largeFree 0 := by
  simp only [FrameAllocationSpace.allocateFrame, grabLargePage, if_neg hnull, if_true]
  rfl

/-- Beyond 4 GiB the partial frame, number 2048, gets the addresses of frame 0: the
small frame handed out first lies in the large frame handed out next. -/
theorem Run.frames_overlap :
    ¬∀ (mem : Nat → LargeFrameDescriptor) (physStart physEnd : Nat)
      (space : FrameAllocationSpace) (live : List Allocation),
      physStart % pageSize = 0 → physEnd % pageSize = 0 → physStart ≤ physEnd →
      physEnd < 2 ^ 64 → Run mem physStart physEnd space live →
      space.Exclusive live ∧ ∀ size refCnt, (space.allocateFrame size refCnt).1 ≠ 0 →
        Marks space (space.allocateFrame size refCnt).2 (space.allocateFrame size refCnt).1
          refCnt size := by
  intro h
  have hsqueeze : squeeze 32 { ctrlEnd := 0x100000, allocStart := alignedEnd 0x100204000
                               frameCount := 0 } =
      Squeeze.advance { ctrlEnd := 0x100000, allocStart := alignedEnd 0x100204000
                        frameCount := 0 } 2048 := by
    decide
  obtain ⟨-, hwith⟩ := (addPartialFrame_spec zeroed 0x100000 0x100204000 2048
    (by decide) (by decide)).resolve_left fun hn => hn.1 (by decide)
  have hrun : Run zeroed 0x100000 0x100204000 _ _ :=
    .construct (construct_of_squeeze (by decide) rfl hsqueeze)
  obtain ⟨hex, -⟩ := h _ _ _ _ _ (by decide) (by decide) (by decide) (by decide)
    ((hrun.allocateFrame ._4KiB 1).allocateFrame ._2MiB 1)
  generalize (stacked zeroed 0x100000 0x100204000 2048).addPartialFrame _ _ = space at hwith hex
  have hnext : (space.map 2048).extras.nextFree = 1 := by
    rw [hwith.map, if_pos rfl, LargeFrameDescriptor.extras_splitLargeFrame _ (by decide)]
  have hlarge : space.largeFree = 0 := by
    rw [hwith.largeFree, stacked, largeFree_stackLarge]
    rfl
  obtain ⟨hsmall, hfree, hstart⟩ :=
    allocateFrame_first hwith.splitFree (by decide) hnext (by decide) 1
  have hlarge' := allocateFrame_large (space.allocateFrame ._4KiB 1).2
    (by rw [hfree, hlarge]; decide) 1
  unfold FrameAllocationSpace.frameAddress at hsmall hlarge'
  rw [hwith.allocationStart] at hsmall
  rw [hstart, hfree, hlarge, hwith.allocationStart] at hlarge'
  have hdisj := hex.disjoint
  rw [hsmall, hlarge'] at hdisj
  exact absurd hdisj (by decide)

end Runs

end FrameAllocationSpace

end Beelzebub.Memory
