import Beelzebub.Memory.OwnershipRuns

/-!
# Reference counts

An allocation and a call of `Mingle` change the descriptor of one frame.  The other
frames in use keep theirs, and with it their reference counts.
-/

namespace Beelzebub.Memory

namespace FrameAllocationSpace

open LargeFrameDescriptor (nullIndex subDescriptorsCount)

variable {space space' : FrameAllocationSpace} {i j l s addr : Nat}

/-! ## Descriptors that stay -/

/-- The descriptors of a large frame and of its small frames are the same. -/
structure SameTags (j : Nat) (space space' : FrameAllocationSpace) : Prop where
  large : (space'.map j).toFrameDescriptor = (space.map j).toFrameDescriptor
  small : (space'.map j).small = (space.map j).small

theorem SameTags.refl (j : Nat) (space : FrameAllocationSpace) : SameTags j space space :=
  ⟨rfl, rfl⟩

theorem SameTags.trans {space'' : FrameAllocationSpace} (h : SameTags j space space')
    (h' : SameTags j space' space'') : SameTags j space space'' :=
  ⟨h'.large.trans h.large, h'.small.trans h.small⟩

theorem sameTags_modify {f : LargeFrameDescriptor → LargeFrameDescriptor}
    (h : j = i → (f (space.map i)).toFrameDescriptor = (space.map i).toFrameDescriptor ∧
      (f (space.map i)).small = (space.map i).small) :
    SameTags j space (space.modify i f) := by
  by_cases hj : j = i
  · subst hj
    obtain ⟨hl, hs⟩ := h rfl
    constructor
    · rw [map_modify_self, hl]
    · rw [map_modify_self, hs]
  · constructor <;> rw [map_modify_of_ne space _ hj]

theorem sameTags_modify_of_ne (f : LargeFrameDescriptor → LargeFrameDescriptor) (h : j ≠ i) :
    SameTags j space (space.modify i f) :=
  sameTags_modify fun hj => absurd hj h

theorem sameTags_setPrev (j i p : Nat) (space : FrameAllocationSpace) :
    SameTags j space (space.setPrev i p) := by
  unfold setPrev
  split
  · exact sameTags_modify fun _ => ⟨rfl, rfl⟩
  · exact .refl j space

theorem sameTags_setNext (j i n : Nat) (space : FrameAllocationSpace) :
    SameTags j space (space.setNext i n) := by
  unfold setNext
  split
  · exact sameTags_modify fun _ => ⟨rfl, rfl⟩
  · exact .refl j space

theorem sameTags_setSplitFree (j i : Nat) (space : FrameAllocationSpace) :
    SameTags j space (space.setSplitFree i) := ⟨rfl, rfl⟩

theorem sameTags_pushSplit (j i : Nat) (space : FrameAllocationSpace) :
    SameTags j space (space.pushSplit i) := by
  unfold pushSplit
  simp only
  refine .trans ?_ (sameTags_setPrev j ..)
  refine .trans ?_ (sameTags_setSplitFree ..)
  exact sameTags_modify fun _ => ⟨rfl, rfl⟩

theorem sameTags_unlinkSplit (j i : Nat) (space : FrameAllocationSpace) :
    SameTags j space (space.unlinkSplit i) := by
  have h := (sameTags_setPrev j (space.map i).nextIndex (space.map i).extras.prevIndex space).trans
    (sameTags_setNext j (space.map i).extras.prevIndex (space.map i).nextIndex _)
  exact ⟨h.large, h.small⟩

theorem sameTags_retireSplit (h : j ≠ i) : SameTags j space (space.retireSplit i) := by
  unfold retireSplit
  simp only
  refine .trans ?_ (sameTags_setPrev j ..)
  refine .trans ?_ (sameTags_setSplitFree ..)
  exact sameTags_modify_of_ne _ h

theorem small_retireSplit (space : FrameAllocationSpace) (i j : Nat) :
    ((space.retireSplit i).map j).small = (space.map j).small := by
  unfold retireSplit
  simp only
  rw [(sameTags_setPrev j ..).small, (sameTags_setSplitFree ..).small, map_modify]
  split
  next hj => rw [hj]
  next => rfl

theorem sameTags_pushLarge (h : j ≠ i) : SameTags j space (space.pushLarge i) := by
  have hm : SameTags j space (space.modify i fun d =>
      { d with toFrameDescriptor := d.toFrameDescriptor.free, nextIndex := space.largeFree }) :=
    sameTags_modify_of_ne _ h
  exact ⟨hm.large, hm.small⟩

theorem small_pushLarge (space : FrameAllocationSpace) (i j : Nat) :
    ((space.pushLarge i).map j).small = (space.map j).small := by
  unfold pushLarge
  simp only
  rw [map_setLargeFree, map_modify]
  split
  next hj => rw [hj]
  next => rfl

/-! ## Release -/

theorem sameTags_releaseSmall (h : j ≠ l) : SameTags j space (space.releaseSmall l s) := by
  unfold releaseSmall
  have hgive : SameTags j space (space.modify l (LargeFrameDescriptor.giveSmall s)) :=
    sameTags_modify_of_ne _ h
  simp only
  split
  · refine .trans ?_ (sameTags_modify fun _ => ⟨rfl, rfl⟩)
    refine .trans ?_ (sameTags_pushSplit ..)
    exact hgive.trans (sameTags_modify_of_ne _ h)
  · split
    · exact (hgive.trans (sameTags_unlinkSplit j l _)).trans (sameTags_pushLarge h)
    · exact hgive

/-- The other small frames of the large frame. -/
theorem small_releaseSmall {t : Nat} (ht : t ≠ s) :
    ((space.releaseSmall l s).map l).small t = (space.map l).small t := by
  have hgive : ((space.modify l (LargeFrameDescriptor.giveSmall s)).map l).small t =
      (space.map l).small t := by
    rw [map_modify_self]
    show Function.update _ _ _ t = _
    rw [Function.update_of_ne ht]
  unfold releaseSmall
  simp only
  split
  · rw [map_modify_self]
    show (FrameAllocationSpace.map _ l).small t = _
    rw [(sameTags_pushSplit l l _).small, map_modify_self]
    exact hgive
  · split
    · rw [small_pushLarge, (sameTags_unlinkSplit l l _).small]
      exact hgive
    · exact hgive

theorem sameTags_mingle (addr newCnt : Nat) (diff : Int) (ignoreRefCnt : Bool)
    (h : j ≠ space.largeIndex addr) :
    SameTags j space (space.mingle addr newCnt diff ignoreRefCnt).2.2 := by
  unfold mingle
  split
  · exact .refl j space
  · simp only
    have hsmall : SameTags j space (space.mingleSmall (space.largeIndex addr) (smallIndex addr)
        newCnt diff ignoreRefCnt).2.2 := by
      unfold mingleSmall
      split
      · exact .refl j space
      · simp only
        split
        all_goals try exact .refl j space
        split
        · exact .trans (sameTags_modify_of_ne _ h) (sameTags_releaseSmall h)
        · show SameTags j space (FrameAllocationSpace.modify _ _ _)
          exact sameTags_modify_of_ne _ h
    split
    · exact .refl j space
    · unfold mingleLarge
      simp only
      split
      · exact .trans (sameTags_modify_of_ne _ h) (sameTags_pushLarge h)
      · dsimp only
        exact sameTags_modify_of_ne _ h
    · exact hsmall
    · exact hsmall
    · exact .refl j space

theorem small_mingle {t : Nat} (newCnt : Nat) (diff : Int) (ignoreRefCnt : Bool)
    (hsplit : (space.statusOf (space.largeIndex addr)).IsSplit) (ht : t ≠ smallIndex addr) :
    ((space.mingle addr newCnt diff ignoreRefCnt).2.2.map (space.largeIndex addr)).small t =
      (space.map (space.largeIndex addr)).small t := by
  have hsmall : ((space.mingleSmall (space.largeIndex addr) (smallIndex addr) newCnt diff
      ignoreRefCnt).2.2.map (space.largeIndex addr)).small t =
      (space.map (space.largeIndex addr)).small t := by
    have hset : ∀ d, ((space.modify (space.largeIndex addr) (LargeFrameDescriptor.setSmall
        (smallIndex addr) d)).map (space.largeIndex addr)).small t =
        (space.map (space.largeIndex addr)).small t := by
      intro d
      rw [map_modify_self, LargeFrameDescriptor.small_setSmall, if_neg ht]
    unfold mingleSmall
    split
    · rfl
    · simp only
      split
      all_goals try rfl
      split
      · exact (small_releaseSmall ht).trans (hset _)
      · exact hset _
  unfold mingle
  split
  · rfl
  · rcases hsplit with hst | hst
    · have hst : (space.map (space.largeIndex addr)).status = .split := hst
      simp only [hst]
      exact hsmall
    · have hst : (space.map (space.largeIndex addr)).status = .full := hst
      simp only [hst]
      exact hsmall

variable {x g : Frame}

/-- A frame in use keeps its descriptor, unless it is the one selected. -/
theorem mingle_keeps (addr newCnt : Nat) (diff : Int) (ignoreRefCnt : Bool) (hx : space.InUse x)
    (hne : x ≠ space.select addr) :
    (space.mingle addr newCnt diff ignoreRefCnt).2.2.descriptor x = space.descriptor x := by
  by_cases hidx : x.index = space.largeIndex addr
  · cases x with
    | large j => exact absurd (select_of_used hidx.symm hx.2).symm hne
    | small j t =>
        obtain ⟨⟨-, hsplit, -⟩, -⟩ := inUse_small.mp hx
        obtain rfl : j = space.largeIndex addr := hidx
        have ht : t ≠ smallIndex addr := by
          rintro rfl
          exact hne (select_of_split rfl rfl hsplit).symm
        exact congrArg SmallFrameDescriptor.toFrameDescriptor
          (small_mingle newCnt diff ignoreRefCnt hsplit ht)
  · have htags := sameTags_mingle addr newCnt diff ignoreRefCnt hidx
    cases x with
    | large j => exact htags.large
    | small j t =>
        exact congrArg (fun f => (f t).toFrameDescriptor) htags.small

/-- The count of a frame after an adjustment. -/
def adjusted (cnt : Nat) (diff : Int) : Nat := ((cnt + diff) % 2 ^ 32).toNat

theorem test_adjusted (newCnt : Nat) {diff : Int} (hdiff : diff ≠ 0) (ignoreRefCnt : Bool)
    (d : FrameDescriptor) : test newCnt diff ignoreRefCnt d =
      (adjusted d.referenceCount diff == 0, adjusted d.referenceCount diff,
        { d with referenceCount := adjusted d.referenceCount diff }) := by
  rw [test, if_neg hdiff]
  rfl

/-- What an adjustment does to the frame that it is given. -/
theorem Addressable.mingle_count (ha : space.Addressable) (hg : space.InUse g) (newCnt : Nat)
    {diff : Int} (hdiff : diff ≠ 0) (ignoreRefCnt : Bool) :
    (space.mingle (space.address g) newCnt diff ignoreRefCnt).1 = .okay ∧
      (space.mingle (space.address g) newCnt diff ignoreRefCnt).2.1 =
        adjusted (space.descriptor g).referenceCount diff ∧
      (adjusted (space.descriptor g).referenceCount diff ≠ 0 →
        (space.mingle (space.address g) newCnt diff ignoreRefCnt).2.2.descriptor g =
          { status := .used
            referenceCount := adjusted (space.descriptor g).referenceCount diff }) := by
  have hidx := ha.largeIndex_address hg
  rw [FrameAllocationSpace.mingle, if_neg (ha.not_out hg)]
  simp only [hidx]
  cases g with
  | large l =>
      have hused : (space.map l).status = .used := hg.2
      simp only [Frame.index, hused]
      unfold mingleLarge
      rw [test_adjusted newCnt hdiff]
      simp only
      by_cases hzero : adjusted (space.map l).referenceCount diff = 0
      · have hzero' : adjusted (space.descriptor (.large l)).referenceCount diff = 0 := hzero
        simp [hzero, hzero']
      · simp only [beq_iff_eq, if_neg hzero, if_neg hdiff]
        refine ⟨trivial, rfl, fun _ => ?_⟩
        show ((space.modify l _).map l).toFrameDescriptor = _
        rw [map_modify_self]
        show FrameDescriptor.mk _ _ = _
        rw [hused]
        rfl
  | small l s =>
      obtain ⟨⟨-, hsplit, hs⟩, hused⟩ := inUse_small.mp hg
      have hne : ¬s = 0 := by omega
      have hsmall : (space.mingleSmall l s newCnt diff ignoreRefCnt).1 = .okay ∧
          (space.mingleSmall l s newCnt diff ignoreRefCnt).2.1 =
            adjusted (space.descriptor (.small l s)).referenceCount diff ∧
          (adjusted (space.descriptor (.small l s)).referenceCount diff ≠ 0 →
            (space.mingleSmall l s newCnt diff ignoreRefCnt).2.2.descriptor (.small l s) =
              { status := .used, referenceCount :=
                  adjusted (space.descriptor (.small l s)).referenceCount diff }) := by
        unfold mingleSmall
        simp only [if_neg hne, hused]
        rw [test_adjusted newCnt hdiff]
        simp only
        by_cases hzero : adjusted ((space.map l).small s).referenceCount diff = 0
        · have hzero' : adjusted (space.descriptor (.small l s)).referenceCount diff = 0 := hzero
          simp [hzero, hzero']
        · simp only [beq_iff_eq, if_neg hzero, if_neg hdiff]
          refine ⟨trivial, rfl, fun _ => ?_⟩
          show (((space.modify l _).map l).small s).toFrameDescriptor = _
          rw [map_modify_self, LargeFrameDescriptor.small_setSmall, if_pos rfl]
          show FrameDescriptor.mk _ _ = _
          rw [hused]
          rfl
      simp only [Frame.index, ha.smallIndex_address hg]
      rcases hsplit with hst | hst
      · have hst : (space.map l).status = .split := hst
        simp only [hst]
        exact hsmall
      · have hst : (space.map l).status = .full := hst
        simp only [hst]
        exact hsmall

/-! ## Allocation -/

theorem Inv.largeFree_status (hinv : space.Inv) (h : space.largeFree ≠ nullIndex) :
    space.statusOf space.largeFree = .free := by
  obtain ⟨L, hL⟩ := hinv.large
  have hhead := hL.chain.head?
  rw [Linked.link_of_ne h] at hhead
  exact ((hL.mem_iff _).mp (List.mem_of_mem_head? hhead.symm)).2

theorem Inv.splitFree_status (hinv : space.Inv) (h : space.splitFree ≠ nullIndex) :
    space.splitFree < space.largeFrameCount ∧ space.statusOf space.splitFree = .split := by
  obtain ⟨S, hS⟩ := hinv.split
  have hhead := hS.head
  rw [Linked.link_of_ne h] at hhead
  exact (hS.mem_iff _).mp (List.mem_of_mem_head? hhead.symm)

theorem sameTags_grabLargePage (size : FrameSize) (refCnt : Nat) (h : j ≠ space.largeFree) :
    SameTags j space (space.grabLargePage size refCnt).2 := by
  unfold grabLargePage
  simp only
  split
  · exact .refl j space
  · have hset : SameTags j space (space.setLargeFree (space.map space.largeFree).nextIndex) :=
      ⟨rfl, rfl⟩
    split
    · dsimp only
      exact hset.trans (sameTags_modify_of_ne _ h)
    · refine .trans ?_ (sameTags_pushSplit ..)
      exact (hset.trans (sameTags_modify_of_ne _ h)).trans (sameTags_modify_of_ne _ h)

/-- No frame in use is part of a free large frame. -/
theorem InUse.index_ne (hx : space.InUse x) (h : space.statusOf l = .free) : x.index ≠ l := by
  rintro rfl
  cases x with
  | large i =>
      have hused : space.statusOf i = .used := hx.2
      rw [show space.statusOf i = .free from h] at hused
      cases hused
  | small i t => exact IsSplit.ne_free hx.1.2.1 h

theorem SameTags.descriptor (h : SameTags x.index space space') :
    space'.descriptor x = space.descriptor x := by
  cases x with
  | large i => exact h.large
  | small i t => exact congrArg (fun f => (f t).toFrameDescriptor) h.small

/-- Taking a small frame from the first split frame. -/
theorem descriptor_takeSmall (refCnt : Nat) (hsplit : (space.statusOf l).IsSplit)
    (hx : space.InUse x) (hne : x ≠ .small l (space.map l).extras.nextFree) :
    (space.modify l (LargeFrameDescriptor.takeSmall refCnt)).descriptor x = space.descriptor x := by
  by_cases hidx : x.index = l
  · cases x with
    | large i =>
        obtain rfl : i = l := hidx
        exact absurd hx.2 (IsSplit.ne_used hsplit)
    | small i t =>
        obtain rfl : i = l := hidx
        show (((space.modify i _).map i).small t).toFrameDescriptor = _
        rw [map_modify_self]
        show ((LargeFrameDescriptor.setSmall _ _ (space.map i)).small t).toFrameDescriptor = _
        rw [LargeFrameDescriptor.small_setSmall, if_neg]
        · rfl
        · rintro rfl
          exact hne rfl
  · exact (sameTags_modify_of_ne _ hidx).descriptor

/-- The frames in use keep their descriptors when another one is allocated. -/
theorem allocateFrame_keeps (hinv : space.Inv) (size : FrameSize) (refCnt : Nat)
    (hx : space.InUse x) :
    (space.allocateFrame size refCnt).2.descriptor x = space.descriptor x := by
  have hgrab : (space.grabLargePage size refCnt).2.descriptor x = space.descriptor x := by
    by_cases hnull : space.largeFree = nullIndex
    · rw [grabLargePage, if_pos hnull]
    · exact (sameTags_grabLargePage size refCnt
        (hx.index_ne (hinv.largeFree_status hnull))).descriptor
  unfold allocateFrame
  split
  all_goals try rfl
  · exact hgrab
  · simp only
    split
    · exact hgrab
    next hnull =>
      obtain ⟨hl, hst⟩ := hinv.splitFree_status hnull
      have hsplit : (space.statusOf space.splitFree).IsSplit := Or.inl hst
      obtain ⟨xs, hstack, hfull, -⟩ := hinv.frames _ hl hsplit
      split
      next hnone =>
        -- a listed frame has a free small frame
        have hxs : xs = [] := by
          have hhead := hstack.chain.head?
          rw [hnone, Linked.link_null] at hhead
          exact List.head?_eq_none_iff.mp hhead.symm
        have hst' : (space.map space.splitFree).status = .split := hst
        rw [hfull.mpr hxs] at hst'
        cases hst'
      next hsome =>
        have hne : x ≠ .small space.splitFree (space.map space.splitFree).extras.nextFree := by
          rintro rfl
          have hhead := hstack.chain.head?
          rw [Linked.link_of_ne hsome] at hhead
          have hfree := ((hstack.mem_iff _).mp (List.mem_of_mem_head? hhead.symm)).2
          have hused := (inUse_small.mp hx).2
          rw [hfree] at hused
          cases hused
        have htake := descriptor_takeSmall refCnt hsplit hx hne
        split
        · -- the frame has nothing left
          cases x with
          | large i =>
              have hi : i ≠ space.splitFree := by
                rintro rfl
                exact absurd hx.2 (IsSplit.ne_used hsplit)
              exact (sameTags_retireSplit hi).large.trans htake
          | small i t =>
              refine Eq.trans ?_ htake
              show (FrameDescriptor.mk _ _) = FrameDescriptor.mk _ _
              rw [small_retireSplit]
        · exact htake

/-! ## Free frames -/

/-- `GetFrameInfo` reports the page around the address as free. -/
def FreeAt (space : FrameAllocationSpace) (addr : Nat) : Prop :=
  (space.getFrameInfo addr).1 = .pageFree

instance (space : FrameAllocationSpace) (addr : Nat) : Decidable (space.FreeAt addr) :=
  inferInstanceAs (Decidable (_ = _))

theorem freeAt_iff : space.FreeAt addr ↔
    (space.allocationStart ≤ addr ∧ addr < space.allocationEnd) ∧
      (space.statusOf (space.largeIndex addr) = .free ∨
        (space.statusOf (space.largeIndex addr)).IsSplit ∧ smallIndex addr ≠ 0 ∧
          ((space.map (space.largeIndex addr)).small (smallIndex addr)).status = .free) := by
  have hstatus : space.statusOf (space.largeIndex addr) =
    (space.map (space.largeIndex addr)).status := rfl
  unfold FreeAt getFrameInfo
  split
  next h =>
    refine ⟨nofun, fun hf => absurd h ?_⟩
    omega
  next h =>
    have hrange : space.allocationStart ≤ addr ∧ addr < space.allocationEnd := by omega
    simp only [hrange, and_self, true_and, hstatus]
    cases hst : (space.map (space.largeIndex addr)).status with
    | free => simp
    | used => simp [FrameStatus.IsSplit]
    | reserved => simp [FrameStatus.IsSplit]
    | split | full =>
        by_cases hs : smallIndex addr = 0
        · simp [hs]
        · cases hss : ((space.map (space.largeIndex addr)).small (smallIndex addr)).status <;>
            simp [hs, FrameStatus.IsSplit]

/-- A step that works on one large frame frees nothing elsewhere. -/
theorem Local.freeAt_iff (h : Local l space space') (hne : space.largeIndex addr ≠ l) :
    space'.FreeAt addr ↔ space.FreeAt addr := by
  have hidx : space'.largeIndex addr = space.largeIndex addr := by
    unfold largeIndex
    rw [h.extent.allocationStart]
  rw [FrameAllocationSpace.freeAt_iff, FrameAllocationSpace.freeAt_iff, hidx,
    h.extent.allocationStart, h.extent.allocationEnd, h.status_eq hne, (h.other _ hne).small]

/-- An allocation frees nothing. -/
theorem Allocates.freeAt {refCnt : Nat} {size : FrameSize}
    (h : Allocates space refCnt size i space') (hfree : space'.FreeAt addr) :
    space.FreeAt addr := by
  have hlocal : ∀ {l}, Local l space space' → (space.largeIndex addr = l →
      space.FreeAt addr) → space.FreeAt addr := by
    intro l hloc hat
    by_cases hidx : space.largeIndex addr = l
    · exact hat hidx
    · exact (hloc.freeAt_iff hidx).mp hfree
  have hrange : ∀ {l}, Local l space space' → (space.largeIndex addr = l →
      space'.largeIndex addr = l) ∧
      (space.allocationStart ≤ addr ∧ addr < space.allocationEnd) := by
    intro l hloc
    have hr := (FrameAllocationSpace.freeAt_iff.mp hfree).1
    rw [hloc.extent.allocationStart, hloc.extent.allocationEnd] at hr
    refine ⟨fun hidx => ?_, hr⟩
    rw [← hidx]
    unfold largeIndex
    rw [hloc.extent.allocationStart]
  cases h with
  | exhausted => exact hfree
  | @large l _ hl hst hdesc hloc =>
      refine hlocal hloc fun hidx => FrameAllocationSpace.freeAt_iff.mpr ⟨(hrange hloc).2, ?_⟩
      rw [hidx]
      exact Or.inl hst
  | @small l s _ hl hsplit hsplit' hs hst hsmall hloc =>
      refine hlocal hloc fun hidx => FrameAllocationSpace.freeAt_iff.mpr ⟨(hrange hloc).2, ?_⟩
      obtain ⟨-, hfree'⟩ := FrameAllocationSpace.freeAt_iff.mp hfree
      rw [(hrange hloc).1 hidx] at hfree'
      rw [hidx]
      rcases hfree' with hf | ⟨-, hs0, hf⟩
      · exact absurd hf (IsSplit.ne_free hsplit')
      · refine Or.inr ⟨hsplit, hs0, ?_⟩
        rw [hsmall] at hf
        split at hf
        · cases hf
        · exact hf
  | @splitting l s _ hl hst hsplit' hs hdesc hother hloc =>
      refine hlocal hloc fun hidx => FrameAllocationSpace.freeAt_iff.mpr ⟨(hrange hloc).2, ?_⟩
      rw [hidx]
      exact Or.inl hst

/-- A page of a frame in use is not free. -/
theorem Addressable.not_freeAt (ha : space.Addressable) (hg : space.InUse g)
    (haddr : (space.allocation g).Contains addr) : ¬space.FreeAt addr := by
  have hsel := ha.select_eq hg haddr
  rw [freeAt_iff, ← index_select addr, hsel]
  rintro ⟨-, hfree⟩
  cases g with
  | large l =>
      have hused : space.statusOf l = .used := hg.2
      simp only [Frame.index, hused] at hfree
      rcases hfree with hf | ⟨hf, -⟩
      · cases hf
      · exact IsSplit.ne_used hf rfl
  | small l s =>
      obtain ⟨⟨-, hsplit, -⟩, hused⟩ := inUse_small.mp hg
      simp only [Frame.index] at hfree
      rcases hfree with hf | ⟨-, -, hf⟩
      · exact IsSplit.ne_free hsplit hf
      · rw [smallIndex_of_select hsel, hused] at hf
        cases hf

end FrameAllocationSpace

end Beelzebub.Memory
