import Beelzebub.Memory.Counts

/-!
# The frame allocator

`Pmm` goes through the chain of allocation spaces.  As long as every space gives its
frames addresses of their own and the spaces are apart, an operation changes the state of
one frame: `Uses` says which frames are in use and how often they are referred to.
-/

namespace Beelzebub.Memory

open FrameAllocationSpace

/-! ## The frames of one space -/

namespace FrameAllocationSpace

variable {space space' : FrameAllocationSpace} {f : Allocation} {g : Frame}
  {addr cnt refCnt newCnt : Nat} {diff : Int} {ignoreRefCnt : Bool} {size : FrameSize}

/-- The frame is in use in this space, with this reference count. -/
def Has (space : FrameAllocationSpace) (f : Allocation) (cnt : Nat) : Prop :=
  ∃ g, space.InUse g ∧ space.allocation g = f ∧ (space.descriptor g).referenceCount = cnt

theorem Addressable.has_range (ha : space.Addressable) (h : space.Has f cnt) :
    space.allocationStart ≤ f.address ∧ f.address + f.size.bytes ≤ space.allocationEnd := by
  obtain ⟨g, hg, rfl, -⟩ := h
  exact ha.inRange hg

/-- An allocation adds one frame and keeps all others as they are. -/
theorem Addressable.has_allocateFrame (ha : space.Addressable) (size : FrameSize) (refCnt : Nat)
    (hne : (space.allocateFrame size refCnt).1 ≠ 0) :
    (space.allocateFrame size refCnt).2.Has f cnt ↔ space.Has f cnt ∨
      f = { address := (space.allocateFrame size refCnt).1, size } ∧ cnt = refCnt := by
  obtain ⟨ha', ⟨hzero, -⟩ | ⟨-, hmarks⟩⟩ := ha.allocateFrame size refCnt
  · exact absurd hzero hne
  have hext := (ha.inv.allocateFrame size refCnt).2.extent
  have hnew : (space.allocateFrame size refCnt).2.allocation
      ((space.allocateFrame size refCnt).2.select (space.allocateFrame size refCnt).1) =
      { address := (space.allocateFrame size refCnt).1, size } := by
    rw [allocation, hmarks.address, hmarks.size]
  constructor
  · rintro ⟨g, hg, rfl, rfl⟩
    rcases (hmarks.gains.iff g).mp hg with hold | rfl
    · refine Or.inl ⟨g, hold, (hext.allocation_eq g).symm, ?_⟩
      rw [allocateFrame_keeps ha.inv size refCnt hold]
    · exact Or.inr ⟨hnew, by rw [hmarks.descriptor]⟩
  · rintro (⟨g, hg, rfl, rfl⟩ | ⟨rfl, rfl⟩)
    · refine ⟨g, (hmarks.gains.iff g).mpr (Or.inl hg), hext.allocation_eq g, ?_⟩
      rw [allocateFrame_keeps ha.inv size refCnt hg]
    · exact ⟨_, hmarks.gains.inUse, hnew, by rw [hmarks.descriptor]⟩

/-- The step that brings a frame into use finds it free. -/
theorem Allocates.freeAt_select (h : Allocates space refCnt size cnt space')
    (hg : Gains space space' g) (hsel : space'.select addr = g)
    (hrange : space.allocationStart ≤ addr ∧ addr < space.allocationEnd) :
    space.FreeAt addr := by
  have hidx : space.largeIndex addr = g.index := by
    rw [← hsel, index_select]
    unfold largeIndex
    rw [h.extent.allocationStart]
  have hnew : ∀ {x}, space'.InUse x → ¬space.InUse x → x = g :=
    fun hx hx' => ((hg.iff _).mp hx).resolve_left hx'
  refine freeAt_iff.mpr ⟨hrange, ?_⟩
  rw [hidx]
  cases h with
  | exhausted => exact absurd ((hg.iff g).mpr (Or.inr rfl)) hg.fresh
  | @large l _ hl hfree hdesc hloc =>
      have hused : space'.InUse (.large l) := by
        rw [inUse_large, hloc.extent.largeFrameCount, statusOf, hdesc]
        exact ⟨hl, rfl⟩
      obtain rfl := hnew hused (not_inUse_large (by rw [hfree]; simp))
      exact Or.inl hfree
  | @small l s _ hl hsplit hsplit' hs hfree hsmall hloc =>
      have hused : space'.InUse (.small l s) := by
        rw [inUse_small, hloc.extent.largeFrameCount, hsmall, if_pos rfl]
        exact ⟨⟨hl, hsplit', hs⟩, rfl⟩
      have hfree' : ¬space.InUse (.small l s) := by
        intro hu
        have hst := (inUse_small.mp hu).2
        rw [hfree] at hst
        cases hst
      obtain rfl := hnew hused hfree'
      refine Or.inr ⟨hsplit, ?_, ?_⟩
      · rw [smallIndex_of_select hsel]
        omega
      · rw [smallIndex_of_select hsel]
        exact hfree
  | @splitting l s _ hl hfree hsplit' hs hdesc hother hloc =>
      have hused : space'.InUse (.small l s) := by
        rw [inUse_small, hloc.extent.largeFrameCount, hdesc]
        exact ⟨⟨hl, hsplit', hs⟩, rfl⟩
      obtain rfl := hnew hused (not_inUse_small fun hs' => IsSplit.ne_free hs' hfree)
      exact Or.inl hfree

/-- The pages of a frame that can be allocated are free. -/
theorem Addressable.freeAt_allocateFrame (ha : space.Addressable) (size : FrameSize) (refCnt : Nat)
    (hne : (space.allocateFrame size refCnt).1 ≠ 0)
    (haddr : Allocation.Contains { address := (space.allocateFrame size refCnt).1, size } addr) :
    space.FreeAt addr := by
  obtain ⟨ha', ⟨hzero, -⟩ | ⟨-, hmarks⟩⟩ := ha.allocateFrame size refCnt
  · exact absurd hzero hne
  have halloc := (ha.inv.allocateFrame size refCnt).2
  have hnew : (space.allocateFrame size refCnt).2.allocation
      ((space.allocateFrame size refCnt).2.select (space.allocateFrame size refCnt).1) =
      { address := (space.allocateFrame size refCnt).1, size } := by
    rw [allocation, hmarks.address, hmarks.size]
  have hrange := ha'.inRange hmarks.gains.inUse
  rw [hmarks.address, hmarks.size, halloc.extent.allocationStart, halloc.extent.allocationEnd]
    at hrange
  have hcontains : (space.allocateFrame size refCnt).1 ≤ addr ∧
    addr < (space.allocateFrame size refCnt).1 + size.bytes := haddr
  exact halloc.freeAt_select hmarks.gains (ha'.select_eq hmarks.gains.inUse (hnew ▸ haddr))
    (by omega)

/-- A call that frees a frame leaves all its pages free. -/
theorem Mingles.freeAt {x : Nat} (h : Mingles space addr true space')
    (hsel : space.select x = space.select addr)
    (hrange : space.allocationStart ≤ x ∧ x < space.allocationEnd) : space'.FreeAt x := by
  have hext := h.extent
  have hidx : space'.largeIndex x = space.largeIndex addr := by
    rw [← index_select addr, ← hsel, index_select]
    unfold largeIndex
    rw [hext.allocationStart]
  refine freeAt_iff.mpr ⟨by rwa [hext.allocationStart, hext.allocationEnd], ?_⟩
  rw [hidx]
  cases h with
  | freeLarge hl _ _ hfree => exact Or.inl (hl ▸ hfree)
  | freeSmall hl hs _ hbound hold _ hsplit hsmall =>
      subst hl hs
      have hx : smallIndex x = smallIndex addr :=
        smallIndex_of_select (hsel.trans (select_of_split rfl rfl hold))
      refine Or.inr ⟨hsplit, by omega, ?_⟩
      rw [hsmall, if_pos hx]
  | reclaim hl _ _ _ _ _ _ hfree => exact Or.inl (hl ▸ hfree)

/-- No call takes a page away. -/
theorem Mingles.freeAt_of_freeAt {x : Nat} {freed : Bool} (h : Mingles space addr freed space')
    (hfree : space.FreeAt x) : space'.FreeAt x := by
  have hext := h.extent
  have hidx : space'.largeIndex x = space.largeIndex x := by
    unfold largeIndex
    rw [hext.allocationStart]
  have hat : ∀ {l}, Local l space space' → (space.largeIndex x = l →
      space'.statusOf l = .free ∨ (space'.statusOf l).IsSplit ∧ smallIndex x ≠ 0 ∧
        ((space'.map l).small (smallIndex x)).status = .free) → space'.FreeAt x := by
    intro l hloc hl
    by_cases hx : space.largeIndex x = l
    · obtain ⟨hrange, -⟩ := freeAt_iff.mp hfree
      refine freeAt_iff.mpr ⟨by rwa [hext.allocationStart, hext.allocationEnd], ?_⟩
      rw [hidx, hx]
      exact hl hx
    · exact (hloc.freeAt_iff hx).mpr hfree
  obtain ⟨-, hstate⟩ := freeAt_iff.mp hfree
  cases h with
  | unchanged => exact hfree
  | countLarge _ _ hused _ hloc =>
      refine hat hloc fun hx => ?_
      rw [hx, hused] at hstate
      rcases hstate with hst | ⟨hst, -⟩
      · cases hst
      · exact absurd rfl (IsSplit.ne_used hst)
  | freeLarge _ _ _ hfree' hloc => exact hat hloc fun _ => Or.inl hfree'
  | countSmall _ _ _ _ hold hsplit hsmall hloc =>
      refine hat hloc fun hx => ?_
      rw [hx] at hstate
      rcases hstate with hst | ⟨-, hne, hst⟩
      · exact absurd hst (IsSplit.ne_free hold)
      · exact Or.inr ⟨hsplit, hne, by rw [hsmall, hst]⟩
  | freeSmall _ _ _ _ hold _ hsplit hsmall hloc =>
      refine hat hloc fun hx => ?_
      rw [hx] at hstate
      rcases hstate with hst | ⟨-, hne, hst⟩
      · exact absurd hst (IsSplit.ne_free hold)
      · refine Or.inr ⟨hsplit, hne, ?_⟩
        rw [hsmall]
        split
        · rfl
        · exact hst
  | reclaim _ _ _ _ _ _ _ hfree' hloc => exact hat hloc fun _ => Or.inl hfree'

theorem mingleLarge_ne_out (l : Nat) : (space.mingleLarge l newCnt diff ignoreRefCnt).1 ≠
    .pagesOutOfAllocatorRange := by
  intro h
  unfold mingleLarge at h
  simp only at h
  repeat' split at h
  all_goals cases h

theorem mingleSmall_ne_out (l s : Nat) : (space.mingleSmall l s newCnt diff ignoreRefCnt).1 ≠
    .pagesOutOfAllocatorRange := by
  intro h
  unfold mingleSmall at h
  simp only at h
  repeat' split at h
  all_goals cases h

/-- A call is passed on to the next space only outside the allocation area. -/
theorem mingle_out_iff :
    (space.mingle addr newCnt diff ignoreRefCnt).1 = .pagesOutOfAllocatorRange ↔
      ¬(space.allocationStart ≤ addr ∧ addr < space.allocationEnd) := by
  constructor
  · intro h hrange
    rw [FrameAllocationSpace.mingle, if_neg (by omega)] at h
    simp only at h
    split at h
    · cases h
    · exact mingleLarge_ne_out _ h
    · exact mingleSmall_ne_out _ _ h
    · exact mingleSmall_ne_out _ _ h
    · cases h
  · intro h
    rw [FrameAllocationSpace.mingle, if_pos (by omega)]

theorem getFrameInfo_out_iff : (space.getFrameInfo addr).1 = .pagesOutOfAllocatorRange ↔
    ¬(space.allocationStart ≤ addr ∧ addr < space.allocationEnd) := by
  constructor
  · intro h hrange
    rw [FrameAllocationSpace.getFrameInfo, if_neg (by omega)] at h
    simp only at h
    repeat' split at h
    all_goals cases h
  · intro h
    rw [FrameAllocationSpace.getFrameInfo, if_pos (by omega)]

/-- A call that frees a frame takes away the frame around the address. -/
theorem Addressable.has_mingle_of_frees (ha : space.Addressable)
    (hfrees : Frees diff (space.mingle addr newCnt diff ignoreRefCnt) = true) :
    (space.mingle addr newCnt diff ignoreRefCnt).2.2.Has f cnt ↔
      space.Has f cnt ∧ ¬f.Contains addr := by
  have hmingle := (ha.inv.mingle addr newCnt diff ignoreRefCnt).2
  have hloses := hmingle.inUse.1 hfrees
  have hrange : space.allocationStart ≤ addr ∧ addr < space.allocationEnd := by
    by_contra hout
    rw [FrameAllocationSpace.mingle, if_pos (by omega)] at hfrees
    cases hfrees
  have hcontains := ha.contains_select hrange
  constructor
  · rintro ⟨g, hg, rfl, rfl⟩
    obtain ⟨hold, hne⟩ := (hloses.iff g).mp hg
    rw [hmingle.extent.allocation_eq]
    refine ⟨⟨g, hold, rfl, ?_⟩, fun hc => hne (ha.select_eq hold hc).symm⟩
    rw [mingle_keeps addr newCnt diff ignoreRefCnt hold hne]
  · rintro ⟨⟨g, hg, rfl, rfl⟩, hout⟩
    have hne : g ≠ space.select addr := by
      rintro rfl
      exact hout hcontains
    refine ⟨g, (hloses.iff g).mpr ⟨hg, hne⟩, hmingle.extent.allocation_eq g, ?_⟩
    rw [mingle_keeps addr newCnt diff ignoreRefCnt hg hne]

/-- An adjustment that leaves a count is the new count of the frame. -/
theorem Addressable.has_mingle_of_count (ha : space.Addressable) (hg : space.InUse g)
    (hdiff : diff ≠ 0) (hcount : adjusted (space.descriptor g).referenceCount diff ≠ 0) :
    (space.mingle (space.address g) newCnt diff ignoreRefCnt).2.2.Has f cnt ↔
      if f = space.allocation g then cnt = adjusted (space.descriptor g).referenceCount diff
      else space.Has f cnt := by
  have hmingle := (ha.inv.mingle (space.address g) newCnt diff ignoreRefCnt).2
  obtain ⟨hokay, hnew, hdesc⟩ := ha.mingle_count hg newCnt hdiff ignoreRefCnt
  have hfrees : Frees diff (space.mingle (space.address g) newCnt diff ignoreRefCnt) = false := by
    simp [Frees, hnew, hdiff, hcount]
  have hsame := hmingle.inUse.2 hfrees
  have hsel := ha.select_eq hg (contains_self g)
  constructor
  · rintro ⟨x, hx, rfl, rfl⟩
    rw [hmingle.extent.allocation_eq]
    have hold := (hsame x).mp hx
    by_cases hxg : x = g
    · subst hxg
      rw [if_pos rfl, hdesc hcount]
    · rw [if_neg fun heq => hxg (ha.allocation_inj hold hg heq)]
      refine ⟨x, hold, rfl, ?_⟩
      rw [mingle_keeps _ newCnt diff ignoreRefCnt hold (by rw [hsel]; exact hxg)]
  · intro h
    split at h
    next heq =>
      subst heq h
      exact ⟨g, (hsame g).mpr hg, hmingle.extent.allocation_eq g, by rw [hdesc hcount]⟩
    next hne =>
      obtain ⟨x, hx, rfl, rfl⟩ := h
      have hxg : x ≠ g := by
        rintro rfl
        exact hne rfl
      refine ⟨x, (hsame x).mpr hx, hmingle.extent.allocation_eq x, ?_⟩
      rw [mingle_keeps _ newCnt diff ignoreRefCnt hx (by rw [hsel]; exact hxg)]

/-- An adjustment that is refused leaves the space alone. -/
theorem mingle_refused (hdiff : diff ≠ 0)
    (hres : (space.mingle addr newCnt diff ignoreRefCnt).1 ≠ .okay) :
    (space.mingle addr newCnt diff ignoreRefCnt).2.2 = space := by
  have hlarge : ∀ l, (space.mingleLarge l newCnt diff ignoreRefCnt).1 = .okay := by
    intro l
    unfold mingleLarge
    simp only [if_neg hdiff]
    split <;> rfl
  have hsmall : ∀ l s, (space.mingleSmall l s newCnt diff ignoreRefCnt).1 = .okay ∨
      (space.mingleSmall l s newCnt diff ignoreRefCnt).2.2 = space := by
    intro l s
    unfold mingleSmall
    simp only [if_neg hdiff]
    repeat' split
    all_goals first | exact Or.inl rfl | exact Or.inr rfl
  unfold FrameAllocationSpace.mingle at hres ⊢
  split
  next => rfl
  next hin =>
    rw [if_neg hin] at hres
    simp only at hres ⊢
    split
    next => rfl
    next hst =>
      simp only [hst] at hres
      exact absurd (hlarge _) hres
    next hst =>
      simp only [hst] at hres
      exact (hsmall _ _).resolve_left hres
    next hst =>
      simp only [hst] at hres
      exact (hsmall _ _).resolve_left hres
    next => rfl

end FrameAllocationSpace

/-- The chain of allocation spaces, from the first to the last. -/
structure Pmm where
  spaces : List FrameAllocationSpace

namespace Pmm

/-! ## Operations -/

/-- Tries the spaces from the last to the first. -/
def allocateIn (size : FrameSize) (refCnt : Nat) :
    List FrameAllocationSpace → Nat × List FrameAllocationSpace
  | [] => (0, [])
  | space :: rest =>
      let (addr, rest) := allocateIn size refCnt rest
      if addr ≠ 0 then (addr, space :: rest)
      else
        let (addr, space) := space.allocateFrame size refCnt
        (addr, space :: rest)

/-- Tries the spaces from the first to the last. -/
def mingleIn (addr : Nat) (diff : Int) (ignoreRefCnt : Bool) :
    List FrameAllocationSpace → HandleResult × List FrameAllocationSpace
  | [] => (.pagesOutOfAllocatorRange, [])
  | space :: rest =>
      let (res, _, space) := space.mingle addr 0 diff ignoreRefCnt
      if res ≠ .pagesOutOfAllocatorRange then (res, space :: rest)
      else
        let (res, rest) := mingleIn addr diff ignoreRefCnt rest
        (res, space :: rest)

def infoIn (addr : Nat) : List FrameAllocationSpace → HandleResult × Option (FrameSize × Nat)
  | [] => (.pagesOutOfAllocatorRange, none)
  | space :: rest =>
      let info := space.getFrameInfo addr
      if info.1 ≠ .pagesOutOfAllocatorRange then info else infoIn addr rest

/-- `Pmm::AllocateFrame`: the address, null if there is none. -/
def allocateFrame (size : FrameSize) (refCnt : Nat) (pmm : Pmm) : Nat × Pmm :=
  let (addr, spaces) := allocateIn size refCnt pmm.spaces
  (addr, { spaces })

/-- `Pmm::FreeFrame`. -/
def freeFrame (addr : Nat) (ignoreRefCnt : Bool) (pmm : Pmm) : HandleResult × Pmm :=
  let (res, spaces) := mingleIn addr 0 ignoreRefCnt pmm.spaces
  (res, { spaces })

/-- `Pmm::AdjustReferenceCount`. -/
def adjustReferenceCount (addr : Nat) (diff : Int) (pmm : Pmm) : HandleResult × Pmm :=
  if addr = 0 ∨ diff = 0 then (.argumentOutOfRange, pmm)
  else
    let (res, spaces) := mingleIn addr diff false pmm.spaces
    (res, { spaces })

/-- `Pmm::GetFrameInfo`. -/
def getFrameInfo (addr : Nat) (pmm : Pmm) : HandleResult × Option (FrameSize × Nat) :=
  if addr = 0 then (.argumentOutOfRange, none) else infoIn addr pmm.spaces

/-! ## Frames in use -/

/-- The frame is in use, with this reference count. -/
def Uses (pmm : Pmm) (f : Allocation) (cnt : Nat) : Prop := ∃ space ∈ pmm.spaces, space.Has f cnt

/-- The allocator considers the page around the address free. -/
def FreeAt (pmm : Pmm) (addr : Nat) : Prop := (pmm.getFrameInfo addr).1 = .pageFree

instance (pmm : Pmm) (addr : Nat) : Decidable (pmm.FreeAt addr) :=
  inferInstanceAs (Decidable (_ = _))

/-- The allocation areas do not overlap. -/
def Apart (space space' : FrameAllocationSpace) : Prop :=
  space.allocationEnd ≤ space'.allocationStart ∨ space'.allocationEnd ≤ space.allocationStart

/-- The state of an allocator that hands out every frame once.  Physical addresses have
52 bits. -/
structure Sound (pmm : Pmm) : Prop where
  addressable : ∀ space ∈ pmm.spaces, space.Addressable
  apart : pmm.spaces.Pairwise Apart
  bound : ∀ space ∈ pmm.spaces, space.allocationEnd ≤ 2 ^ 52

variable {pmm pmm' : Pmm} {space space' : FrameAllocationSpace} {l₁ l₂ : List FrameAllocationSpace}
  {f f' : Allocation} {addr cnt cnt' : Nat} {size : FrameSize}

instance : Std.Symm Apart := ⟨fun _ _ => Or.symm⟩

/-- Two spaces of the chain that share an address are one. -/
theorem Sound.eq_of_range (h : pmm.Sound) (hs : space ∈ pmm.spaces) (hs' : space' ∈ pmm.spaces)
    (hr : space.allocationStart ≤ addr ∧ addr < space.allocationEnd)
    (hr' : space'.allocationStart ≤ addr ∧ addr < space'.allocationEnd) : space = space' := by
  by_contra hne
  have hapart := h.apart.forall hs hs' hne
  unfold Apart at hapart
  omega

/-- One space of the chain is replaced. -/
def Replaces (pmm pmm' : Pmm) (space space' : FrameAllocationSpace) : Prop :=
  ∃ l₁ l₂, pmm.spaces = l₁ ++ space :: l₂ ∧ pmm'.spaces = l₁ ++ space' :: l₂

theorem Replaces.mem (h : Replaces pmm pmm' space space') : space ∈ pmm.spaces := by
  obtain ⟨l₁, l₂, hl, -⟩ := h
  rw [hl]
  simp

theorem Replaces.mem_new (h : Replaces pmm pmm' space space') : space' ∈ pmm'.spaces := by
  obtain ⟨l₁, l₂, -, hl'⟩ := h
  rw [hl']
  simp

theorem Replaces.keeps_sound (h : Replaces pmm pmm' space space') (hs : pmm.Sound)
    (ha : space'.Addressable) (hext : space.SameExtent space') : pmm'.Sound := by
  obtain ⟨l₁, l₂, hl, hl'⟩ := h
  have hbound := hs.bound
  have haddr := hs.addressable
  have hapart := hs.apart
  rw [hl] at hbound haddr hapart
  have hside : ∀ x, Apart space x ↔ Apart space' x := by
    intro x
    unfold Apart
    rw [hext.allocationStart, hext.allocationEnd]
  have hside' : ∀ x, Apart x space ↔ Apart x space' := by
    intro x
    unfold Apart
    rw [hext.allocationStart, hext.allocationEnd]
  constructor
  · rw [hl']
    intro x hx
    rcases List.mem_append.mp hx with hx | hx
    · exact haddr x (by simp [hx])
    · rcases List.mem_cons.mp hx with rfl | hx
      · exact ha
      · exact haddr x (by simp [hx])
  · rw [hl']
    simp only [List.pairwise_append, List.pairwise_cons, List.mem_cons, forall_eq_or_imp, hside,
      hside'] at hapart ⊢
    exact hapart
  · rw [hl']
    intro x hx
    rcases List.mem_append.mp hx with hx | hx
    · exact hbound x (by simp [hx])
    · rcases List.mem_cons.mp hx with rfl | hx
      · rw [hext.allocationEnd]
        exact hbound space (by simp)
      · exact hbound x (by simp [hx])

/-- Only the space around its address can have a frame in use. -/
theorem Sound.uses_iff (h : pmm.Sound) (hs : space ∈ pmm.spaces)
    (hr : space.allocationStart ≤ f.address ∧ f.address < space.allocationEnd) :
    pmm.Uses f cnt ↔ space.Has f cnt := by
  refine ⟨?_, fun hh => ⟨space, hs, hh⟩⟩
  rintro ⟨space', hs', hh⟩
  have hr' := (h.addressable space' hs').has_range hh
  have hpos := f.size.bytes_pos
  obtain rfl := h.eq_of_range hs hs' hr (by omega)
  exact hh

theorem Replaces.uses_iff_of_out (h : Replaces pmm pmm' space space') (hs : pmm.Sound)
    (hs' : pmm'.Sound) (hext : space.SameExtent space')
    (hr : ¬(space.allocationStart ≤ f.address ∧ f.address < space.allocationEnd)) :
    pmm'.Uses f cnt ↔ pmm.Uses f cnt := by
  obtain ⟨l₁, l₂, hl, hl'⟩ := h
  have hpos := f.size.bytes_pos
  have hnot : ¬space.Has f cnt := by
    intro hh
    have := (hs.addressable space (by rw [hl]; simp)).has_range hh
    omega
  have hnot' : ¬space'.Has f cnt := by
    intro hh
    have := (hs'.addressable space' (by rw [hl']; simp)).has_range hh
    rw [hext.allocationStart, hext.allocationEnd] at this
    omega
  unfold Uses
  rw [hl, hl']
  simp [or_and_right, exists_or, hnot, hnot']

/-- The space that answers for an address. -/
theorem infoIn_cases (addr : Nat) (l : List FrameAllocationSpace) :
    (∀ space ∈ l, ¬(space.allocationStart ≤ addr ∧ addr < space.allocationEnd)) ∧
        infoIn addr l = (.pagesOutOfAllocatorRange, none) ∨
      ∃ space ∈ l, (space.allocationStart ≤ addr ∧ addr < space.allocationEnd) ∧
        infoIn addr l = space.getFrameInfo addr := by
  induction l with
  | nil => exact Or.inl ⟨by simp, rfl⟩
  | cons space l ih =>
      rw [infoIn]
      by_cases hr : space.allocationStart ≤ addr ∧ addr < space.allocationEnd
      · have hin : (space.getFrameInfo addr).1 ≠ .pagesOutOfAllocatorRange :=
          fun hout => getFrameInfo_out_iff.mp hout hr
        exact Or.inr ⟨space, by simp, hr, by simp only [if_pos hin]⟩
      · have hout := getFrameInfo_out_iff.mpr hr
        simp only [hout, ne_eq, not_true_eq_false, if_false]
        rcases ih with ⟨hall, ih⟩ | ⟨x, hx, hxr, ih⟩
        · exact Or.inl ⟨List.forall_mem_cons.mpr ⟨hr, hall⟩, ih⟩
        · exact Or.inr ⟨x, by simp [hx], hxr, ih⟩

/-- The page around an address is free if its space says so. -/
theorem Sound.freeAt_iff (h : pmm.Sound) :
    pmm.FreeAt addr ↔ ∃ space ∈ pmm.spaces, space.FreeAt addr := by
  unfold FreeAt getFrameInfo
  constructor
  · intro hf
    split at hf
    · cases hf
    · rcases infoIn_cases addr pmm.spaces with ⟨-, hinfo⟩ | ⟨space, hs, -, hinfo⟩
      · rw [hinfo] at hf
        cases hf
      · rw [hinfo] at hf
        exact ⟨space, hs, hf⟩
  · rintro ⟨space, hs, hf⟩
    have hr := (FrameAllocationSpace.freeAt_iff.mp hf).1
    have hpos := (h.addressable space hs).start_pos
    rw [if_neg (by omega)]
    rcases infoIn_cases addr pmm.spaces with ⟨hall, -⟩ | ⟨space', hs', hr', hinfo⟩
    · exact absurd hr (hall space hs)
    · rw [hinfo, ← h.eq_of_range hs hs' hr hr']
      exact hf

theorem Sound.freeAt_iff_of_range (h : pmm.Sound) (hs : space ∈ pmm.spaces)
    (hr : space.allocationStart ≤ addr ∧ addr < space.allocationEnd) :
    pmm.FreeAt addr ↔ space.FreeAt addr := by
  rw [h.freeAt_iff]
  refine ⟨?_, fun hf => ⟨space, hs, hf⟩⟩
  rintro ⟨space', hs', hf⟩
  rwa [h.eq_of_range hs hs' hr (FrameAllocationSpace.freeAt_iff.mp hf).1]

theorem Replaces.freeAt_iff_of_out (h : Replaces pmm pmm' space space') (hs : pmm.Sound)
    (hs' : pmm'.Sound) (hext : space.SameExtent space')
    (hr : ¬(space.allocationStart ≤ addr ∧ addr < space.allocationEnd)) :
    pmm'.FreeAt addr ↔ pmm.FreeAt addr := by
  rw [hs.freeAt_iff, hs'.freeAt_iff]
  obtain ⟨l₁, l₂, hl, hl'⟩ := h
  have hnot : ¬space.FreeAt addr := fun hf => hr (FrameAllocationSpace.freeAt_iff.mp hf).1
  have hnot' : ¬space'.FreeAt addr := by
    intro hf
    have hr' := (FrameAllocationSpace.freeAt_iff.mp hf).1
    rw [hext.allocationStart, hext.allocationEnd] at hr'
    exact hr hr'
  rw [hl, hl']
  simp [or_and_right, exists_or, hnot, hnot']

/-- Where a frame in use can be. -/
theorem Sound.uses_bounds (h : pmm.Sound) (hu : pmm.Uses f cnt) :
    0 < f.address ∧ f.address + f.size.bytes ≤ 2 ^ 52 ∧ f.address % f.size.bytes = 0 ∧
      (f.size = ._4KiB ∨ f.size = ._2MiB) := by
  obtain ⟨space, hs, hh⟩ := hu
  have ha := h.addressable space hs
  have hbound := h.bound space hs
  have hrange := ha.has_range hh
  have hpos := ha.start_pos
  have haligned := ha.aligned
  obtain ⟨g, hg, rfl, -⟩ := hh
  refine ⟨by omega, by omega, ?_, ?_⟩
  · show space.address g % g.size.bytes = 0
    unfold address
    unfold largePageSize at haligned ⊢
    cases g with
    | large l =>
        show (space.allocationStart + l * (512 * pageSize) + 0 * pageSize) % largePageSize = 0
        unfold largePageSize pageSize at *
        omega
    | small l s =>
        show (space.allocationStart + l * (512 * pageSize) + s * pageSize) % pageSize = 0
        unfold pageSize at *
        omega
  · cases g with
    | large l => exact Or.inr rfl
    | small l s => exact Or.inl rfl

theorem Sound.not_freeAt (h : pmm.Sound) (hu : pmm.Uses f cnt) (haddr : f.Contains addr) :
    ¬pmm.FreeAt addr := by
  obtain ⟨space, hs, hh⟩ := hu
  have ha := h.addressable space hs
  have hrange := ha.has_range hh
  have hcontains : f.address ≤ addr ∧ addr < f.address + f.size.bytes := haddr
  rw [h.freeAt_iff_of_range hs (by omega)]
  obtain ⟨g, hg, rfl, -⟩ := hh
  exact ha.not_freeAt hg haddr

/-- Two frames in use that share an address are one. -/
theorem Sound.uses_unique (h : pmm.Sound) (hu : pmm.Uses f cnt) (hu' : pmm.Uses f' cnt')
    (hc : f.Contains addr) (hc' : f'.Contains addr) : f = f' ∧ cnt = cnt' := by
  obtain ⟨space, hs, hh⟩ := hu
  obtain ⟨space', hs', hh'⟩ := hu'
  have hr := (h.addressable space hs).has_range hh
  have hr' := (h.addressable space' hs').has_range hh'
  have hcon : f.address ≤ addr ∧ addr < f.address + f.size.bytes := hc
  have hcon' : f'.address ≤ addr ∧ addr < f'.address + f'.size.bytes := hc'
  have hin : space.allocationStart ≤ addr ∧ addr < space.allocationEnd := by omega
  obtain rfl := h.eq_of_range hs hs' hin (by omega)
  have ha := h.addressable space hs
  obtain ⟨g, hg, rfl, rfl⟩ := hh
  obtain ⟨g', hg', rfl, rfl⟩ := hh'
  obtain rfl := (ha.select_eq hg hc).symm.trans (ha.select_eq hg' hc')
  exact ⟨rfl, rfl⟩

/-! ## Allocation -/

theorem allocateIn_cases (size : FrameSize) (refCnt : Nat) (l : List FrameAllocationSpace)
    (h : ∀ space ∈ l, space.Addressable) :
    (allocateIn size refCnt l).1 = 0 ∧ (allocateIn size refCnt l).2 = l ∨
      (allocateIn size refCnt l).1 ≠ 0 ∧ ∃ l₁ space l₂, l = l₁ ++ space :: l₂ ∧
        (allocateIn size refCnt l).1 = (space.allocateFrame size refCnt).1 ∧
        (allocateIn size refCnt l).2 = l₁ ++ (space.allocateFrame size refCnt).2 :: l₂ := by
  induction l with
  | nil => exact Or.inl ⟨rfl, rfl⟩
  | cons space l ih =>
      rw [allocateIn]
      rcases ih fun x hx => h x (by simp [hx]) with ⟨hzero, hsame⟩ | ⟨hne, l₁, x, l₂, hl, h1, h2⟩
      · simp only [hzero, hsame, ne_eq, not_true_eq_false, if_false]
        by_cases hspace : (space.allocateFrame size refCnt).1 = 0
        · obtain ⟨-, ⟨-, hs⟩ | ⟨hne, -⟩⟩ := (h space (by simp)).allocateFrame size refCnt
          · exact Or.inl ⟨hspace, by rw [hs]⟩
          · exact absurd hspace hne
        · exact Or.inr ⟨hspace, [], space, l, rfl, rfl, rfl⟩
      · simp only [ne_eq, hne, not_false_eq_true, if_true]
        exact Or.inr ⟨trivial, space :: l₁, x, l₂, by rw [hl]; rfl, h1, by rw [h2]; rfl⟩

/-- What an allocation changes: one frame that was free is in use. -/
structure Takes (pmm pmm' : Pmm) (f : Allocation) (cnt : Nat) : Prop where
  free : ∀ addr, f.Contains addr → pmm.FreeAt addr
  taken : ∀ addr, f.Contains addr → ¬pmm'.FreeAt addr
  keeps : ∀ addr, pmm'.FreeAt addr → pmm.FreeAt addr
  uses : ∀ g c, pmm'.Uses g c ↔ pmm.Uses g c ∨ g = f ∧ c = cnt

theorem Sound.allocateFrame (h : pmm.Sound) (size : FrameSize) (refCnt : Nat) :
    (pmm.allocateFrame size refCnt).2.Sound ∧
      ((pmm.allocateFrame size refCnt).1 = 0 ∧ (pmm.allocateFrame size refCnt).2 = pmm ∨
        (pmm.allocateFrame size refCnt).1 ≠ 0 ∧
        Takes pmm (pmm.allocateFrame size refCnt).2
          { address := (pmm.allocateFrame size refCnt).1, size } refCnt) := by
  have haddr : (pmm.allocateFrame size refCnt).1 = (allocateIn size refCnt pmm.spaces).1 := rfl
  have hspaces : (pmm.allocateFrame size refCnt).2.spaces =
    (allocateIn size refCnt pmm.spaces).2 := rfl
  rcases allocateIn_cases size refCnt pmm.spaces h.addressable with
    ⟨hzero, hsame⟩ | ⟨hne, l₁, space, l₂, hl, h1, h2⟩
  · have hpmm : (pmm.allocateFrame size refCnt).2 = pmm := by
      show Pmm.mk (allocateIn size refCnt pmm.spaces).2 = pmm
      rw [hsame]
    exact ⟨hpmm.symm ▸ h, Or.inl ⟨hzero, hpmm⟩⟩
  · have hrep : Replaces pmm (pmm.allocateFrame size refCnt).2 space
      (space.allocateFrame size refCnt).2 := ⟨l₁, l₂, hl, hspaces.trans h2⟩
    have hs := hrep.mem
    have ha := h.addressable space hs
    have hext := (ha.inv.allocateFrame size refCnt).2.extent
    have hsound := hrep.keeps_sound h (ha.allocateFrame size refCnt).1 hext
    have hs' : (space.allocateFrame size refCnt).2 ∈ (pmm.allocateFrame size refCnt).2.spaces := by
      rw [hspaces, h2]
      simp
    rw [← haddr] at hne h1
    have hne' := h1 ▸ hne
    have huses : ∀ g c, (pmm.allocateFrame size refCnt).2.Uses g c ↔ pmm.Uses g c ∨
        g = { address := (pmm.allocateFrame size refCnt).1, size } ∧ c = refCnt := by
      intro g c
      by_cases hr : space.allocationStart ≤ g.address ∧ g.address < space.allocationEnd
      · rw [h.uses_iff hs hr, hsound.uses_iff hs'
          (by rwa [hext.allocationStart, hext.allocationEnd]), h1]
        exact ha.has_allocateFrame size refCnt hne'
      · rw [hrep.uses_iff_of_out h hsound hext hr]
        refine (or_iff_left ?_).symm
        rintro ⟨rfl, -⟩
        have hnew := (ha.allocateFrame size refCnt).1.has_range
          ((ha.has_allocateFrame size refCnt hne').mpr (Or.inr ⟨rfl, rfl⟩))
        rw [hext.allocationStart, hext.allocationEnd] at hnew
        have hpos := size.bytes_pos
        dsimp only at hnew hr
        rw [h1] at hr
        omega
    refine ⟨hsound, Or.inr ⟨hne, ?_, ?_, ?_, huses⟩⟩
    · intro addr hc
      rw [h1] at hc
      have hf := ha.freeAt_allocateFrame size refCnt hne' hc
      exact h.freeAt_iff.mpr ⟨space, hs, hf⟩
    · intro addr hc
      exact hsound.not_freeAt ((huses _ _).mpr (Or.inr ⟨rfl, rfl⟩)) hc
    · intro addr hf
      by_cases hr : space.allocationStart ≤ addr ∧ addr < space.allocationEnd
      · rw [hsound.freeAt_iff_of_range hs' (by rwa [hext.allocationStart, hext.allocationEnd])] at hf
        rw [h.freeAt_iff_of_range hs hr]
        exact (ha.inv.allocateFrame size refCnt).2.freeAt hf
      · exact (hrep.freeAt_iff_of_out h hsound hext hr).mp hf

/-! ## Release -/

/-- The space that is asked about an address. -/
theorem mingleIn_cases (addr : Nat) (diff : Int) (ignoreRefCnt : Bool)
    (l : List FrameAllocationSpace) :
    ((∀ space ∈ l, ¬(space.allocationStart ≤ addr ∧ addr < space.allocationEnd)) ∧
        mingleIn addr diff ignoreRefCnt l = (.pagesOutOfAllocatorRange, l)) ∨
      ∃ l₁ space l₂, l = l₁ ++ space :: l₂ ∧
        (space.allocationStart ≤ addr ∧ addr < space.allocationEnd) ∧
        mingleIn addr diff ignoreRefCnt l = ((space.mingle addr 0 diff ignoreRefCnt).1,
          l₁ ++ (space.mingle addr 0 diff ignoreRefCnt).2.2 :: l₂) := by
  induction l with
  | nil => exact Or.inl ⟨by simp, rfl⟩
  | cons space l ih =>
      rw [mingleIn]
      by_cases hr : space.allocationStart ≤ addr ∧ addr < space.allocationEnd
      · have hin : (space.mingle addr 0 diff ignoreRefCnt).1 ≠ .pagesOutOfAllocatorRange :=
          fun hout => mingle_out_iff.mp hout hr
        exact Or.inr ⟨[], space, l, rfl, hr, by simp only [if_pos hin, List.nil_append]⟩
      · have hout : space.mingle addr 0 diff ignoreRefCnt =
            (.pagesOutOfAllocatorRange, 0, space) := if_pos (by omega)
        simp only [hout, ne_eq, not_true_eq_false, if_false]
        rcases ih with ⟨hall, ih⟩ | ⟨l₁, x, l₂, hl, hxr, ih⟩
        · exact Or.inl ⟨List.forall_mem_cons.mpr ⟨hr, hall⟩, by rw [ih]⟩
        · exact Or.inr ⟨space :: l₁, x, l₂, by rw [hl]; rfl, hxr, by rw [ih]; rfl⟩

/-- What a release changes: one frame is no longer in use, and its pages are free. -/
structure Drops (pmm pmm' : Pmm) (f : Allocation) : Prop where
  uses : ∀ g c, pmm'.Uses g c ↔ pmm.Uses g c ∧ g ≠ f
  free : ∀ addr, f.Contains addr → pmm'.FreeAt addr
  keeps : ∀ addr, pmm.FreeAt addr → pmm'.FreeAt addr

/-- The same frames are in use. -/
structure Same (pmm pmm' : Pmm) : Prop where
  sound : pmm'.Sound
  uses : ∀ f c, pmm'.Uses f c ↔ pmm.Uses f c

/-- A frame that is taken and released leaves the same frames in use. -/
theorem Takes.same_of_drops {pmm'' : Pmm} (h : Takes pmm pmm' f cnt) (hsound : pmm.Sound)
    (hsound' : pmm''.Sound) (h' : Drops pmm' pmm'' f) : Same pmm pmm'' := by
  refine ⟨hsound', fun g c => ?_⟩
  rw [h'.uses, h.uses]
  constructor
  · rintro ⟨hu | ⟨rfl, -⟩, hne⟩
    · exact hu
    · exact absurd rfl hne
  · intro hu
    refine ⟨Or.inl hu, ?_⟩
    rintro rfl
    have hcontains : g.Contains g.address := ⟨Nat.le_refl _, by have := g.size.bytes_pos; omega⟩
    exact hsound.not_freeAt hu hcontains (h.free _ hcontains)

/-- What an adjustment changes that does not free the frame: its count. -/
structure Recounts (pmm pmm' : Pmm) (f : Allocation) (cnt : Nat) : Prop where
  uses : ∀ g c, pmm'.Uses g c ↔ if g = f then c = cnt else pmm.Uses g c
  keeps : ∀ addr, pmm.FreeAt addr → pmm'.FreeAt addr

section Mingle

variable {diff : Int} {ignoreRefCnt : Bool}

/-- A call for a frame in use is a step of its space. -/
theorem Sound.mingle_uses (h : pmm.Sound) (hu : pmm.Uses f cnt) (diff : Int)
    (ignoreRefCnt : Bool) :
    ∃ space ∈ pmm.spaces, ∃ g, space.InUse g ∧ space.allocation g = f ∧
      (space.descriptor g).referenceCount = cnt ∧
      (mingleIn f.address diff ignoreRefCnt pmm.spaces).1 =
        (space.mingle f.address 0 diff ignoreRefCnt).1 ∧
      Replaces pmm { spaces := (mingleIn f.address diff ignoreRefCnt pmm.spaces).2 } space
        (space.mingle f.address 0 diff ignoreRefCnt).2.2 ∧
      Pmm.Sound { spaces := (mingleIn f.address diff ignoreRefCnt pmm.spaces).2 } := by
  obtain ⟨space, hs, hh⟩ := hu
  have ha := h.addressable space hs
  have hr := ha.has_range hh
  have hpos := f.size.bytes_pos
  obtain ⟨g, hg, hf, hcnt⟩ := hh
  rcases mingleIn_cases f.address diff ignoreRefCnt pmm.spaces with
    ⟨hout, -⟩ | ⟨l₁, space', l₂, hl, hr', hstep⟩
  · exact absurd (by omega) (hout space hs)
  · have hrep : Replaces pmm { spaces := (mingleIn f.address diff ignoreRefCnt pmm.spaces).2 }
        space' (space'.mingle f.address 0 diff ignoreRefCnt).2.2 := ⟨l₁, l₂, hl, by rw [hstep]⟩
    obtain rfl := h.eq_of_range hs hrep.mem (by omega) hr'
    exact ⟨space, hs, g, hg, hf, hcnt, by rw [hstep], hrep,
      hrep.keeps_sound h (ha.mingle f.address 0 diff ignoreRefCnt)
        (ha.inv.mingle f.address 0 diff ignoreRefCnt).2.extent⟩

/-- A step of a space that takes references away keeps what is free. -/
theorem Replaces.keeps_freeAt {paddr addr : Nat} (h : pmm.Sound) (h' : pmm'.Sound)
    (hrep : Replaces pmm pmm' space (space.mingle paddr 0 diff ignoreRefCnt).2.2)
    (hf : pmm.FreeAt addr) : pmm'.FreeAt addr := by
  have hmingle := ((h.addressable space hrep.mem).inv.mingle paddr 0 diff ignoreRefCnt).2
  by_cases hrf : space.allocationStart ≤ addr ∧ addr < space.allocationEnd
  · rw [h.freeAt_iff_of_range hrep.mem hrf] at hf
    exact h'.freeAt_iff.mpr ⟨_, hrep.mem_new, hmingle.freeAt_of_freeAt hf⟩
  · exact (hrep.freeAt_iff_of_out h h' hmingle.extent hrf).mpr hf

/-- A step of a space that frees a frame. -/
theorem Replaces.drops {g : Frame} (h : pmm.Sound) (h' : pmm'.Sound)
    (hrep : Replaces pmm pmm' space (space.mingle (space.address g) 0 diff ignoreRefCnt).2.2)
    (hg : space.InUse g)
    (hfrees : Frees diff (space.mingle (space.address g) 0 diff ignoreRefCnt) = true) :
    Drops pmm pmm' (space.allocation g) := by
  have ha := h.addressable space hrep.mem
  have hmingle := (ha.inv.mingle (space.address g) 0 diff ignoreRefCnt).2
  have hext := hmingle.extent
  have hr := ha.inRange hg
  have hs' := hrep.mem_new
  refine ⟨fun f c => ?_, fun addr hc => ?_, fun addr hf => ?_⟩
  · by_cases hrf : space.allocationStart ≤ f.address ∧ f.address < space.allocationEnd
    · rw [h.uses_iff hrep.mem hrf, h'.uses_iff hs'
        (by rwa [hext.allocationStart, hext.allocationEnd]), ha.has_mingle_of_frees hfrees]
      refine and_congr_right fun hh => not_congr ⟨fun hc => ?_, ?_⟩
      · obtain ⟨x, hx, rfl, -⟩ := hh
        rw [← ha.select_eq hx hc, ha.select_eq hg (contains_self g)]
      · rintro rfl
        exact contains_self g
    · rw [hrep.uses_iff_of_out h h' hext hrf]
      refine (and_iff_left ?_).symm
      rintro rfl
      have hpos := g.size.bytes_pos
      exact hrf ⟨hr.1, Nat.lt_of_lt_of_le (Nat.lt_add_of_pos_right hpos) hr.2⟩
  · have hcontains : space.address g ≤ addr ∧ addr < space.address g + g.size.bytes := hc
    refine h'.freeAt_iff.mpr ⟨_, hs', ?_⟩
    rw [hfrees] at hmingle
    refine hmingle.freeAt ?_ (by omega)
    rw [ha.select_eq hg hc, ha.select_eq hg (contains_self g)]
  · exact hrep.keeps_freeAt h h' hf

/-- A step of a space that changes the count of a frame. -/
theorem Replaces.recounts {g : Frame} (h : pmm.Sound) (h' : pmm'.Sound)
    (hrep : Replaces pmm pmm' space (space.mingle (space.address g) 0 diff ignoreRefCnt).2.2)
    (hg : space.InUse g) (hdiff : diff ≠ 0)
    (hcount : adjusted (space.descriptor g).referenceCount diff ≠ 0) :
    Recounts pmm pmm' (space.allocation g)
      (adjusted (space.descriptor g).referenceCount diff) := by
  have ha := h.addressable space hrep.mem
  have hmingle := (ha.inv.mingle (space.address g) 0 diff ignoreRefCnt).2
  have hext := hmingle.extent
  have hr := ha.inRange hg
  have hs' := hrep.mem_new
  refine ⟨fun f c => ?_, fun addr hf => ?_⟩
  · by_cases hrf : space.allocationStart ≤ f.address ∧ f.address < space.allocationEnd
    · rw [h.uses_iff hrep.mem hrf, h'.uses_iff hs'
        (by rwa [hext.allocationStart, hext.allocationEnd])]
      exact ha.has_mingle_of_count hg hdiff hcount
    · rw [hrep.uses_iff_of_out h h' hext hrf, if_neg]
      rintro rfl
      have hpos := g.size.bytes_pos
      exact hrf ⟨hr.1, Nat.lt_of_lt_of_le (Nat.lt_add_of_pos_right hpos) hr.2⟩
  · exact hrep.keeps_freeAt h h' hf

/-- Freeing a frame in use. -/
theorem Sound.freeFrame (h : pmm.Sound) (hu : pmm.Uses f cnt) :
    (pmm.freeFrame f.address true).1 = .okay ∧ (pmm.freeFrame f.address true).2.Sound ∧
      Drops pmm (pmm.freeFrame f.address true).2 f := by
  obtain ⟨space, hs, g, hg, rfl, -, hres, hrep, hsound⟩ := h.mingle_uses hu 0 true
  have hokay := (h.addressable space hs).mingle_okay hg 0
  exact ⟨hres.trans hokay, hsound, hrep.drops h hsound hg (by simp [Frees, hokay])⟩

/-- Adjusting the count of a frame in use. -/
theorem Sound.adjustReferenceCount (h : pmm.Sound) (hu : pmm.Uses f cnt) {diff : Int}
    (hdiff : diff ≠ 0) :
    (pmm.adjustReferenceCount f.address diff).1 = .okay ∧
      (pmm.adjustReferenceCount f.address diff).2.Sound ∧
      (adjusted cnt diff = 0 → Drops pmm (pmm.adjustReferenceCount f.address diff).2 f) ∧
      (adjusted cnt diff ≠ 0 →
        Recounts pmm (pmm.adjustReferenceCount f.address diff).2 f (adjusted cnt diff)) := by
  have hpos := (h.uses_bounds hu).1
  have hadjust : pmm.adjustReferenceCount f.address diff =
      ((mingleIn f.address diff false pmm.spaces).1,
        { spaces := (mingleIn f.address diff false pmm.spaces).2 }) := by
    rw [Pmm.adjustReferenceCount, if_neg (by omega)]
  rw [hadjust]
  obtain ⟨space, hs, g, hg, rfl, rfl, hres, hrep, hsound⟩ := h.mingle_uses hu diff false
  obtain ⟨hokay, hnew, -⟩ := (h.addressable space hs).mingle_count hg 0 hdiff false
  refine ⟨hres.trans hokay, hsound, fun hzero => ?_, fun hcount => ?_⟩
  · refine hrep.drops h hsound hg ?_
    have hnew' := hnew.trans hzero
    simp only [Frees, decide_eq_true_eq]
    exact ⟨hokay, Or.inr hnew'⟩
  · exact hrep.recounts h hsound hg hdiff hcount

/-- An adjustment that is refused changes nothing. -/
theorem adjustReferenceCount_refused {diff : Int}
    (hres : (pmm.adjustReferenceCount addr diff).1 ≠ .okay) :
    (pmm.adjustReferenceCount addr diff).2 = pmm := by
  unfold Pmm.adjustReferenceCount at hres ⊢
  split
  next => rfl
  next hargs =>
    rw [if_neg hargs] at hres
    obtain ⟨-, hdiff⟩ := not_or.mp hargs
    rcases mingleIn_cases addr diff false pmm.spaces with ⟨-, hsame⟩ | ⟨l₁, space, l₂, hl, -, hstep⟩
    · rw [hsame]
    · rw [hstep] at hres ⊢
      show Pmm.mk _ = pmm
      rw [mingle_refused hdiff hres, ← hl]

end Mingle

end Pmm

end Beelzebub.Memory
