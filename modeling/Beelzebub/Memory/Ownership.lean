import Beelzebub.Memory.PmmRuns

/-!
# Who owns a frame

Frames by their indices, which of them are in use, and how addresses lead back to
them.  A run of an allocation space carries the list of the allocations that were
not freed yet; up to 2048 large frames these never overlap (`Run.exclusive`).
Beyond that the 32-bit shift of `frameAddress` makes frames share addresses.
-/

namespace Beelzebub.Memory

/-- The bytes that a frame spans. -/
def FrameSize.bytes : FrameSize → Nat
  | ._4KiB => 0x1000
  | ._64KiB => 0x10000
  | ._2MiB => 0x200000
  | ._4MiB => 0x400000
  | ._1GiB => 0x40000000

theorem FrameSize.bytes_pos (size : FrameSize) : 0 < size.bytes := by
  cases size <;> decide

/-- A frame, by its indices. -/
inductive Frame where
  | large (l : Nat)
  | small (l s : Nat)
deriving DecidableEq

namespace Frame

def index : Frame → Nat
  | large l => l
  | small l _ => l

def size : Frame → FrameSize
  | large _ => ._2MiB
  | small _ _ => ._4KiB

/-- The index of the page within the large frame. -/
def page : Frame → Nat
  | large _ => 0
  | small _ s => s

end Frame

/-- What the caller of `AllocateFrame` holds. -/
structure Allocation where
  address : Nat
  size : FrameSize
deriving DecidableEq

namespace Allocation

def Contains (f : Allocation) (addr : Nat) : Prop :=
  f.address ≤ addr ∧ addr < f.address + f.size.bytes

instance (f : Allocation) (addr : Nat) : Decidable (f.Contains addr) :=
  inferInstanceAs (Decidable (_ ∧ _))

/-- The byte ranges have nothing in common. -/
def Disjoint (f g : Allocation) : Prop :=
  f.address + f.size.bytes ≤ g.address ∨ g.address + g.size.bytes ≤ f.address

instance (f g : Allocation) : Decidable (f.Disjoint g) := inferInstanceAs (Decidable (_ ∨ _))

/-- Ranges that are not disjoint share an address. -/
theorem exists_contains {f g : Allocation} (h : ¬f.Disjoint g) :
    ∃ addr, f.Contains addr ∧ g.Contains addr := by
  have hf := f.size.bytes_pos
  have hg := g.size.bytes_pos
  unfold Disjoint at h
  refine ⟨max f.address g.address, ?_, ?_⟩ <;> unfold Contains <;> omega

end Allocation

namespace FrameAllocationSpace

open LargeFrameDescriptor (nullIndex subDescriptorsCount)

/-- The descriptor of a frame. -/
def descriptor (space : FrameAllocationSpace) : Frame → FrameDescriptor
  | .large l => (space.map l).toFrameDescriptor
  | .small l s => ((space.map l).small s).toFrameDescriptor

/-- The space has such a frame now. -/
def Present (space : FrameAllocationSpace) : Frame → Prop
  | .large l => l < space.largeFrameCount
  | .small l s => l < space.largeFrameCount ∧ (space.statusOf l).IsSplit ∧
      1 ≤ s ∧ s ≤ subDescriptorsCount

/-- The frame is there and its descriptor is marked used. -/
def InUse (space : FrameAllocationSpace) (g : Frame) : Prop :=
  space.Present g ∧ (space.descriptor g).status = .used

/-- The frame whose descriptor `Mingle` and `GetFrameInfo` look at. -/
def select (space : FrameAllocationSpace) (addr : Nat) : Frame :=
  match space.statusOf (space.largeIndex addr) with
  | .split | .full => .small (space.largeIndex addr) (smallIndex addr)
  | _ => .large (space.largeIndex addr)

/-- Where a frame is. -/
def address (space : FrameAllocationSpace) (g : Frame) : Nat :=
  space.allocationStart + g.index * largePageSize + g.page * pageSize

def allocation (space : FrameAllocationSpace) (g : Frame) : Allocation :=
  { address := space.address g, size := g.size }

section Use

variable {space space' : FrameAllocationSpace} {l s addr refCnt : Nat} {size : FrameSize}

/-! ## Frames in use -/

theorem inUse_large : space.InUse (.large l) ↔
    l < space.largeFrameCount ∧ space.statusOf l = .used := Iff.rfl

theorem inUse_small : space.InUse (.small l s) ↔
    (l < space.largeFrameCount ∧ (space.statusOf l).IsSplit ∧ 1 ≤ s ∧ s ≤ subDescriptorsCount) ∧
      ((space.map l).small s).status = .used := Iff.rfl

theorem IsSplit.ne_used {st : FrameStatus} (h : st.IsSplit) : st ≠ .used := by
  rcases h with rfl | rfl <;> simp

theorem not_inUse_large (h : space.statusOf l ≠ .used) : ¬space.InUse (.large l) :=
  fun hu => h hu.2

theorem not_inUse_small (h : ¬(space.statusOf l).IsSplit) : ¬space.InUse (.small l s) :=
  fun hu => h hu.1.2.1

/-- A step that works on one large frame leaves the frames elsewhere alone. -/
theorem Local.inUse_iff (h : Local l space space') {g : Frame} (hg : g.index ≠ l) :
    space'.InUse g ↔ space.InUse g := by
  cases g with
  | large i =>
      have ha := h.other i hg
      rw [inUse_large, inUse_large, h.extent.largeFrameCount, statusOf, ha.status]
      rfl
  | small i s =>
      have ha := h.other i hg
      rw [inUse_small, inUse_small, h.extent.largeFrameCount, statusOf, ha.status, ha.small]
      rfl

theorem Local.inUse_same (h : Local l space space')
    (hlarge : space'.InUse (.large l) ↔ space.InUse (.large l))
    (hsmall : ∀ s, space'.InUse (.small l s) ↔ space.InUse (.small l s)) (x : Frame) :
    space'.InUse x ↔ space.InUse x := by
  by_cases hx : x.index = l
  · cases x with
    | large i => exact (show i = l from hx) ▸ hlarge
    | small i s => exact (show i = l from hx) ▸ hsmall s
  · exact h.inUse_iff hx

/-- One frame more is in use. -/
structure Gains (space space' : FrameAllocationSpace) (g : Frame) : Prop where
  fresh : ¬space.InUse g
  iff : ∀ x, space'.InUse x ↔ space.InUse x ∨ x = g

/-- One frame less is in use. -/
structure Loses (space space' : FrameAllocationSpace) (g : Frame) : Prop where
  used : space.InUse g
  iff : ∀ x, space'.InUse x ↔ space.InUse x ∧ x ≠ g

theorem Gains.inUse {g : Frame} (h : Gains space space' g) : space'.InUse g :=
  (h.iff g).mpr (Or.inr rfl)

/-- It is enough to look at the large frame that the step works on. -/
theorem Gains.of_local {g : Frame} (hloc : Local g.index space space') (hfresh : ¬space.InUse g)
    (hat : ∀ x, x.index = g.index → (space'.InUse x ↔ space.InUse x ∨ x = g)) :
    Gains space space' g := by
  refine ⟨hfresh, fun x => ?_⟩
  by_cases hx : x.index = g.index
  · exact hat x hx
  · rw [hloc.inUse_iff hx]
    refine (or_iff_left ?_).symm
    rintro rfl
    exact hx rfl

theorem Loses.of_local {g : Frame} (hloc : Local g.index space space') (hused : space.InUse g)
    (hat : ∀ x, x.index = g.index → (space'.InUse x ↔ space.InUse x ∧ x ≠ g)) :
    Loses space space' g := by
  refine ⟨hused, fun x => ?_⟩
  by_cases hx : x.index = g.index
  · exact hat x hx
  · rw [hloc.inUse_iff hx]
    refine (and_iff_left ?_).symm
    rintro rfl
    exact hx rfl

/-- An allocation that succeeds marks one frame as used. -/
theorem Allocates.gains (h : Allocates space refCnt size addr space') :
    addr = 0 ∧ space' = space ∨
      ∃ g, g.index < space.largeFrameCount ∧ addr = space.frameAddress g.index g.page ∧
        g.size = size ∧ Gains space space' g ∧
        space'.descriptor g = { status := .used, referenceCount := refCnt } := by
  cases h with
  | exhausted => exact Or.inl ⟨rfl, rfl⟩
  | @large l _ hl hfree hdesc hloc =>
      have hstatus : space'.statusOf l = .used := by rw [statusOf, hdesc]
      have hfree' : ¬(space.statusOf l).IsSplit := fun hs => IsSplit.ne_free hs hfree
      refine Or.inr ⟨.large l, hl, rfl, rfl, .of_local hloc ?_ fun x hx => ?_, hdesc⟩
      · exact not_inUse_large (by rw [hfree]; simp)
      · cases x with
        | large i =>
            cases hx
            rw [inUse_large, hloc.extent.largeFrameCount]
            exact ⟨fun _ => Or.inr rfl, fun _ => ⟨hl, hstatus⟩⟩
        | small i s =>
            cases hx
            have hused : ¬(space'.statusOf l).IsSplit := fun hs => IsSplit.ne_used hs hstatus
            simp [not_inUse_small hused, not_inUse_small hfree']
  | @small l s _ hl hsplit hsplit' hs hfree hsmall hloc =>
      refine Or.inr ⟨.small l s, hl, rfl, rfl, .of_local hloc ?_ fun x hx => ?_, ?_⟩
      · rintro ⟨-, hused⟩
        have hused : ((space.map l).small s).status = .used := hused
        rw [hfree] at hused
        cases hused
      · cases x with
        | large i =>
            cases hx
            simp [not_inUse_large (IsSplit.ne_used hsplit),
              not_inUse_large (IsSplit.ne_used hsplit')]
        | small i t =>
            cases hx
            rw [inUse_small, inUse_small, hloc.extent.largeFrameCount, hsmall]
            by_cases ht : t = s
            · subst ht
              rw [if_pos rfl]
              exact ⟨fun _ => Or.inr rfl, fun _ => ⟨⟨hl, hsplit', hs⟩, rfl⟩⟩
            · rw [if_neg ht]
              simp [ht, hsplit, hsplit']
      · show ((space'.map l).small s).toFrameDescriptor = _
        rw [hsmall, if_pos rfl]
  | @splitting l s _ hl hfree hsplit' hs hdesc hother hloc =>
      have hfree' : ¬(space.statusOf l).IsSplit := fun hs => IsSplit.ne_free hs hfree
      refine Or.inr ⟨.small l s, hl, rfl, rfl, .of_local hloc (not_inUse_small hfree')
        fun x hx => ?_, hdesc⟩
      cases x with
      | large i =>
          cases hx
          have hused : space.statusOf l ≠ .used := by rw [hfree]; simp
          simp [not_inUse_large hused, not_inUse_large (IsSplit.ne_used hsplit')]
      | small i t =>
          cases hx
          rw [inUse_small, hloc.extent.largeFrameCount]
          by_cases ht : t = s
          · subst ht
            refine ⟨fun _ => Or.inr rfl, fun _ => ⟨⟨hl, hsplit', hs⟩, ?_⟩⟩
            rw [hdesc]
          · refine ⟨fun hu => ?_, fun hu => ?_⟩
            · have := hother t hu.1.2.2 ht
              rw [hu.2] at this
              cases this
            · rcases hu with hu | hu
              · exact absurd hu (not_inUse_small hfree')
              · cases hu
                exact absurd rfl ht

theorem select_of_used (hidx : space.largeIndex addr = l) (h : space.statusOf l = .used) :
    space.select addr = .large l := by
  rw [select, hidx, h]

theorem select_of_split (hidx : space.largeIndex addr = l) (hsidx : smallIndex addr = s)
    (h : (space.statusOf l).IsSplit) : space.select addr = .small l s := by
  rcases h with h | h <;> rw [select, hidx, hsidx, h]

/-- A call of `Mingle` that frees a frame frees the one it selects, and no other call
changes which frames are in use. -/
theorem Mingles.inUse {freed : Bool} (h : Mingles space addr freed space') :
    (freed = true → Loses space space' (space.select addr)) ∧
      (freed = false → ∀ x, space'.InUse x ↔ space.InUse x) := by
  cases h with
  | unchanged => exact ⟨nofun, fun _ _ => Iff.rfl⟩
  | @countLarge l _ hidx hl hused hused' hloc =>
      refine ⟨nofun, fun _ => hloc.inUse_same ?_ fun s => ?_⟩
      · rw [inUse_large, inUse_large, hloc.extent.largeFrameCount, hused, hused']
      · have h1 : ¬space.InUse (.small l s) := not_inUse_small fun hs => IsSplit.ne_used hs hused
        have h2 : ¬space'.InUse (.small l s) :=
          not_inUse_small fun hs => IsSplit.ne_used hs hused'
        exact ⟨fun h => absurd h h2, fun h => absurd h h1⟩
  | @freeLarge l _ hidx hl hused hfree hloc =>
      refine ⟨fun _ => ?_, nofun⟩
      rw [select_of_used hidx hused]
      refine .of_local hloc ⟨hl, hused⟩ fun x hx => ?_
      have hfree' : ¬(space'.statusOf l).IsSplit :=
        fun hs => IsSplit.ne_free hs hfree
      cases x with
      | large i =>
          cases hx
          have : space'.statusOf l ≠ .used := by rw [hfree]; simp
          simp [not_inUse_large this]
      | small i s =>
          cases hx
          have hused' : ¬(space.statusOf l).IsSplit :=
            fun hs => IsSplit.ne_used hs hused
          simp [not_inUse_small hused', not_inUse_small hfree']
  | @countSmall l s _ hidx hsidx hl hs hsplit hsplit' hsmall hloc =>
      refine ⟨nofun, fun _ => hloc.inUse_same ?_ fun t => ?_⟩
      · simp [not_inUse_large (IsSplit.ne_used hsplit), not_inUse_large (IsSplit.ne_used hsplit')]
      · rw [inUse_small, inUse_small, hloc.extent.largeFrameCount, hsmall]
        simp [hsplit, hsplit']
  | @freeSmall l s _ hidx hsidx hl hs hsplit hused hsplit' hsmall hloc =>
      refine ⟨fun _ => ?_, nofun⟩
      rw [select_of_split hidx hsidx hsplit]
      refine .of_local hloc ⟨⟨hl, hsplit, hs⟩, hused⟩ fun x hx => ?_
      cases x with
      | large i =>
          cases hx
          simp [not_inUse_large (IsSplit.ne_used hsplit),
            not_inUse_large (IsSplit.ne_used hsplit')]
      | small i t =>
          cases hx
          rw [inUse_small, inUse_small, hloc.extent.largeFrameCount, hsmall]
          by_cases ht : t = s
          · simp [ht]
          · simp [ht, hsplit, hsplit']
  | @reclaim l s _ hidx hsidx hl hs hsplit hused hother hfree hloc =>
      refine ⟨fun _ => ?_, nofun⟩
      rw [select_of_split hidx hsidx hsplit]
      refine .of_local hloc ⟨⟨hl, hsplit, hs⟩, hused⟩ fun x hx => ?_
      cases x with
      | large i =>
          cases hx
          have : space'.statusOf l ≠ .used := by rw [hfree]; simp
          simp [not_inUse_large (IsSplit.ne_used hsplit), not_inUse_large this]
      | small i t =>
          cases hx
          have hfree' : ¬(space'.statusOf l).IsSplit :=
            fun hs => IsSplit.ne_free hs hfree
          refine ⟨fun hu => absurd hu (not_inUse_small hfree'), fun ⟨hu, hne⟩ => ?_⟩
          have ht : t ≠ s := fun h => hne (by rw [h])
          have := hother t hu.1.2.2 ht
          rw [inUse_small.mp hu |>.2] at this
          cases this

/-! ## Addresses of frames -/

/-- A space whose frames all have addresses of their own. -/
structure Addressable (space : FrameAllocationSpace) : Prop where
  inv : space.Inv
  /-- The shift of an index does not wrap. -/
  count : space.largeFrameCount ≤ 2048
  aligned : space.allocationStart % largePageSize = 0
  start_pos : 0 < space.allocationStart
  /-- The control structures are in front of the frames. -/
  control : space.mapAddress + space.controlAreaSize ≤ space.allocationStart
  /-- The small frames past the end are reserved. -/
  beyond : ∀ l < space.largeFrameCount, ∀ s, 1 ≤ s → s ≤ subDescriptorsCount →
    space.allocationEnd < space.address (.small l s) + pageSize →
    ((space.map l).small s).status = .reserved

variable {g g' : Frame}

theorem Addressable.inRange (ha : space.Addressable) (hg : space.InUse g) :
    space.allocationStart ≤ space.address g ∧
      space.address g + g.size.bytes ≤ space.allocationEnd := by
  refine ⟨?_, ?_⟩
  · unfold address
    omega
  · by_contra hend
    cases g with
    | large l =>
        obtain ⟨hl, hused⟩ := inUse_large.mp hg
        have htr : space.Trailing l := by
          refine ⟨hl, ?_⟩
          unfold address Frame.size Frame.index Frame.page FrameSize.bytes at hend
          unfold largePageSize at hend ⊢
          simp only at hend
          omega
        exact IsSplit.ne_used (ha.inv.trailing l htr).1 hused
    | small l s =>
        obtain ⟨⟨hl, -, hs⟩, hused⟩ := inUse_small.mp hg
        have hres := ha.beyond l hl s hs.1 hs.2 (by
          unfold Frame.size FrameSize.bytes at hend
          unfold pageSize
          simp only at hend
          omega)
        rw [hused] at hres
        cases hres

/-- The address that `AllocateFrame` computes is the frame's. -/
theorem Addressable.frameAddress_eq (ha : space.Addressable) (hl : g.index < space.largeFrameCount)
    (hend : space.address g < 2 ^ 64) :
    space.frameAddress g.index g.page = space.address g := by
  have hcount := ha.count
  unfold address at hend
  unfold FrameAllocationSpace.frameAddress address
  have hshift : g.index * largePageSize % 2 ^ 32 = g.index * largePageSize := by
    refine Nat.mod_eq_of_lt ?_
    unfold largePageSize
    omega
  have hadd : Word.add space.allocationStart (g.index * largePageSize) =
      space.allocationStart + g.index * largePageSize := Word.add_of_lt (by omega)
  rw [hshift, hadd, Word.add_of_lt (by omega)]

/-- Every address inside a frame in use leads back to it. -/
theorem Addressable.select_eq (ha : space.Addressable) (hg : space.InUse g)
    (haddr : (space.allocation g).Contains addr) : space.select addr = g := by
  obtain ⟨hlo, hhi⟩ := ha.inRange hg
  have hal := ha.aligned
  have hcontains : space.address g ≤ addr ∧ addr < space.address g + g.size.bytes := haddr
  have hidx := (ha.inv.largeIndex_lt addr (by omega)).1
  unfold address largePageSize pageSize at hcontains
  unfold largePageSize at hal hidx
  cases g with
  | large l =>
      have hl : space.largeIndex addr = l := by
        rw [hidx]
        unfold Frame.index Frame.page Frame.size FrameSize.bytes at hcontains
        simp only at hcontains
        omega
      exact select_of_used hl hg.2
  | small l s =>
      obtain ⟨⟨-, hsplit, hs⟩, -⟩ := inUse_small.mp hg
      unfold LargeFrameDescriptor.subDescriptorsCount at hs
      unfold Frame.index Frame.page Frame.size FrameSize.bytes at hcontains
      simp only at hcontains
      have hl : space.largeIndex addr = l := by
        rw [hidx]
        omega
      have hs' : smallIndex addr = s := by
        unfold smallIndex largePageSize pageSize
        omega
      exact select_of_split hl hs' hsplit

/-- An address of the allocation area lies in the frame that it selects. -/
theorem Addressable.contains_select (ha : space.Addressable)
    (haddr : space.allocationStart ≤ addr ∧ addr < space.allocationEnd) :
    (space.allocation (space.select addr)).Contains addr := by
  have hal := ha.aligned
  have hidx := (ha.inv.largeIndex_lt addr haddr).1
  show space.address _ ≤ addr ∧ addr < space.address _ + FrameSize.bytes (Frame.size _)
  unfold address
  unfold largePageSize at hal hidx
  cases hsel : space.select addr with
  | large l =>
      have hl : space.largeIndex addr = l := by
        unfold select at hsel
        split at hsel
        all_goals cases hsel
        rfl
      unfold Frame.index Frame.page Frame.size FrameSize.bytes largePageSize pageSize
      simp only
      omega
  | small l s =>
      have hls : space.largeIndex addr = l ∧ smallIndex addr = s := by
        unfold select at hsel
        split at hsel
        all_goals cases hsel
        all_goals exact ⟨rfl, rfl⟩
      obtain ⟨hl, hs⟩ := hls
      unfold smallIndex largePageSize pageSize at hs
      unfold Frame.index Frame.page Frame.size FrameSize.bytes largePageSize pageSize
      simp only
      omega

theorem contains_self (g : Frame) : (space.allocation g).Contains (space.address g) :=
  ⟨Nat.le_refl _, Nat.lt_add_of_pos_right g.size.bytes_pos⟩

/-- Frames in use do not overlap. -/
theorem Addressable.disjoint (ha : space.Addressable) (hg : space.InUse g) (hg' : space.InUse g')
    (hne : g ≠ g') : (space.allocation g).Disjoint (space.allocation g') := by
  by_contra h
  obtain ⟨addr, hc, hc'⟩ := Allocation.exists_contains h
  exact hne ((ha.select_eq hg hc).symm.trans (ha.select_eq hg' hc'))

theorem Addressable.allocation_inj (ha : space.Addressable) (hg : space.InUse g)
    (hg' : space.InUse g') (h : space.allocation g = space.allocation g') : g = g' := by
  rw [← ha.select_eq hg (contains_self g)]
  refine ha.select_eq hg' ?_
  rw [← h]
  exact contains_self g

theorem SameExtent.allocation_eq (h : space.SameExtent space') (g : Frame) :
    space'.allocation g = space.allocation g := by
  unfold allocation address
  rw [h.allocationStart]

/-! ## What a step keeps -/

/-- The space after a step that keeps what is past the end reserved. -/
theorem Addressable.step (ha : space.Addressable) (hext : space.SameExtent space')
    (hinv : space'.Inv)
    (hres : ∀ l s, space.Trailing l → ((space.map l).small s).status = .reserved →
      ((space'.map l).small s).status = .reserved) : space'.Addressable where
  inv := hinv
  count := by rw [hext.largeFrameCount]; exact ha.count
  aligned := by rw [hext.allocationStart]; exact ha.aligned
  start_pos := by rw [hext.allocationStart]; exact ha.start_pos
  control := by
    rw [hext.mapAddress, hext.controlAreaSize, hext.allocationStart]
    exact ha.control
  beyond l hl s hs hs' hend := by
    rw [hext.largeFrameCount] at hl
    have haddr : space'.address (.small l s) = space.address (.small l s) := by
      unfold address
      rw [hext.allocationStart]
    rw [hext.allocationEnd, haddr] at hend
    refine hres l s ⟨hl, ?_⟩ (ha.beyond l hl s hs hs' hend)
    unfold address Frame.index Frame.page largePageSize pageSize at hend
    unfold LargeFrameDescriptor.subDescriptorsCount at hs'
    unfold largePageSize
    simp only at hend
    omega

theorem Allocates.extent (h : Allocates space refCnt size addr space') :
    space.SameExtent space' := by
  cases h with
  | exhausted => exact .refl space
  | large _ _ _ hloc => exact hloc.extent
  | small _ _ _ _ _ _ hloc => exact hloc.extent
  | splitting _ _ _ _ _ _ hloc => exact hloc.extent

theorem Mingles.extent {freed : Bool} (h : Mingles space addr freed space') :
    space.SameExtent space' := by
  cases h with
  | unchanged => exact .refl space
  | countLarge _ _ _ _ hloc => exact hloc.extent
  | freeLarge _ _ _ _ hloc => exact hloc.extent
  | countSmall _ _ _ _ _ _ _ hloc => exact hloc.extent
  | freeSmall _ _ _ _ _ _ _ _ hloc => exact hloc.extent
  | reclaim _ _ _ _ _ _ _ _ hloc => exact hloc.extent

/-- A step elsewhere keeps a small frame reserved. -/
theorem Local.reserved {i : Nat} (h : Local i space space') (hne : l ≠ i)
    (hres : ((space.map l).small s).status = .reserved) :
    ((space'.map l).small s).status = .reserved := by
  rw [(h.other l hne).small]
  exact hres

theorem Allocates.reserved (h : Allocates space refCnt size addr space') (hinv : space.Inv)
    (htr : space.Trailing l) (hres : ((space.map l).small s).status = .reserved) :
    ((space'.map l).small s).status = .reserved := by
  have hsplit := (hinv.trailing l htr).1
  cases h with
  | exhausted => exact hres
  | @large i _ _ hfree _ hloc =>
      refine hloc.reserved ?_ hres
      rintro rfl
      exact IsSplit.ne_free hsplit hfree
  | @small i t _ _ _ _ _ hfree hsmall hloc =>
      by_cases hi : l = i
      · subst hi
        rw [hsmall, if_neg]
        · exact hres
        · rintro rfl
          rw [hfree] at hres
          cases hres
      · exact hloc.reserved hi hres
  | @splitting i t _ _ hfree _ _ _ _ hloc =>
      refine hloc.reserved ?_ hres
      rintro rfl
      exact IsSplit.ne_free hsplit hfree

theorem Mingles.reserved {freed : Bool} (h : Mingles space addr freed space') (hinv : space.Inv)
    (hinv' : space'.Inv) (htr : space.Trailing l)
    (hres : ((space.map l).small s).status = .reserved) :
    ((space'.map l).small s).status = .reserved := by
  have hsplit := (hinv.trailing l htr).1
  have hsplit' := (hinv'.trailing l (h.extent.trailing_iff.mpr htr)).1
  cases h with
  | unchanged => exact hres
  | @countLarge i _ _ _ hused _ hloc =>
      refine hloc.reserved ?_ hres
      rintro rfl
      exact IsSplit.ne_used hsplit hused
  | @freeLarge i _ _ _ hused _ hloc =>
      refine hloc.reserved ?_ hres
      rintro rfl
      exact IsSplit.ne_used hsplit hused
  | @countSmall i t _ _ _ _ _ _ _ hsmall hloc =>
      by_cases hi : l = i
      · subst hi
        rw [hsmall]
        exact hres
      · exact hloc.reserved hi hres
  | @freeSmall i t _ _ _ _ _ _ hused _ hsmall hloc =>
      by_cases hi : l = i
      · subst hi
        rw [hsmall, if_neg]
        · exact hres
        · rintro rfl
          rw [hused] at hres
          cases hres
      · exact hloc.reserved hi hres
  | @reclaim i t _ _ _ _ _ _ _ _ hfree hloc =>
      refine hloc.reserved ?_ hres
      rintro rfl
      exact IsSplit.ne_free hsplit' hfree

/-! ## The allocations that are held -/

/-- The list holds an allocation for every frame in use. -/
structure Tracks (space : FrameAllocationSpace) (live : List Allocation) : Prop where
  mem_iff : ∀ f, f ∈ live ↔ ∃ g, space.InUse g ∧ space.allocation g = f
  nodup : live.Nodup

variable {live : List Allocation}

theorem Tracks.gain (h : space.Tracks live) (ha : space'.Addressable)
    (hext : space.SameExtent space') (hgain : Gains space space' g) :
    space'.Tracks (space'.allocation g :: live) := by
  refine ⟨fun f => ?_, List.nodup_cons.mpr ⟨fun hmem => ?_, h.nodup⟩⟩
  · rw [List.mem_cons, h.mem_iff]
    constructor
    · rintro (rfl | ⟨x, hx, rfl⟩)
      · exact ⟨g, hgain.inUse, rfl⟩
      · exact ⟨x, (hgain.iff x).mpr (Or.inl hx), hext.allocation_eq x⟩
    · rintro ⟨x, hx, rfl⟩
      rcases (hgain.iff x).mp hx with hx | rfl
      · exact Or.inr ⟨x, hx, (hext.allocation_eq x).symm⟩
      · exact Or.inl rfl
  · obtain ⟨x, hx, heq⟩ := (h.mem_iff _).mp hmem
    rw [← hext.allocation_eq x] at heq
    have := ha.allocation_inj ((hgain.iff x).mpr (Or.inl hx)) hgain.inUse heq
    exact hgain.fresh (this ▸ hx)

/-- What is held after the frame around an address was freed. -/
def release (addr : Nat) (live : List Allocation) : List Allocation :=
  live.filter fun f => ¬f.Contains addr

theorem Tracks.lose (h : space.Tracks live) (ha : space.Addressable)
    (haddr : space.allocationStart ≤ addr ∧ addr < space.allocationEnd)
    (hext : space.SameExtent space') (hlose : Loses space space' (space.select addr)) :
    space'.Tracks (release addr live) := by
  refine ⟨fun f => ?_, h.nodup.filter _⟩
  rw [release, List.mem_filter, h.mem_iff, decide_eq_true_iff]
  constructor
  · rintro ⟨⟨x, hx, rfl⟩, hc⟩
    refine ⟨x, (hlose.iff x).mpr ⟨hx, ?_⟩, hext.allocation_eq x⟩
    rintro rfl
    exact hc (ha.contains_select haddr)
  · rintro ⟨x, hx, rfl⟩
    obtain ⟨hx, hne⟩ := (hlose.iff x).mp hx
    rw [hext.allocation_eq]
    exact ⟨⟨x, hx, rfl⟩, fun hc => hne (ha.select_eq hx hc).symm⟩

theorem Tracks.same (h : space.Tracks live) (hext : space.SameExtent space')
    (hiff : ∀ x, space'.InUse x ↔ space.InUse x) : space'.Tracks live := by
  refine ⟨fun f => ?_, h.nodup⟩
  simp only [h.mem_iff, hiff, hext.allocation_eq]

/-- What is held after an allocation. -/
def record (addr : Nat) (size : FrameSize) (live : List Allocation) : List Allocation :=
  if addr = 0 then live else { address := addr, size := size } :: live

/-- An allocation marks a frame that was not in use, and returns its address. -/
structure Marks (space space' : FrameAllocationSpace) (addr refCnt : Nat) (size : FrameSize) :
    Prop where
  gains : Gains space space' (space'.select addr)
  size : (space'.select addr).size = size
  address : space'.address (space'.select addr) = addr
  descriptor : space'.descriptor (space'.select addr) =
    { status := .used, referenceCount := refCnt }

theorem Addressable.allocateFrame (ha : space.Addressable) (size : FrameSize) (refCnt : Nat) :
    (space.allocateFrame size refCnt).2.Addressable ∧
      ((space.allocateFrame size refCnt).1 = 0 ∧ (space.allocateFrame size refCnt).2 = space ∨
        (space.allocateFrame size refCnt).1 ≠ 0 ∧
        Marks space (space.allocateFrame size refCnt).2 (space.allocateFrame size refCnt).1 refCnt
          size) := by
  obtain ⟨hinv, halloc⟩ := ha.inv.allocateFrame size refCnt
  have hext := halloc.extent
  have ha' := ha.step hext hinv fun l s => halloc.reserved ha.inv
  refine ⟨ha', ?_⟩
  rcases halloc.gains with hnone | ⟨g, hg, haddr, hsize, hgain, hdesc⟩
  · exact Or.inl hnone
  · have hrange := ha'.inRange hgain.inUse
    have hend := ha'.inv.end_lt
    have hpos := ha'.start_pos
    have hbytes := g.size.bytes_pos
    rw [← hext.frameAddress, ha'.frameAddress_eq (hext.largeFrameCount.symm ▸ hg) (by omega)]
      at haddr
    have hsel : (space.allocateFrame size refCnt).2.select (space.allocateFrame size refCnt).1 =
        g := by
      rw [haddr]
      exact ha'.select_eq hgain.inUse (contains_self g)
    refine Or.inr ⟨by omega, ?_, ?_, ?_, ?_⟩
    · rw [hsel]
      exact hgain
    · rw [hsel]
      exact hsize
    · rw [hsel]
      exact haddr.symm
    · rw [hsel]
      exact hdesc

theorem Tracks.allocateFrame (h : space.Tracks live) (ha : space.Addressable) (size : FrameSize)
    (refCnt : Nat) : (space.allocateFrame size refCnt).2.Tracks
      (record (space.allocateFrame size refCnt).1 size live) := by
  obtain ⟨ha', ⟨hzero, hsame⟩ | ⟨hne, hmarks⟩⟩ := ha.allocateFrame size refCnt
  · rw [record, if_pos hzero, hsame]
    exact h
  · rw [record, if_neg hne]
    have hgain := h.gain ha' (ha.inv.allocateFrame size refCnt).2.extent hmarks.gains
    rw [allocation, hmarks.address, hmarks.size] at hgain
    exact hgain

theorem Addressable.mingle (ha : space.Addressable) (addr newCnt : Nat) (diff : Int)
    (ignoreRefCnt : Bool) : (space.mingle addr newCnt diff ignoreRefCnt).2.2.Addressable := by
  obtain ⟨hinv, hmingle⟩ := ha.inv.mingle addr newCnt diff ignoreRefCnt
  exact ha.step hmingle.extent hinv fun l s => hmingle.reserved ha.inv hinv

theorem Tracks.mingle (h : space.Tracks live) (ha : space.Addressable) (addr newCnt : Nat)
    (diff : Int) (ignoreRefCnt : Bool) :
    (space.mingle addr newCnt diff ignoreRefCnt).2.2.Tracks
      (if Frees diff (space.mingle addr newCnt diff ignoreRefCnt) then release addr live
        else live) := by
  obtain ⟨-, hmingle⟩ := ha.inv.mingle addr newCnt diff ignoreRefCnt
  by_cases hrange : space.allocationStart ≤ addr ∧ addr < space.allocationEnd
  · cases hfrees : Frees diff (space.mingle addr newCnt diff ignoreRefCnt) with
    | true => exact h.lose ha hrange hmingle.extent (hmingle.inUse.1 hfrees)
    | false => exact h.same hmingle.extent (hmingle.inUse.2 hfrees)
  · have hout : space.mingle addr newCnt diff ignoreRefCnt =
        (.pagesOutOfAllocatorRange, newCnt, space) := if_pos (by omega)
    rw [hout]
    exact h

end Use

end FrameAllocationSpace

end Beelzebub.Memory
