import Beelzebub.Memory.Relocation

/-!
# Creation of the allocation spaces

What calls of `CreateAllocationSpace` leave in memory: a chain of records, of which the
first page of the first space holds 33, and control structures apart from each other.
-/

namespace Beelzebub.Memory

open VmmArc Linked FrameAllocationSpace

/-! ## Constructed spaces -/

/-- The parts of a space that was constructed. -/
def Layout.of (a : Nat) (space : FrameAllocationSpace) : Layout :=
  { addr := a
    memoryStart := space.memoryStart
    largeFrameCount := space.largeFrameCount
    page := fun i => (space.map i).subDescriptors }

/-- The structures of the space are between the two addresses. -/
structure Layout.Within (e : Layout) (start stop : Nat) : Prop where
  memoryStart : e.memoryStart = start
  control : start + e.controlSize ≤ stop
  page : ∀ i < e.largeFrameCount, e.page i + pageSize ≤ stop

/-- A constructed space refers to itself. -/
structure Constructed (space : FrameAllocationSpace) (physStart physEnd : Nat) : Prop where
  mapAddress : space.mapAddress = physStart
  controlAreaSize : space.controlAreaSize = space.largeFrameCount * LargeFrameDescriptor.size
  within : ∀ a, (Layout.of a space).Within physStart physEnd
  aligned : ∀ a, (Layout.of a space).Aligned
  count : space.largeFrameCount ≤ 2 ^ 26

section Construct

variable {mem : Nat → LargeFrameDescriptor} {physStart physEnd n : Nat}
  {space : FrameAllocationSpace}

theorem memoryStart_stackLarge (n i : Nat) (last : Option Nat) (space : FrameAllocationSpace) :
    (stackLarge n i last space).memoryStart = space.memoryStart := by
  induction n generalizing i last space with
  | zero => cases last <;> rfl
  | succ n ih =>
      rw [stackLarge, ih]
      cases last <;> rfl

theorem memoryStart_addPartialFrame (ctrlEnd algnEnd : Nat) (space : FrameAllocationSpace) :
    (space.addPartialFrame ctrlEnd algnEnd).memoryStart = space.memoryStart := by
  unfold addPartialFrame
  simp only
  split <;> rfl

theorem subDescriptors_stacked {i : Nat} (hi : i < n) :
    ((stacked mem physStart physEnd n).map i).subDescriptors =
      alignedEnd physEnd - n * largePageSize + i * largePageSize := by
  have hrange : 0 ≤ i ∧ i < 0 + n := by omega
  rw [stacked, map_stackLarge _ _ _ _ (by simp), if_pos hrange]
  rfl

/-- Where the parts are, once the pages are known to start each large frame. -/
theorem constructed_of_pages {base : Nat} (hmod : physStart % pageSize = 0)
    (hbase : base % largePageSize = 0) (hmem : space.memoryStart = physStart)
    (haddr : space.mapAddress = physStart)
    (hctrl : space.controlAreaSize = space.largeFrameCount * LargeFrameDescriptor.size)
    (hroom : physStart + space.largeFrameCount * LargeFrameDescriptor.size ≤ base)
    (hpage : ∀ i < space.largeFrameCount,
      (space.map i).subDescriptors = base + i * largePageSize)
    (hbound : ∀ i < space.largeFrameCount, base + i * largePageSize + pageSize ≤ physEnd)
    (hle : base ≤ physEnd) (hcount : space.largeFrameCount ≤ 2 ^ 26) :
    Constructed space physStart physEnd where
  mapAddress := haddr
  controlAreaSize := hctrl
  count := hcount
  within a := by
    refine ⟨hmem, ?_, fun i hi => ?_⟩
    · unfold Layout.controlSize Layout.of
      unfold pageSize LargeFrameDescriptor.size largePageSize at *
      simp only
      omega
    · show (space.map i).subDescriptors + pageSize ≤ physEnd
      rw [hpage i hi]
      exact hbound i hi
  aligned a := by
    refine ⟨(congrArg (· % pageSize) hmem).trans hmod, fun i hi => ?_⟩
    have h := hpage i hi
    show (space.map i).subDescriptors % pageSize = 0
    unfold pageSize largePageSize at *
    omega

theorem construct_layout (hmod : physStart % pageSize = 0) (hstart : 0 < physStart)
    (hlow : physStart ≤ lowerHalfEnd + pageSize) (hend : physEnd ≤ lowerHalfEnd)
    (h : construct mem physStart physEnd = some space) : Constructed space physStart physEnd := by
  unfold lowerHalfEnd at hlow hend
  have hwrap : NoWrap physStart := by
    unfold pageSize at hlow
    unfold NoWrap LargeFrameDescriptor.size
    omega
  obtain ⟨n, hpos, -, hroom, rfl⟩ := construct_eq hwrap (by omega) h
  have hbase : (alignedEnd physEnd - n * largePageSize) % largePageSize = 0 := by
    unfold alignedEnd largePageSize
    omega
  have hle := alignedEnd_le physEnd
  have hmem : ∀ c, ((stacked mem physStart physEnd n).addPartialFrame c
      (alignedEnd physEnd)).memoryStart = physStart := fun c =>
    (memoryStart_addPartialFrame c _ _).trans (memoryStart_stackLarge n 0 none _)
  have hm := hmem (physStart + n * LargeFrameDescriptor.size)
  rcases addPartialFrame_spec mem physStart physEnd n (by omega) hroom
    with ⟨-, heq⟩ | ⟨hpart, hw⟩
  · obtain ⟨hcount, -, -, haddr, hctrl⟩ := stacked_extent mem physStart physEnd n
    rw [heq] at hm ⊢
    refine constructed_of_pages hmod hbase hm haddr ?_ ?_ ?_ ?_ (by omega) ?_
    all_goals rw [hcount]
    · exact hctrl
    · omega
    · exact fun i hi => subDescriptors_stacked hi
    · intro i hi
      unfold largePageSize pageSize LargeFrameDescriptor.size at *
      omega
    · unfold largePageSize LargeFrameDescriptor.size at hroom
      omega
  · have hfits := hpart.1
    have hthree := hpart.2
    unfold largePageSize LargeFrameDescriptor.size at hroom hfits
    unfold pageSize at hthree
    refine constructed_of_pages hmod hbase hm hw.mapAddress ?_ ?_ ?_ ?_ (by omega) ?_
    all_goals rw [hw.largeFrameCount]
    · exact hw.controlAreaSize
    · unfold largePageSize LargeFrameDescriptor.size
      omega
    · intro i hi
      rw [hw.map]
      split
      next hin =>
        -- the partial frame follows the whole ones
        subst hin
        rw [LargeFrameDescriptor.subDescriptors_splitLargeFrame]
        show alignedEnd physEnd = _
        unfold largePageSize
        omega
      next hin => exact subDescriptors_stacked (by omega)
    · intro i hi
      unfold largePageSize pageSize
      omega
    · omega

end Construct

namespace Machine

variable {m m' : Machine} {e : Layout} {es : List Layout} {used used' : List (Nat × Nat)}
  {mem : Nat → LargeFrameDescriptor} {space : FrameAllocationSpace} {start stop a limit : Nat}

/-! ## The records -/

/-- The records of the spaces, before anything is moved. -/
structure Chained (m : Machine) (xs : List Nat) : Prop where
  aligned : m.mainAllocator % pageSize = 0
  pos : 0 < m.mainAllocator
  bound : m.mainAllocator + pageSize ≤ lowerHalfEnd
  first : link 0 (m.allocators m.mainAllocator).firstSpace = xs.head?
  last : link 0 (m.allocators m.mainAllocator).lastSpace = xs.getLast?
  seg : Seg (fun a => link 0 (m.spaces a).next) (fun a => link 0 (m.spaces a).previous) none xs
    none
  nodup : xs.Nodup
  record : ∀ x ∈ xs, 0 < x ∧ x + spaceSize ≤ lowerHalfEnd

/-- Everything that the calls so far have made, out of the memory in `used`. -/
structure Made (m : Machine) (used : List (Nat × Nat)) (es : List Layout) : Prop where
  chained : m.Chained (es.map Layout.addr)
  apart : Apart es
  pending : ∀ e ∈ es, m.Pending e
  map : ∀ e ∈ es, (m.spaces e.addr).map = e.memoryStart
  aligned : ∀ e ∈ es, e.Aligned
  within : ∀ e ∈ es, ∃ r ∈ used, r.1 ≤ e.memoryStart ∧ e.Within e.memoryStart r.2
  count : ∀ e ∈ es, e.largeFrameCount ≤ 2 ^ 26
  /-- The records in the first page. -/
  near : ∀ (k : Nat) (e : Layout), es[k]? = some e → k < 33 →
    e.addr = m.mainAllocator + allocatorSize + k * spaceSize
  far : ∀ (k : Nat) (e : Layout), es[k]? = some e → 33 ≤ k →
    ¬(m.mainAllocator ≤ e.addr ∧ e.addr < m.mainAllocator + pageSize)
  record : ∀ e ∈ es, ∃ r ∈ used, r.1 ≤ e.addr ∧ e.addr + spaceSize ≤ r.2
  main : ∃ r ∈ used, r.1 ≤ m.mainAllocator ∧ m.mainAllocator + pageSize ≤ r.2
  low : ∀ r ∈ used, r.2 ≤ lowerHalfEnd
  current : (es.map Layout.addr).getLast? = some m.allocationSpace
  /-- The current record and its page. -/
  limit : m.allocationSpace + spaceSize ≤ m.tempSpaceLimit ∧
    m.tempSpaceLimit ≤ m.allocationSpace + pageSize
  page : ∃ r ∈ used, r.1 ≤ m.allocationSpace ∧ m.tempSpaceLimit ≤ r.2
  top : ∀ e ∈ es, m.tempSpaceLimit ≤ e.addr + pageSize → e.addr < m.tempSpaceLimit →
    e.addr ≤ m.allocationSpace
  first : es.length ≤ 33 → m.tempSpaceLimit = m.mainAllocator + pageSize
  later : 33 < es.length → m.tempSpaceLimit ≤ m.mainAllocator ∨
    m.mainAllocator + 2 * pageSize ≤ m.tempSpaceLimit

/-- The record that the constructor writes. -/
def recordOf (space : FrameAllocationSpace) : SpaceRecord :=
  { memoryStart := space.memoryStart
    controlAreaSize := space.controlAreaSize
    largeFrameCount := space.largeFrameCount
    map := space.mapAddress
    next := 0
    previous := 0 }

/-- A new space at the end of the chain. -/
def extended (a limit : Nat) (space : FrameAllocationSpace) (m : Machine) : Machine :=
  (Machine.place a space
    { m with allocationSpace := a, tempSpaceLimit := limit }).appendAllocationSpace a

theorem spaces_extended (limit : Nat) (space : FrameAllocationSpace) {last : Nat}
    (hlast : (m.allocators m.mainAllocator).lastSpace = last)
    (hne : a ≠ last) (b : Nat) :
    (m.extended a limit space).spaces b =
      if b = a then { recordOf space with previous := last }
      else if b = last then { m.spaces b with next := a }
      else m.spaces b := by
  subst hlast
  simp only [extended, place, appendAllocationSpace]
  rw [Function.update_apply]
  by_cases hb : b = a
  · subst hb
    rw [if_pos rfl, if_pos rfl, Function.update_of_ne hne, Function.update_self]
    rfl
  · rw [if_neg hb, if_neg hb, Function.update_apply]
    by_cases hl : b = (m.allocators m.mainAllocator).lastSpace
    · subst hl
      rw [if_pos rfl, if_pos rfl, Function.update_of_ne hb]
    · rw [if_neg hl, if_neg hl, Function.update_of_ne hb]

theorem subDescriptors_extended (d : Nat) :
    (m.extended a limit space).subDescriptors d =
      if space.mapAddress ≤ d ∧ (d - space.mapAddress) % LargeFrameDescriptor.size = 0 ∧
          (d - space.mapAddress) / LargeFrameDescriptor.size < space.largeFrameCount then
        (space.map ((d - space.mapAddress) / LargeFrameDescriptor.size)).subDescriptors
      else m.subDescriptors d := rfl

theorem allocators_extended :
    (m.extended a limit space).allocators m.mainAllocator =
      { m.allocators m.mainAllocator with lastSpace := a } := Function.update_self ..

/-- The pages of the descriptors are found through the placed map. -/
theorem sub_placed (hstart : space.memoryStart = space.mapAddress) {i : Nat}
    (hi : i < space.largeFrameCount) :
    (m.place a space).subDescriptors ((Layout.of a space).desc i) =
      (Layout.of a space).page i := by
  have hdesc : (Layout.of a space).desc i = space.mapAddress + i * LargeFrameDescriptor.size :=
    congrArg (· + i * LargeFrameDescriptor.size) hstart
  have hdiv : i * LargeFrameDescriptor.size / LargeFrameDescriptor.size = i :=
    Nat.mul_div_cancel i (by decide)
  show (if _ then _ else _) = _
  rw [hdesc, Nat.add_sub_cancel_left, hdiv,
    if_pos ⟨Nat.le_add_right .., Nat.mul_mod_left .., hi⟩]
  rfl

/-- The new space waits like the others. -/
theorem pending_extended (limit : Nat) {physStart : Nat} (hs : Constructed space physStart stop)
    {last : Nat} (hlast : (m.allocators m.mainAllocator).lastSpace = last) (hne : a ≠ last) :
    (m.extended a limit space).Pending (Layout.of a space) ∧
      ((m.extended a limit space).spaces a).map = space.memoryStart := by
  have hspace := spaces_extended limit space hlast hne a
  rw [if_pos rfl] at hspace
  have hstart : space.memoryStart = space.mapAddress :=
    (hs.within a).memoryStart.trans hs.mapAddress.symm
  refine ⟨?_, ?_⟩
  · constructor
    case memoryStart => exact congrArg SpaceRecord.memoryStart hspace
    case controlAreaSize =>
      exact (congrArg SpaceRecord.controlAreaSize hspace).trans hs.controlAreaSize
    case largeFrameCount => exact congrArg SpaceRecord.largeFrameCount hspace
    case sub =>
      intro i hi
      exact sub_placed hstart hi
  · rw [hspace, hstart]
    rfl

/-- The memory that the new space takes is apart from what was used before. -/
structure Fresh (used : List (Nat × Nat)) (start stop : Nat) : Prop where
  pos : 0 < start
  aligned : start % pageSize = 0
  start_low : start ≤ lowerHalfEnd
  stop_low : stop ≤ lowerHalfEnd
  apart : ∀ r ∈ used, stop ≤ r.1 ∨ r.2 ≤ start

/-- The address chosen for a new record. -/
structure Chosen (m : Machine) (used : List (Nat × Nat)) (es : List Layout) (a limit : Nat) :
    Prop where
  fresh : a ∉ es.map Layout.addr
  pos : 0 < a
  near : es.length < 33 → a = m.mainAllocator + allocatorSize + es.length * spaceSize
  far : 33 ≤ es.length → ¬(m.mainAllocator ≤ a ∧ a < m.mainAllocator + pageSize)
  record : ∃ r ∈ used, r.1 ≤ a ∧ limit ≤ r.2
  bounds : a + spaceSize ≤ limit ∧ limit ≤ a + pageSize
  top : ∀ e ∈ es, limit ≤ e.addr + pageSize → e.addr < limit → e.addr ≤ a
  first : es.length < 33 → limit = m.mainAllocator + pageSize
  later : 33 ≤ es.length → limit ≤ m.mainAllocator ∨ m.mainAllocator + 2 * pageSize ≤ limit

theorem chained_extended (space : FrameAllocationSpace) (h : m.Made used es) (hes : es ≠ [])
    (hc : m.Chosen used' es a limit) (hlow : a + spaceSize ≤ lowerHalfEnd) :
    (m.extended a limit space).Chained (es.map Layout.addr ++ [a]) := by
  have hcur := h.current
  obtain ⟨hlast, hlast0⟩ := link_eq_some.mp (h.chained.last.trans hcur)
  have hmem : m.allocationSpace ∈ es.map Layout.addr := List.mem_of_getLast? hcur
  have hne : a ≠ m.allocationSpace := fun heq => hc.fresh (heq ▸ hmem)
  have hspaces := spaces_extended limit space hlast hne
  have hold : ∀ x ∈ es.map Layout.addr, x ≠ a := fun x hx heq => hc.fresh (heq ▸ hx)
  have hnea : a ≠ 0 := Nat.ne_of_gt hc.pos
  constructor
  case aligned => exact h.chained.aligned
  case pos => exact h.chained.pos
  case bound => exact h.chained.bound
  case first =>
    show link 0 ((m.extended a limit space).allocators m.mainAllocator).firstSpace = _
    rw [allocators_extended]
    refine h.chained.first.trans ?_
    cases es with
    | nil => exact absurd rfl hes
    | cons e es => rfl
  case last =>
    show link 0 ((m.extended a limit space).allocators m.mainAllocator).lastSpace = _
    rw [allocators_extended, List.getLast?_append]
    exact link_of_ne hnea
  case seg =>
    refine seg_append.mpr ⟨?_, ?_⟩
    · refine seg_relink_last h.chained.seg h.chained.nodup ?_ ?_ ?_
      · intro x hx hxl
        have hxl' : x ≠ m.allocationSpace := fun heq => hxl (heq ▸ hcur)
        simp only [hspaces x, if_neg (hold x hx), if_neg hxl']
      · intro x hx
        obtain rfl : m.allocationSpace = x := Option.some.inj (hcur.symm.trans hx)
        simp only [hspaces, if_neg hne.symm, if_pos]
        exact link_of_ne hnea
      · intro x hx
        simp only [hspaces x, if_neg (hold x hx)]
        split <;> rfl
    · refine ⟨?_, ?_, trivial⟩
      · simp only [hspaces, if_pos]
        rw [hcur]
        exact link_of_ne (hlast ▸ hlast0)
      · simp only [hspaces, if_pos]
        rfl
  case nodup =>
    exact List.nodup_append.mpr ⟨h.chained.nodup, List.nodup_singleton a, fun x hx y hy => by
      rw [List.mem_singleton.mp hy]
      exact hold x hx⟩
  case record =>
    intro x hx
    rcases List.mem_append.mp hx with hx | hx
    · exact h.chained.record x hx
    · obtain rfl := List.mem_singleton.mp hx
      exact ⟨hc.pos, hlow⟩

/-- The lookup in a list with one more element. -/
theorem getElem?_concat_cases {x y : Layout} {k : Nat} (h : (es ++ [x])[k]? = some y) :
    es[k]? = some y ∨ k = es.length ∧ y = x := by
  rcases Nat.lt_trichotomy k es.length with hk | hk | hk
  · rw [List.getElem?_append_left hk] at h
    exact Or.inl h
  · subst hk
    rw [List.getElem?_concat_length] at h
    exact Or.inr ⟨rfl, (Option.some.inj h).symm⟩
  · rw [List.getElem?_eq_none (by simp; omega)] at h
    cases h

/-- One more space. -/
theorem Made.extended {physStart : Nat} (h : m.Made used es) (hes : es ≠ [])
    (hf : Fresh used start stop) (hs : Constructed space physStart stop)
    (hstart : start ≤ physStart)
    (hc : m.Chosen ((start, stop) :: used) es a limit) :
    (m.extended a limit space).Made ((start, stop) :: used) (es ++ [Layout.of a space]) := by
  have hlow : ∀ r ∈ (start, stop) :: used, r.2 ≤ lowerHalfEnd := by
    intro r hr
    rcases List.mem_cons.mp hr with rfl | hr
    · exact hf.stop_low
    · exact h.low r hr
  have halow : a + spaceSize ≤ lowerHalfEnd := by
    obtain ⟨r, hr, -, hle⟩ := hc.record
    exact Nat.le_trans hc.bounds.1 (Nat.le_trans hle (hlow r hr))
  have hchained := chained_extended space h hes hc halow
  have hcur := h.current
  obtain ⟨hlast, -⟩ := link_eq_some.mp (h.chained.last.trans hcur)
  have hmem : m.allocationSpace ∈ es.map Layout.addr := List.mem_of_getLast? hcur
  have hne : a ≠ m.allocationSpace := fun heq => hc.fresh (heq ▸ hmem)
  have hspaces := spaces_extended limit space hlast hne
  have hold : ∀ e ∈ es, e.addr ≠ a := fun e he heq =>
    hc.fresh (heq ▸ List.mem_map_of_mem he)
  obtain ⟨hpend, hmap⟩ := pending_extended (m := m) limit hs hlast hne
  have hwithin := hs.within a
  -- the old descriptors are not among the new ones
  have hout : ∀ e ∈ es, ∀ d, e.Holds d → ¬(Layout.of a space).Holds d := by
    rintro e he d ⟨hd1, hd2⟩ ⟨hd3, hd4⟩
    obtain ⟨r, hr, hr1, hr2⟩ := h.within e he
    have hctrl := hr2.control
    have hctrl' := hwithin.control
    rw [hwithin.memoryStart] at hd3 hd4
    have hapart := hf.apart r hr
    unfold Layout.controlSize LargeFrameDescriptor.size pageSize at *
    omega
  have hpend' : ∀ e ∈ es, (m.extended a limit space).Pending e := by
    intro e he
    have hp := h.pending e he
    have hfields := hspaces e.addr
    rw [if_neg (hold e he)] at hfields
    constructor
    case sub =>
      intro i hi
      rw [subDescriptors_extended, if_neg]
      · exact hp.sub i hi
      · rintro ⟨h1, h2, h3⟩
        refine hout e he _ (e.holds_desc hi) ⟨?_, ?_⟩
        · rw [hwithin.memoryStart, ← hs.mapAddress]
          exact h1
        · rw [hwithin.memoryStart, ← hs.mapAddress]
          show _ < _ + space.largeFrameCount * _
          unfold LargeFrameDescriptor.size at *
          omega
    all_goals
      rw [hfields]
      split
    · exact hp.memoryStart
    · exact hp.memoryStart
    · exact hp.controlAreaSize
    · exact hp.controlAreaSize
    · exact hp.largeFrameCount
    · exact hp.largeFrameCount
  have hcases : ∀ {p : Layout → Prop}, (∀ e ∈ es, p e) → p (Layout.of a space) →
      ∀ e ∈ es ++ [Layout.of a space], p e := by
    intro p h1 h2 e he
    rcases List.mem_append.mp he with he | he
    · exact h1 e he
    · rw [List.mem_singleton.mp he]
      exact h2
  constructor
  case chained =>
    rw [List.map_append]
    exact hchained
  case apart =>
    refine ⟨?_, List.pairwise_append.mpr ⟨h.apart.holds, List.pairwise_singleton .., ?_⟩⟩
    · rw [List.map_append]
      exact hchained.nodup
    · intro e he e' he'
      rw [List.mem_singleton.mp he']
      exact hout e he
  case pending => exact hcases hpend' hpend
  case map =>
    refine hcases (fun e he => ?_) hmap
    rw [hspaces, if_neg (hold e he)]
    split <;> exact h.map e he
  case aligned => exact hcases h.aligned (hs.aligned a)
  case within =>
    refine hcases (fun e he => ?_) ⟨(start, stop), List.mem_cons_self, ?_, ?_⟩
    · obtain ⟨r, hr, hw⟩ := h.within e he
      exact ⟨r, List.mem_cons_of_mem _ hr, hw⟩
    · rw [hwithin.memoryStart]
      exact hstart
    · exact hwithin.memoryStart.symm ▸ hwithin
  case count => exact hcases h.count hs.count
  case near =>
    intro k e hk hlt
    rcases getElem?_concat_cases hk with hk | ⟨rfl, rfl⟩
    · exact h.near k e hk hlt
    · exact hc.near hlt
  case far =>
    intro k e hk hle
    rcases getElem?_concat_cases hk with hk | ⟨rfl, rfl⟩
    · exact h.far k e hk hle
    · exact hc.far hle
  case record =>
    refine hcases (fun e he => ?_) ?_
    · obtain ⟨r, hr, hw⟩ := h.record e he
      exact ⟨r, List.mem_cons_of_mem _ hr, hw⟩
    · obtain ⟨r, hr, hle, hle'⟩ := hc.record
      exact ⟨r, hr, hle, Nat.le_trans hc.bounds.1 hle'⟩
  case main =>
    obtain ⟨r, hr, hw⟩ := h.main
    exact ⟨r, List.mem_cons_of_mem _ hr, hw⟩
  case low => exact hlow
  case current =>
    rw [List.map_append, List.getLast?_append]
    rfl
  case limit => exact hc.bounds
  case page => exact hc.record
  case top => exact hcases hc.top fun _ _ => Nat.le_refl _
  case first =>
    intro hlen
    rw [List.length_append] at hlen
    exact hc.first hlen
  case later =>
    intro hlen
    rw [List.length_append] at hlen
    exact hc.later (Nat.le_of_lt_succ hlen)

/-- The first space. -/
theorem made_first (hf : Fresh used start stop) (hlow : ∀ r ∈ used, r.2 ≤ lowerHalfEnd)
    (hs : Constructed space (start + pageSize) stop) :
    Made
      { Machine.place (start + allocatorSize) space
          { m with
            mainAllocator := start
            allocationSpace := start + allocatorSize
            tempSpaceLimit := start + pageSize } with
        allocators := Function.update m.allocators start
          { firstSpace := start + allocatorSize, lastSpace := start + allocatorSize } }
      ((start, stop) :: used) [Layout.of (start + allocatorSize) space] := by
  have hwithin := hs.within (start + allocatorSize)
  have hctrl := hwithin.control
  have hstop := hf.stop_low
  have hpage : start + pageSize ≤ stop := Nat.le_trans (Nat.le_add_right ..) hctrl
  have hstart : space.memoryStart = space.mapAddress :=
    hwithin.memoryStart.trans hs.mapAddress.symm
  have hne : start + allocatorSize ≠ 0 := by
    have := hf.pos
    omega
  have hone : ∀ {p : Layout → Prop}, p (Layout.of (start + allocatorSize) space) →
      ∀ e ∈ [Layout.of (start + allocatorSize) space], p e := by
    intro p h e he
    rw [List.mem_singleton.mp he]
    exact h
  have hrecord : start + allocatorSize + spaceSize ≤ start + pageSize := by
    unfold allocatorSize spaceSize pageSize
    omega
  have hspaces : ∀ f : Nat → SpaceRecord, Function.update f (start + allocatorSize)
      (recordOf space) (start + allocatorSize) = recordOf space := fun f => Function.update_self ..
  constructor
  case chained =>
    constructor
    case aligned => exact hf.aligned
    case pos => exact hf.pos
    case bound => exact Nat.le_trans hpage hstop
    case first =>
      show link 0 (Function.update m.allocators start _ start).firstSpace = _
      rw [Function.update_self]
      exact link_of_ne hne
    case last =>
      show link 0 (Function.update m.allocators start _ start).lastSpace = _
      rw [Function.update_self]
      exact link_of_ne hne
    case seg =>
      refine ⟨?_, ?_, trivial⟩
      · exact congrArg (fun s => link 0 s.previous) (hspaces m.spaces)
      · exact congrArg (fun s => link 0 s.next) (hspaces m.spaces)
    case nodup => exact List.nodup_singleton _
    case record =>
      intro x hx
      rw [List.mem_singleton.mp hx]
      exact ⟨Nat.pos_of_ne_zero hne, Nat.le_trans hrecord (Nat.le_trans hpage hstop)⟩
  case apart => exact ⟨List.nodup_singleton _, List.pairwise_singleton ..⟩
  case pending =>
    refine hone ?_
    constructor
    case memoryStart => exact congrArg SpaceRecord.memoryStart (hspaces m.spaces)
    case controlAreaSize =>
      exact (congrArg SpaceRecord.controlAreaSize (hspaces m.spaces)).trans hs.controlAreaSize
    case largeFrameCount => exact congrArg SpaceRecord.largeFrameCount (hspaces m.spaces)
    case sub =>
      intro i hi
      exact sub_placed hstart hi
  case map => exact hone ((congrArg SpaceRecord.map (hspaces m.spaces)).trans hstart.symm)
  case aligned => exact hone (hs.aligned _)
  case within =>
    refine hone ⟨(start, stop), List.mem_cons_self, ?_, hwithin.memoryStart.symm ▸ hwithin⟩
    rw [hwithin.memoryStart]
    exact Nat.le_add_right ..
  case count => exact hone hs.count
  case near =>
    intro k e hk hlt
    cases k with
    | zero =>
        obtain rfl := Option.some.inj hk
        rw [Nat.zero_mul]
        rfl
    | succ k => cases hk
  case far =>
    intro k e hk hle
    cases k with
    | zero => cases hle
    | succ k => cases hk
  case record =>
    exact hone ⟨(start, stop), List.mem_cons_self, Nat.le_add_right ..,
      Nat.le_trans hrecord hpage⟩
  case main => exact ⟨(start, stop), List.mem_cons_self, Nat.le_refl _, hpage⟩
  case low =>
    intro r hr
    rcases List.mem_cons.mp hr with rfl | hr
    · exact hstop
    · exact hlow r hr
  case current => rfl
  case limit => exact ⟨hrecord, by show start + pageSize ≤ start + allocatorSize + pageSize; omega⟩
  case page => exact ⟨(start, stop), List.mem_cons_self, Nat.le_add_right .., hpage⟩
  case top => exact hone fun _ _ => Nat.le_refl _
  case first => exact fun _ => rfl
  case later =>
    intro hlen
    cases hlen with
    | step h => cases h

/-- What lies in memory that was used before is outside of the new memory. -/
theorem Fresh.outside (hf : Fresh used start stop) {r : Nat × Nat} (hr : r ∈ used) {x size : Nat}
    (h1 : r.1 ≤ x) (h2 : x + size ≤ r.2) : x + size ≤ start ∨ stop ≤ x := by
  have := hf.apart r hr
  omega

/-- The position of the current record. -/
theorem Made.current_near (h : m.Made used es) (hlen : es.length ≤ 33) :
    m.allocationSpace + spaceSize = m.mainAllocator + allocatorSize + es.length * spaceSize ∧
      0 < es.length := by
  have hcur := h.current
  rw [List.getLast?_map, Option.map_eq_some_iff] at hcur
  obtain ⟨e, he, haddr⟩ := hcur
  rw [List.getLast?_eq_getElem?] at he
  have hpos : 0 < es.length := by
    cases es with
    | nil => cases he
    | cons e es => exact Nat.succ_pos _
  have := h.near _ e he (by omega)
  unfold spaceSize at *
  omega

/-- The next record of the same page. -/
theorem Made.chosen_next (h : m.Made used es)
    (hroom : m.allocationSpace + 2 * spaceSize ≤ m.tempSpaceLimit) :
    m.Chosen ((start, stop) :: used) es (m.allocationSpace + spaceSize) m.tempSpaceLimit := by
  obtain ⟨hl1, hl2⟩ := h.limit
  have htop := h.top
  have hfew : es.length ≤ 33 → es.length < 33 := by
    intro hlen
    obtain ⟨hcur, -⟩ := h.current_near hlen
    have := h.first hlen
    unfold spaceSize allocatorSize pageSize at *
    omega
  constructor
  case fresh =>
    intro hmem
    obtain ⟨e, he, haddr⟩ := List.mem_map.mp hmem
    have := h.top e he (by omega) (by unfold spaceSize at *; omega)
    unfold spaceSize at *
    omega
  case pos =>
    unfold spaceSize
    omega
  case near => exact fun hlen => (h.current_near (Nat.le_of_lt hlen)).1
  case far =>
    intro hlen hin
    have hgt : 33 < es.length := Nat.lt_of_not_le fun hle => Nat.not_lt_of_le hlen (hfew hle)
    have := h.later hgt
    unfold spaceSize at *
    omega
  case record =>
    obtain ⟨r, hr, h1, h2⟩ := h.page
    exact ⟨r, List.mem_cons_of_mem _ hr, Nat.le_trans h1 (Nat.le_add_right ..), h2⟩
  case bounds =>
    unfold spaceSize at *
    omega
  case top =>
    intro e he hpage hlt
    exact Nat.le_trans (h.top e he hpage hlt) (Nat.le_add_right ..)
  case first => exact fun hlen => h.first (Nat.le_of_lt hlen)
  case later =>
    intro hlen
    exact h.later (Nat.lt_of_not_le fun hle => Nat.not_lt_of_le hlen (hfew hle))

/-- The first record of a new page. -/
theorem Made.chosen_page (h : m.Made used es) (hf : Fresh used start stop)
    (hfull : m.tempSpaceLimit < m.allocationSpace + 2 * spaceSize)
    (hpage : start + pageSize ≤ stop) :
    m.Chosen ((start, stop) :: used) es start (start + pageSize) := by
  have hmany : 33 ≤ es.length := by
    refine Nat.le_of_not_lt fun hlen => ?_
    obtain ⟨hcur, hpos⟩ := h.current_near (Nat.le_of_lt hlen)
    have := h.first (Nat.le_of_lt hlen)
    unfold spaceSize allocatorSize pageSize at *
    omega
  have hmain : m.mainAllocator + pageSize ≤ start ∨ stop ≤ m.mainAllocator := by
    obtain ⟨r, hr, h1, h2⟩ := h.main
    exact hf.outside hr h1 h2
  have hout : ∀ e ∈ es, e.addr + spaceSize ≤ start ∨ stop ≤ e.addr := by
    intro e he
    obtain ⟨r, hr, h1, h2⟩ := h.record e he
    exact hf.outside hr h1 h2
  unfold pageSize at *
  unfold spaceSize at hout
  constructor
  case fresh =>
    intro hmem
    obtain ⟨e, he, haddr⟩ := List.mem_map.mp hmem
    have := hout e he
    omega
  case pos => exact hf.pos
  case near => exact fun hlen => absurd hlen (Nat.not_lt_of_le hmany)
  case far =>
    intro _ hin
    unfold pageSize at hin
    omega
  case record => exact ⟨(start, stop), List.mem_cons_self, Nat.le_refl _, hpage⟩
  case bounds =>
    unfold spaceSize pageSize
    omega
  case top =>
    intro e he h1 h2
    have := hout e he
    unfold pageSize at h1
    omega
  case first => exact fun hlen => absurd hlen (Nat.not_lt_of_le hmany)
  case later =>
    intro _
    unfold pageSize
    omega

/-! ## Runs -/

/-- Calls of `CreateAllocationSpace` on ranges of memory that are apart from each other.
The records of the spaces are listed as they are chained. -/
inductive Creates : List (Nat × Nat) → List Nat → Machine → Prop where
  | init {m : Machine} : m.mainAllocator = 0 → Creates [] [] m
  | call {used : List (Nat × Nat)} {spaces : List Nat} {m m' : Machine}
      {mem : Nat → LargeFrameDescriptor} {start stop : Nat} {res : HandleResult} :
      Creates used spaces m → Fresh used start stop →
      m.createAllocationSpace mem start stop = some (res, m') →
      Creates ((start, stop) :: used)
        (if res = .okay then spaces ++ [m'.allocationSpace] else spaces) m'

/-- What a call does. -/
theorem createAllocationSpace_cases {res : HandleResult}
    (h : m.createAllocationSpace mem start stop = some (res, m')) :
    res = .failed ∧ m' = m ∨ res = .okay ∧
      ((m.mainAllocator ≠ 0 ∧ m.tempSpaceLimit < m.allocationSpace + 2 * spaceSize ∧
          ∃ space, construct mem (start + pageSize) stop = some space ∧
            m' = m.extended start (start + pageSize) space) ∨
        (m.mainAllocator ≠ 0 ∧ m.allocationSpace + 2 * spaceSize ≤ m.tempSpaceLimit ∧
          ∃ space, construct mem start stop = some space ∧
            m' = m.extended (m.allocationSpace + spaceSize) m.tempSpaceLimit space) ∨
        (m.mainAllocator = 0 ∧
          ∃ space, construct mem (start + pageSize) stop = some space ∧
            m' = { Machine.place (start + allocatorSize) space
                { m with
                  mainAllocator := start
                  allocationSpace := start + allocatorSize
                  tempSpaceLimit := start + pageSize } with
              allocators := Function.update m.allocators start
                { firstSpace := start + allocatorSize
                  lastSpace := start + allocatorSize } })) := by
  unfold createAllocationSpace at h
  split at h
  next =>
    obtain ⟨rfl, rfl⟩ := Prod.mk.inj (Option.some.inj h)
    exact Or.inl ⟨rfl, rfl⟩
  next =>
    refine Or.inr ?_
    split at h
    next hmain =>
      split at h
      next hfull =>
        cases hcon : construct mem (start + pageSize) stop with
        | none =>
            rw [hcon] at h
            cases h
        | some space =>
            rw [hcon] at h
            obtain ⟨rfl, rfl⟩ := Prod.mk.inj (Option.some.inj h)
            exact ⟨rfl, Or.inl ⟨hmain, hfull, space, rfl, rfl⟩⟩
      next hroom =>
        cases hcon : construct mem start stop with
        | none =>
            rw [hcon] at h
            cases h
        | some space =>
            rw [hcon] at h
            obtain ⟨rfl, rfl⟩ := Prod.mk.inj (Option.some.inj h)
            exact ⟨rfl, Or.inr (Or.inl ⟨hmain, Nat.le_of_not_lt hroom, space, rfl, rfl⟩)⟩
    next hmain =>
      cases hcon : construct mem (start + pageSize) stop with
      | none =>
          rw [hcon] at h
          cases h
      | some space =>
          rw [hcon] at h
          obtain ⟨rfl, rfl⟩ := Prod.mk.inj (Option.some.inj h)
          exact ⟨rfl, Or.inr (Or.inr ⟨Decidable.of_not_not hmain, space, rfl, rfl⟩)⟩

/-- A range that was given to a call, but not used, does no harm. -/
theorem Made.weaken (h : m.Made used es) (hf : Fresh used start stop) :
    m.Made ((start, stop) :: used) es :=
  { h with
    within := fun e he => by
      obtain ⟨r, hr, hw⟩ := h.within e he
      exact ⟨r, List.mem_cons_of_mem _ hr, hw⟩
    record := fun e he => by
      obtain ⟨r, hr, hw⟩ := h.record e he
      exact ⟨r, List.mem_cons_of_mem _ hr, hw⟩
    main := by
      obtain ⟨r, hr, hw⟩ := h.main
      exact ⟨r, List.mem_cons_of_mem _ hr, hw⟩
    page := by
      obtain ⟨r, hr, hw⟩ := h.page
      exact ⟨r, List.mem_cons_of_mem _ hr, hw⟩
    low := fun r hr => by
      rcases List.mem_cons.mp hr with rfl | hr
      · exact hf.stop_low
      · exact h.low r hr }

/-- Nothing but whole pages of the new memory is used. -/
theorem Fresh.construct_page (hf : Fresh used start stop)
    (hcon : construct mem (start + pageSize) stop = some space) :
    Constructed space (start + pageSize) stop := by
  have hlow := hf.start_low
  have haligned := hf.aligned
  refine construct_layout ?_ (Nat.add_pos_left hf.pos _) ?_ hf.stop_low hcon
  · unfold pageSize at haligned ⊢
    omega
  · omega

theorem Fresh.construct (hf : Fresh used start stop)
    (hcon : construct mem start stop = some space) : Constructed space start stop :=
  construct_layout hf.aligned hf.pos (Nat.le_trans hf.start_low (Nat.le_add_right ..)) hf.stop_low
    hcon

theorem page_le_of_constructed (hs : Constructed space (start + pageSize) stop) :
    start + pageSize ≤ stop :=
  Nat.le_trans (Nat.le_add_right ..) (hs.within 0).control

/-- All calls together. -/
theorem Creates.made {spaces : List Nat} (h : Creates used spaces m) :
    (∀ r ∈ used, r.2 ≤ lowerHalfEnd) ∧
      (spaces = [] ∧ m.mainAllocator = 0 ∨
        ∃ es, es ≠ [] ∧ es.map Layout.addr = spaces ∧ m.Made used es) := by
  induction h with
  | init h => exact ⟨fun r hr => absurd hr List.not_mem_nil, Or.inl ⟨rfl, h⟩⟩
  | call _ hf hcall ih =>
      obtain ⟨hlow, ih⟩ := ih
      refine ⟨fun r hr => ?_, ?_⟩
      · rcases List.mem_cons.mp hr with rfl | hr
        · exact hf.stop_low
        · exact hlow r hr
      · rcases createAllocationSpace_cases hcall with ⟨rfl, rfl⟩ | ⟨rfl, hcases⟩
        · rcases ih with ih | ⟨es, hne, hes, hmade⟩
          · exact Or.inl ih
          · exact Or.inr ⟨es, hne, hes, hmade.weaken hf⟩
        rw [if_pos rfl]
        refine Or.inr ?_
        rcases hcases with ⟨hmain, hfull, space, hcon, rfl⟩ | ⟨hmain, hroom, space, hcon, rfl⟩ |
          ⟨hmain, space, hcon, rfl⟩
        · obtain ⟨es, hne, rfl, hmade⟩ := ih.resolve_left fun h => hmain h.2
          have hs := hf.construct_page hcon
          exact ⟨es ++ [Layout.of _ space], by simp, List.map_append,
            hmade.extended hne hf hs (Nat.le_add_right ..)
              (hmade.chosen_page hf hfull (page_le_of_constructed hs))⟩
        · obtain ⟨es, hne, rfl, hmade⟩ := ih.resolve_left fun h => hmain h.2
          exact ⟨es ++ [Layout.of _ space], by simp, List.map_append,
            hmade.extended hne hf (hf.construct hcon) (Nat.le_refl _) (hmade.chosen_next hroom)⟩
        · rcases ih with ⟨rfl, -⟩ | ⟨es, -, -, hmade⟩
          · exact ⟨[Layout.of _ space], by simp, rfl,
              made_first hf hlow (hf.construct_page hcon)⟩
          · exact absurd hmain (Nat.ne_of_gt hmade.chained.pos)

end Machine

end Beelzebub.Memory
