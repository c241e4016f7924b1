import Beelzebub.Memory.Unmapping

/-!
# Taking down reference counts

`AdjustReferenceCount` with `-1` takes one from the count of the frame around an address,
and frees the frame at zero.  Addresses outside the frames in use are refused.  So the
counts after a list of calls depend on how often each frame is named, not on the order.
-/

namespace Beelzebub.Memory

namespace FrameAllocationSpace

variable {space : FrameAllocationSpace} {addr addr' newCnt : Nat} {diff : Int}
  {ignoreRefCnt : Bool}

/-- A call depends on the frame it selects. -/
theorem mingle_congr (hin : space.allocationStart ≤ addr ∧ addr < space.allocationEnd)
    (hin' : space.allocationStart ≤ addr' ∧ addr' < space.allocationEnd)
    (hsel : space.select addr = space.select addr') :
    space.mingle addr newCnt diff ignoreRefCnt = space.mingle addr' newCnt diff ignoreRefCnt := by
  have hidx : space.largeIndex addr = space.largeIndex addr' := by
    rw [← index_select addr, hsel, index_select]
  have hsmall : (space.statusOf (space.largeIndex addr')).IsSplit →
      smallIndex addr = smallIndex addr' := fun hsplit =>
    smallIndex_of_select (hsel.trans (select_of_split rfl rfl hsplit))
  rw [FrameAllocationSpace.mingle, FrameAllocationSpace.mingle, if_neg (by omega),
    if_neg (by omega), hidx]
  simp only
  split
  next => rfl
  next => rfl
  next hst => rw [hsmall (Or.inl hst)]
  next hst => rw [hsmall (Or.inr hst)]
  next => rfl

/-- An adjustment that succeeds has selected a frame in use. -/
theorem Inv.inUse_of_mingle (hinv : space.Inv) (hdiff : diff ≠ 0)
    (hin : space.allocationStart ≤ addr ∧ addr < space.allocationEnd)
    (hokay : (space.mingle addr newCnt diff ignoreRefCnt).1 = .okay) :
    space.InUse (space.select addr) := by
  have hlt := (hinv.largeIndex_lt addr hin).2
  have hsmall : (space.statusOf (space.largeIndex addr)).IsSplit →
      (space.mingleSmall (space.largeIndex addr) (smallIndex addr) newCnt diff ignoreRefCnt).1 =
        .okay → space.InUse (.small (space.largeIndex addr) (smallIndex addr)) := by
    intro hsplit hokay
    have hbound : smallIndex addr ≤ LargeFrameDescriptor.subDescriptorsCount := by
      unfold smallIndex LargeFrameDescriptor.subDescriptorsCount largePageSize pageSize
      omega
    rw [FrameAllocationSpace.mingleSmall] at hokay
    split at hokay
    next => cases hokay
    next hzero =>
      simp only at hokay
      split at hokay
      next => cases hokay
      next hst => exact inUse_small.mpr ⟨⟨hlt, hsplit, by omega, hbound⟩, hst⟩
      next => cases hokay
      next => cases hokay
      next => cases hokay
  rw [FrameAllocationSpace.mingle, if_neg (by omega)] at hokay
  simp only at hokay
  split at hokay
  next => cases hokay
  next hst =>
    rw [select_of_used rfl hst]
    exact inUse_large.mpr ⟨hlt, hst⟩
  next hst =>
    rw [select_of_split rfl rfl (Or.inl hst)]
    exact hsmall (Or.inl hst) hokay
  next hst =>
    rw [select_of_split rfl rfl (Or.inr hst)]
    exact hsmall (Or.inr hst) hokay
  next => cases hokay

end FrameAllocationSpace

namespace Pmm

open FrameAllocationSpace

variable {pmm : Pmm} {f : Allocation} {addr cnt c : Nat} {diff : Int}

/-- Any address of a frame in use will do. -/
theorem Sound.adjust_contains (h : pmm.Sound) (hu : pmm.Uses f cnt) (hc : f.Contains addr)
    (hdiff : diff ≠ 0) :
    pmm.adjustReferenceCount addr diff = pmm.adjustReferenceCount f.address diff := by
  have hpos := (h.uses_bounds hu).1
  obtain ⟨space, hs, g, hg, rfl, -⟩ := hu
  have ha := h.addressable space hs
  have hr := ha.inRange hg
  have hcon : space.address g ≤ addr ∧ addr < space.address g + g.size.bytes := hc
  have hin : space.allocationStart ≤ addr ∧ addr < space.allocationEnd := by omega
  have hin' : space.allocationStart ≤ space.address g ∧ space.address g < space.allocationEnd := by
    have := g.size.bytes_pos
    omega
  have hsel : space.select addr = space.select (space.address g) := by
    rw [ha.select_eq hg hc, ha.select_eq hg (contains_self g)]
  have hmingle : ∀ l : List FrameAllocationSpace, (∀ x ∈ l, x ∈ pmm.spaces) →
      mingleIn addr diff false l = mingleIn (space.address g) diff false l := by
    intro l hl
    induction l with
    | nil => rfl
    | cons x l ih =>
        have hx : x.mingle addr 0 diff false = x.mingle (space.address g) 0 diff false := by
          by_cases hxr : x.allocationStart ≤ addr ∧ addr < x.allocationEnd
          · obtain rfl := h.eq_of_range (hl x (by simp)) hs hxr hin
            exact mingle_congr hin hin' hsel
          · by_cases hxr' : x.allocationStart ≤ space.address g ∧ space.address g < x.allocationEnd
            · obtain rfl := h.eq_of_range (hl x (by simp)) hs hxr' hin'
              exact absurd hin hxr
            · rw [FrameAllocationSpace.mingle, FrameAllocationSpace.mingle, if_pos (by omega),
                if_pos (by omega)]
        rw [mingleIn, mingleIn, hx, ih fun y hy => hl y (by simp [hy])]
  show pmm.adjustReferenceCount addr diff = pmm.adjustReferenceCount (space.address g) diff
  have hpos' : 0 < space.address g := hpos
  rw [Pmm.adjustReferenceCount, Pmm.adjustReferenceCount, if_neg (by omega), if_neg (by omega),
    hmingle pmm.spaces fun x hx => hx]

/-- An adjustment is refused, or is about a frame in use. -/
theorem Sound.adjust_cases (h : pmm.Sound) (addr : Nat) (diff : Int) :
    (pmm.adjustReferenceCount addr diff).2 = pmm ∨
      ∃ f cnt, pmm.Uses f cnt ∧ f.Contains addr ∧ diff ≠ 0 := by
  by_cases hokay : (pmm.adjustReferenceCount addr diff).1 = .okay
  · unfold Pmm.adjustReferenceCount at hokay
    split at hokay
    next => cases hokay
    next hargs =>
      have hdiff : diff ≠ 0 := fun hzero => hargs (Or.inr hzero)
      rcases mingleIn_cases addr diff false pmm.spaces with
        ⟨-, hsame⟩ | ⟨l₁, space, l₂, hl, hr, hstep⟩
      · rw [hsame] at hokay
        cases hokay
      · rw [hstep] at hokay
        have hs : space ∈ pmm.spaces := by simp [hl]
        have ha := h.addressable space hs
        have hused := ha.inv.inUse_of_mingle hdiff hr hokay
        exact Or.inr ⟨space.allocation (space.select addr), _, ⟨space, hs, _, hused, rfl, rfl⟩,
          ha.contains_select hr, hdiff⟩
  · exact Or.inl (adjustReferenceCount_refused hokay)

/-- A count that is taken down by one.  `none` is the count of a frame that is free. -/
def lowered (cnt : Nat) : Option Nat :=
  if adjusted cnt (-1) = 0 then none else some (adjusted cnt (-1))

theorem Sound.adjust_sound (h : pmm.Sound) (addr : Nat) (diff : Int) :
    (pmm.adjustReferenceCount addr diff).2.Sound := by
  rcases h.adjust_cases addr diff with hsame | ⟨f, cnt, hu, hc, hdiff⟩
  · rw [hsame]
    exact h
  · rw [h.adjust_contains hu hc hdiff]
    exact (h.adjustReferenceCount hu hdiff).2.1

/-- What one call does to the frames in use. -/
theorem Sound.uses_lower (h : pmm.Sound) (addr : Nat) :
    (pmm.adjustReferenceCount addr (-1)).2.Uses f c ↔
      ∃ cnt, pmm.Uses f cnt ∧ (if f.Contains addr then lowered cnt else some cnt) = some c := by
  have hone : (-1 : Int) ≠ 0 := by decide
  rcases h.adjust_cases addr (-1) with hsame | ⟨g, cnt, hu, hc, -⟩
  · -- nothing around the address is in use
    have hnot : ∀ {cnt}, pmm.Uses f cnt → ¬f.Contains addr := by
      intro cnt hu hc
      obtain ⟨hokay, hsound, hdrops, hcounts⟩ := h.adjustReferenceCount hu hone
      rw [← h.adjust_contains hu hc hone, hsame] at hdrops hcounts
      by_cases hzero : adjusted cnt (-1) = 0
      · exact (((hdrops hzero).uses f cnt).mp hu).2 rfl
      · have := ((hcounts hzero).uses f cnt).mp hu
        rw [if_pos rfl] at this
        unfold adjusted at this
        omega
    rw [hsame]
    constructor
    · intro hu
      exact ⟨c, hu, by rw [if_neg (hnot hu)]⟩
    · rintro ⟨cnt, hu, heq⟩
      rw [if_neg (hnot hu)] at heq
      cases heq
      exact hu
  · obtain ⟨-, -, hdrops, hcounts⟩ := h.adjustReferenceCount hu hone
    rw [← h.adjust_contains hu hc hone] at hdrops hcounts
    by_cases hf : f = g
    · subst hf
      have hcnt : ∀ {cnt'}, pmm.Uses f cnt' → cnt' = cnt := fun hu' =>
        (h.uses_unique hu' hu hc hc).2
      by_cases hzero : adjusted cnt (-1) = 0
      · rw [(hdrops hzero).uses]
        refine iff_of_false (fun hu' => hu'.2 rfl) ?_
        rintro ⟨cnt', hu', heq⟩
        rw [hcnt hu', if_pos hc, lowered, if_pos hzero] at heq
        cases heq
      · rw [(hcounts hzero).uses, if_pos rfl]
        constructor
        · rintro rfl
          exact ⟨cnt, hu, by rw [if_pos hc, lowered, if_neg hzero]⟩
        · rintro ⟨cnt', hu', heq⟩
          rw [hcnt hu', if_pos hc, lowered, if_neg hzero] at heq
          exact (Option.some.inj heq).symm
    · have hother : (pmm.adjustReferenceCount addr (-1)).2.Uses f c ↔ pmm.Uses f c := by
        by_cases hzero : adjusted cnt (-1) = 0
        · rw [(hdrops hzero).uses, and_iff_left hf]
        · rw [(hcounts hzero).uses, if_neg hf]
      have hnot : ∀ {cnt'}, pmm.Uses f cnt' → ¬f.Contains addr := fun hu' hc' =>
        hf (h.uses_unique hu' hu hc' hc).1
      rw [hother]
      constructor
      · intro hu'
        exact ⟨c, hu', by rw [if_neg (hnot hu')]⟩
      · rintro ⟨cnt', hu', heq⟩
        rw [if_neg (hnot hu')] at heq
        cases heq
        exact hu'

/-- A count that is taken down a number of times. -/
def loweredBy : Nat → Nat → Option Nat
  | 0, cnt => some cnt
  | n + 1, cnt => (lowered cnt).bind (loweredBy n)

end Pmm

namespace Tables

open Pmm

variable {pmm : Pmm} {f : Allocation} {c : Nat} {frames frames' : List Nat}

theorem sound_release (h : pmm.Sound) (frames : List Nat) : (release frames pmm).Sound := by
  induction frames generalizing pmm with
  | nil => exact h
  | cons addr frames ih => exact ih (h.adjust_sound addr (-1))

/-- Every frame is taken down as often as it is named. -/
theorem uses_release (h : pmm.Sound) (frames : List Nat) :
    (release frames pmm).Uses f c ↔
      ∃ cnt, pmm.Uses f cnt ∧ loweredBy (frames.countP fun addr => f.Contains addr) cnt =
        some c := by
  induction frames generalizing pmm with
  | nil =>
      simp only [List.countP_nil, loweredBy, Option.some.injEq]
      show pmm.Uses f c ↔ _
      simp
  | cons addr frames ih =>
      show (release frames (pmm.adjustReferenceCount addr (-1)).2).Uses f c ↔ _
      rw [ih (h.adjust_sound addr (-1))]
      simp only [h.uses_lower addr, List.countP_cons, decide_eq_true_eq]
      by_cases hc : f.Contains addr
      · simp only [if_pos hc, loweredBy]
        constructor
        · rintro ⟨cnt', ⟨cnt, hu, hlow⟩, heq⟩
          exact ⟨cnt, hu, by rw [hlow]; exact heq⟩
        · rintro ⟨cnt, hu, heq⟩
          obtain ⟨cnt', hlow, heq⟩ := Option.bind_eq_some_iff.mp heq
          exact ⟨cnt', ⟨cnt, hu, hlow⟩, heq⟩
      · simp only [if_neg hc, Nat.add_zero]
        constructor
        · rintro ⟨cnt', ⟨cnt, hu, hsame⟩, heq⟩
          cases hsame
          exact ⟨_, hu, heq⟩
        · rintro ⟨cnt, hu, heq⟩
          exact ⟨cnt, ⟨cnt, hu, rfl⟩, heq⟩

/-- The order of the calls does not matter. -/
theorem uses_release_perm (h : pmm.Sound) (hperm : frames.Perm frames') :
    (release frames pmm).Uses f c ↔ (release frames' pmm).Uses f c := by
  rw [uses_release h, uses_release h, hperm.countP_eq]

end Tables

end Beelzebub.Memory
