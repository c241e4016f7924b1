import Beelzebub.Memory.VasRuns

/-!
# The page map of an address space

What an address space is for: it says which attributes each page has.  An
allocation fills a stretch of free pages with the requested attributes, a release
turns a stretch into free pages, whatever the passes do to the descriptors.
-/

namespace Beelzebub.Memory

open Utils Tiling
open MemoryAllocationOptions (permanent guardLow guardHigh guardFull)

/-- From addresses to the attributes of the page around them. -/
abbrev PageMap := Nat → Option PageAttributes

/-- The attributes of free pages. -/
def PageAttributes.free : PageAttributes := ⟨MemoryFlags.none, .free, MemoryAllocationOptions.none⟩

/-- A page map with the stretch `[p, q)` given new attributes. -/
def PageMap.fill (p q : Nat) (c : PageAttributes) (m : PageMap) : PageMap :=
  fun x => if p ≤ x ∧ x < q then some c else m x

theorem PageMap.fill_fill {p n q : Nat} (c : PageAttributes) (m : PageMap) (h1 : p ≤ n)
    (h2 : n ≤ q) : (m.fill p n c).fill n q c = m.fill p q c := by
  funext x
  unfold PageMap.fill
  split_ifs <;> first | rfl | omega

theorem PageMap.fill_eq_self {p q : Nat} {c : PageAttributes} {m : PageMap}
    (h : ∀ x, p ≤ x ∧ x < q → m x = some c) : m.fill p q c = m := by
  funext x
  unfold PageMap.fill
  split
  next hx => exact (h x hx).symm
  next => rfl

theorem PageMap.fill_of_not {p q x : Nat} {c : PageAttributes} (m : PageMap)
    (h : ¬(p ≤ x ∧ x < q)) : m.fill p q c x = m x := if_neg h

/-- The page map of an address space. -/
def Vas.pageMap (vas : Vas) : PageMap := Memory.pageMap vas.regions

/-! ## Pages and regions -/

section Regions

variable {lo hi x : Nat} {L : List Region} {r : Region}

/-- A page has the attributes of the region around it. -/
theorem pageMap_of_mem (hL : Tiles Region.start Region.stop lo L hi) (hr : r ∈ L)
    (hx : r.start ≤ x ∧ x < r.stop) : pageMap L x = some r.attributes := by
  obtain ⟨A, B, rfl⟩ := List.append_of_mem hr
  exact hL.paint_eq hx

theorem attributes_of_free (hb : r.Blank) (hf : r.content = .free) :
    r.attributes = PageAttributes.free := by
  obtain ⟨h1, h2⟩ := hb hf
  simp only [Region.attributes, PageAttributes.free, h1, h2, hf, withoutGuards_none]

theorem has_guard_of_free {t : MemoryAllocationOptions} (hb : r.Blank) (hf : r.content = .free) :
    has r.type t = false := by
  rw [has_eq_false_iff, (hb hf).2]
  exact BitVec.zero_and

end Regions

/-! ## What one pass leaves alone -/

section Step

variable {op : Operation} {v e lo hi x : Nat} {r : Region} {L L' : List Region}

theorem changedFrom_bounds (h : op.Hits v e r) :
    r.start ≤ op.changedFrom v r ∧ op.changedFrom v r ≤ v := by
  have := h.lower
  unfold Operation.changedFrom
  split <;> omega

theorem changedTo_le (h : op.Hits v e r) : op.changedTo e r ≤ r.stop := by
  unfold Operation.changedTo
  split
  next => omega
  next hr => exact Nat.le_of_lt (h.lt_stop hr)

/-- A pass changes no permanent page. -/
theorem RegionStep.pageMap_permanent (h : RegionStep op v e r L L') (hve : v < e)
    (hL : RegionInv lo hi L) {c : PageAttributes} (hx : pageMap L x = some c)
    (hc : has c.type permanent = true) : pageMap L' x = some c := by
  rw [h.pageMap_eq hve hL]
  split
  next hch =>
    have h1 := changedFrom_bounds h.hits
    have h2 := changedTo_le h.hits
    rw [pageMap_of_mem hL.tiles h.mem ⟨by omega, by omega⟩] at hx
    cases hx
    have hmov := h.hits.movable
    rw [Region.attributes, has_permanent_withoutGuards, hmov] at hc
    cases hc
  next => exact hx

/-- Behind the region of a release, only free regions are touched. -/
theorem RegionStep.mem_above_iff (h : RegionStep .free v e r L L') (hr : r.stop ≤ e)
    (hL : Tiles Region.start Region.stop lo L hi) {s : Region} (hs : s.content ≠ .free)
    (habove : r.stop ≤ s.start) : s ∈ L' ↔ s ∈ L := by
  have hlow := h.hits.lower
  have hupp := h.hits.upper
  have hmr : Operation.MeetsRight .free e r := Or.inl hr
  have hsr : s ≠ r := by
    rintro rfl
    have := hL.bounds h.mem
    omega
  cases h with
  | @mergeBoth A B a b _ hl _ ha hb =>
      have hsa : s ≠ a := fun h => hs (h ▸ ha)
      have hsb : s ≠ b := fun h => hs (h ▸ hb)
      have hsa' : s ≠ a.setStop b.stop := fun h => hs (h ▸ ha)
      simp [hsa, hsb, hsr, hsa']
  | @mergeLeft A B a _ hl _ ha hb =>
      have hsa : s ≠ a := fun h => hs (h ▸ ha)
      have hsa' : s ≠ a.setStop r.stop := fun h => hs (h ▸ ha)
      simp [hsa, hsr, hsa']
  | @mergeRight A B b _ hl _ ha hb =>
      have hsb : s ≠ b := fun h => hs (h ▸ hb)
      have hsb' : s ≠ b.setStart r.start := fun h => hs (h ▸ hb)
      simp [hsb, hsr, hsb']
  | repurpose _ hl _ ha hb =>
      have hs' : s ≠ Operation.free.repurpose r := fun h => hs (h ▸ rfl)
      simp [hsr, hs']
  | startMerge _ _ hnr _ => exact absurd hmr hnr
  | startSpawn _ _ hnr _ => exact absurd hmr hnr
  | @endMerge A B b _ hl _ hb =>
      have hsb : s ≠ b := fun h => hs (h ▸ hb)
      have hsb' : s ≠ b.setStart v := fun h => hs (h ▸ hb)
      have hsr' : s ≠ (r.setStop v).clear guardHigh := by
        rintro rfl
        simp only [Region.start_clear, Region.start_setStop] at habove
        omega
      simp [hsb, hsr, hsb', hsr']
  | @endSpawn A B _ hl _ hb =>
      have hs' : s ≠ Operation.free.spawned v r.stop := fun h => hs (h ▸ rfl)
      have hsr' : s ≠ (r.setStop v).clear guardHigh := by
        rintro rfl
        simp only [Region.start_clear, Region.start_setStop] at habove
        omega
      simp [hsr, hs', hsr']
  | middle _ _ hnr => exact absurd hmr hnr

end Step

/-! ## The stretch of a release -/

/-- The low guard page of a region lies right below `v`, where the region goes on. -/
def LowGuardAbuts (L : List Region) (v : Nat) : Prop :=
  ∃ r ∈ L, has r.type guardLow = true ∧ r.start + pageSize = v ∧ v < r.stop

/-- The high guard page of a region begins at `e`, up to where the region goes. -/
def HighGuardAbuts (L : List Region) (e : Nat) : Prop :=
  ∃ r ∈ L, has r.type guardHigh = true ∧ r.stop = e + pageSize ∧ r.start < e

instance (L : List Region) (v : Nat) : Decidable (LowGuardAbuts L v) :=
  inferInstanceAs (Decidable (∃ r ∈ L, _))

instance (L : List Region) (e : Nat) : Decidable (HighGuardAbuts L e) :=
  inferInstanceAs (Decidable (∃ r ∈ L, _))

/-- Where the pages that a release turns to free begin. -/
def freeFrom (L : List Region) (v : Nat) : Nat := if LowGuardAbuts L v then v - pageSize else v

/-- Where the pages that a release turns to free end. -/
def freeTo (L : List Region) (e : Nat) : Nat := if HighGuardAbuts L e then e + pageSize else e

section Stretch

variable {v e lo hi : Nat} {r : Region} {L L' : List Region}

theorem freeFrom_eq (hL : RegionInv lo hi L) (hr : r ∈ L) (hv : r.start ≤ v ∧ v < r.stop) :
    freeFrom L v = Operation.free.changedFrom v r := by
  have hiff : LowGuardAbuts L v ↔ has r.type guardLow = true ∧ r.start + pageSize = v := by
    constructor
    · rintro ⟨s, hs, hg, hst, hlt⟩
      obtain rfl := hL.tiles.eq_of_mem hr hs hv ⟨by omega, hlt⟩
      exact ⟨hg, hst⟩
    · rintro ⟨hg, hst⟩
      exact ⟨r, hr, hg, hst, hv.2⟩
  unfold freeFrom Operation.changedFrom
  by_cases hl : Operation.free.MeetsLeft v r
  · rw [if_pos hl]
    rcases hl with hl | hl
    · rw [if_neg fun h => by have := hiff.mp h; unfold pageSize at this; omega, hl]
    · rw [if_pos (hiff.mpr hl)]
      omega
  · rw [if_neg hl, if_neg fun h => hl (Or.inr (hiff.mp h))]

theorem freeFrom_of_free (hL : RegionInv lo hi L) (hr : r ∈ L) (hv : r.start ≤ v ∧ v < r.stop)
    (hf : r.content = .free) : freeFrom L v = v := by
  refine if_neg ?_
  rintro ⟨s, hs, hg, hst, hlt⟩
  obtain rfl := hL.tiles.eq_of_mem hr hs hv ⟨by omega, hlt⟩
  rw [has_guard_of_free (hL.blank _ hr) hf] at hg
  cases hg

theorem freeTo_eq (hL : RegionInv lo hi L) (hr : r ∈ L) (he : r.start < e ∧ e ≤ r.stop) :
    freeTo L e = Operation.free.changedTo e r := by
  have hiff : HighGuardAbuts L e ↔ has r.type guardHigh = true ∧ r.stop = e + pageSize := by
    constructor
    · rintro ⟨s, hs, hg, hst, hlt⟩
      obtain rfl := hL.tiles.eq_of_mem (x := e - 1) hr hs (by omega) (by omega)
      exact ⟨hg, hst⟩
    · rintro ⟨hg, hst⟩
      exact ⟨r, hr, hg, hst, he.1⟩
  unfold freeTo Operation.changedTo
  by_cases hr' : Operation.free.MeetsRight e r
  · rw [if_pos hr']
    rcases hr' with hr' | hr'
    · rw [if_neg fun h => by have := hiff.mp h; unfold pageSize at this; omega]
      omega
    · rw [if_pos (hiff.mpr hr')]
      omega
  · rw [if_neg hr', if_neg fun h => hr' (Or.inr (hiff.mp h))]

theorem freeTo_of_free (hL : RegionInv lo hi L) (hr : r ∈ L) (he : r.start < e ∧ e ≤ r.stop)
    (hf : r.content = .free) : freeTo L e = e := by
  refine if_neg ?_
  rintro ⟨s, hs, hg, hst, hlt⟩
  obtain rfl := hL.tiles.eq_of_mem (x := e - 1) hr hs (by omega) (by omega)
  rw [has_guard_of_free (hL.blank _ hr) hf] at hg
  cases hg

theorem freeFrom_stop_of_mem (hL : RegionInv lo hi L) (hr : r ∈ L) :
    freeFrom L r.stop = r.stop := by
  refine if_neg ?_
  rintro ⟨s, hs, hg, hst, hlt⟩
  have hb := hL.tiles.bounds hr
  unfold pageSize at hst
  have := hL.tiles.eq_of_mem (x := r.stop - 1) hr hs (by omega) (by omega)
  subst this
  omega

theorem le_freeTo (L : List Region) (e : Nat) : e ≤ freeTo L e := by
  unfold freeTo
  split <;> omega

/-- The pages of the region up to its end are free after a release that goes
beyond it. -/
theorem RegionStep.pageMap_below_stop (h : RegionStep .free v e r L L') (hr : r.stop < e)
    (hL : RegionInv lo hi L) {x : Nat} (hx : v ≤ x ∧ x < r.stop) :
    pageMap L' x = some PageAttributes.free := by
  have hlow := changedFrom_bounds h.hits
  have hto : Operation.free.changedTo e r = r.stop := if_pos (Or.inl (Nat.le_of_lt hr))
  rw [h.pageMap_eq (by omega) hL, if_pos ⟨by omega, by omega⟩]
  rfl

/-- A used region that reaches beyond the released one begins at its end. -/
theorem RegionStep.stop_le_start (h : RegionStep .free v e r L L') (hr : r.stop < e)
    (hL : RegionInv lo hi L) {s : Region} (hs : s ∈ L') (hne : s.content ≠ .free)
    (hstop : r.stop < s.stop) : r.stop ≤ s.start := by
  have hupp := h.hits.upper
  have hL' := h.inv (by omega) (fun h => by cases h) hL
  by_contra hlt
  have h1 := h.pageMap_below_stop hr hL (x := r.stop - 1) (by omega)
  rw [pageMap_of_mem hL'.tiles hs ⟨by omega, by omega⟩] at h1
  exact hne (congrArg PageAttributes.content (Option.some.inj h1))

/-- A pass that goes on does not change where the stretch ends. -/
theorem RegionStep.freeTo_eq (h : RegionStep .free v e r L L') (hr : r.stop < e)
    (hL : RegionInv lo hi L) : freeTo L' e = freeTo L e := by
  have hve : v < e := by
    have := h.hits.upper
    omega
  have hL' := h.inv hve (fun h => by cases h) hL
  have hiff : HighGuardAbuts L' e ↔ HighGuardAbuts L e := by
    constructor
    · rintro ⟨s, hs, hg, hst, hlt⟩
      have hne : s.content ≠ .free := by
        intro hf
        rw [has_guard_of_free (hL'.blank s hs) hf] at hg
        cases hg
      have habove := h.stop_le_start hr hL hs hne (by omega)
      exact ⟨s, (h.mem_above_iff (by omega) hL.tiles hne habove).mp hs, hg, hst, hlt⟩
    · rintro ⟨s, hs, hg, hst, hlt⟩
      have hne : s.content ≠ .free := by
        intro hf
        rw [has_guard_of_free (hL.blank s hs) hf] at hg
        cases hg
      have habove : r.stop ≤ s.start := by
        have hb := hL.tiles.bounds h.mem
        by_contra hlt'
        have := hL.tiles.eq_of_mem (x := r.stop - 1) h.mem hs (by omega) (by omega)
        subst this
        omega
      exact ⟨s, (h.mem_above_iff (by omega) hL.tiles hne habove).mpr hs, hg, hst, hlt⟩
  unfold freeTo
  simp only [hiff]

/-- The next pass begins with the region it finds. -/
theorem RegionStep.freeFrom_stop (h : RegionStep .free v e r L L') (hr : r.stop < e)
    (hL : RegionInv lo hi L) : freeFrom L' r.stop = r.stop := by
  have hL' := h.inv (by have := h.hits.upper; omega) (fun h => by cases h) hL
  refine if_neg ?_
  rintro ⟨s, hs, hg, hst, hlt⟩
  have hne : s.content ≠ .free := by
    intro hf
    rw [has_guard_of_free (hL'.blank s hs) hf] at hg
    cases hg
  have := h.stop_le_start hr hL hs hne hlt
  unfold pageSize at hst
  omega

end Stretch

/-! ## Runs -/

namespace Vas

section Runs

variable {alloc : NodeAllocator} {op : Operation} {sparse tolerant : Bool} {v e lo hi x : Nat}
  {vas vas' : Vas} {p : Ptr} {res : HandleResult}

@[simp] theorem pageMap_forget (vas : Vas) (p : Ptr) : (vas.forget p).pageMap = vas.pageMap := by
  rw [pageMap, pageMap, regions_forget]

theorem Around.mem_regions (h : vas.Around v p) : vas.region p ∈ vas.regions :=
  List.mem_map_of_mem h.mem

/-- The step of a pass, without the reset of the cache before it. -/
theorem Passed.step_of_forget (h : Passed op v e p (vas.forget p) vas') :
    RegionStep op v e (vas.region p) vas.regions vas'.regions := by
  have := h.step
  rwa [region_forget, regions_forget] at this

/-- No run changes a permanent page. -/
theorem Executes.pageMap_permanent (h : Executes alloc op sparse tolerant e v vas res vas')
    (hs : alloc.Succeeds) (hve : v < e) (hc : op.isAllocation = true → op.newContent ≠ .free)
    (hinv : vas.Inv lo hi) {c : PageAttributes} (hx : vas.pageMap x = some c)
    (hperm : has c.type MemoryAllocationOptions.permanent = true) : vas'.pageMap x = some c := by
  induction h with
  | outOfRange => exact hx
  | beyond => rwa [pageMap_forget]
  | refused => rwa [pageMap_forget]
  | permanent => rwa [pageMap_forget]
  | noNode _ _ _ hn => exact absurd (.of_succeeds hs _ _ _ _ _) hn
  | last _ _ hp =>
      cases hp with
      | tolerated => rwa [pageMap_forget]
      | accepted _ hp => exact hp.step_of_forget.pageMap_permanent hve hinv.regions hx hperm
  | more _ hstop _ hp _ ih =>
      refine ih hstop (hp.inv hve hc hinv) ?_
      cases hp with
      | tolerated => rwa [pageMap_forget]
      | accepted _ hp => exact hp.step_of_forget.pageMap_permanent hve hinv.regions hx hperm

/-- The pages of a tolerated region are free already. -/
theorem pageMap_fill_of_free (hinv : vas.Inv lo hi) (hp : vas.Around v p)
    (hf : (vas.region p).content = .free) {q : Nat} (hq : q ≤ (vas.region p).stop) :
    vas.pageMap.fill v q .free = vas.pageMap := by
  have hlow := hp.lower
  refine PageMap.fill_eq_self fun x hx => ?_
  rw [pageMap, pageMap_of_mem hinv.regions.tiles hp.mem_regions ⟨by omega, by omega⟩,
    attributes_of_free (hinv.regions.blank _ hp.mem_regions) hf]

/-- What a pass of a release does to the page map when it goes on. -/
theorem Passes.pageMap_more (h : Passes alloc .free tolerant v e p vas vas') (hinv : vas.Inv lo hi)
    (hp : vas.Around v p) (hstop : (vas.region p).stop < e) :
    vas'.pageMap = vas.pageMap.fill (freeFrom vas.regions v) (vas.region p).stop .free ∧
      freeFrom vas'.regions (vas.region p).stop = (vas.region p).stop ∧
      freeTo vas'.regions e = freeTo vas.regions e := by
  have hmem := hp.mem_regions
  have hupp := hp.upper
  cases h with
  | tolerated hacc htol =>
      have hf : (vas.region p).content = .free := not_not.mp hacc
      rw [pageMap_forget, regions_forget, freeFrom_of_free hinv.regions hmem ⟨hp.lower, hupp⟩ hf]
      exact ⟨(pageMap_fill_of_free hinv hp hf (Nat.le_refl _)).symm,
        freeFrom_stop_of_mem hinv.regions hmem, rfl⟩
  | accepted _ hpass =>
      have hstep := hpass.step_of_forget
      refine ⟨?_, hstep.freeFrom_stop hstop hinv.regions, hstep.freeTo_eq hstop hinv.regions⟩
      rw [freeFrom_eq hinv.regions hmem ⟨hp.lower, hupp⟩]
      funext x
      have hto : Operation.free.changedTo e (vas.region p) = (vas.region p).stop :=
        if_pos (Or.inl (Nat.le_of_lt hstop))
      rw [pageMap, hstep.pageMap_eq (by omega) hinv.regions x, hto]
      rfl

/-- What the last pass of a release does to the page map. -/
theorem Passes.pageMap_last (h : Passes alloc .free tolerant v e p vas vas') (hinv : vas.Inv lo hi)
    (hp : vas.Around v p) (hve : v < e) (hstop : e ≤ (vas.region p).stop) :
    vas'.pageMap = vas.pageMap.fill (freeFrom vas.regions v) (freeTo vas.regions e) .free := by
  have hmem := hp.mem_regions
  have hlow := hp.lower
  cases h with
  | tolerated hacc htol =>
      have hf : (vas.region p).content = .free := not_not.mp hacc
      rw [pageMap_forget, freeFrom_of_free hinv.regions hmem ⟨hlow, hp.upper⟩ hf,
        freeTo_of_free hinv.regions hmem ⟨by omega, hstop⟩ hf,
        pageMap_fill_of_free hinv hp hf hstop]
  | accepted _ hpass =>
      rw [freeFrom_eq hinv.regions hmem ⟨hlow, hp.upper⟩,
        freeTo_eq hinv.regions hmem ⟨by omega, hstop⟩]
      funext x
      exact hpass.step_of_forget.pageMap_eq hve hinv.regions x

theorem freeFrom_le (L : List Region) (v : Nat) : freeFrom L v ≤ v := by
  unfold freeFrom
  split <;> omega

/-- A successful release turns its stretch to free pages. -/
theorem Executes.pageMap_free (h : Executes alloc .free sparse tolerant e v vas .okay vas')
    (hve : v < e) (hinv : vas.Inv lo hi) :
    vas'.pageMap = vas.pageMap.fill (freeFrom vas.regions v) (freeTo vas.regions e) .free := by
  generalize hres : HandleResult.okay = res at h
  induction h with
  | outOfRange => cases hres
  | beyond => cases hres
  | refused => cases hres
  | permanent => cases hres
  | noNode _ _ _ _ hne => exact absurd hres.symm hne
  | last hp he hpass => exact hpass.pageMap_last hinv hp hve he
  | @more v vas vas' vas'' p res hp hstop _ hpass _ ih =>
      obtain ⟨h1, h2, h3⟩ := hpass.pageMap_more hinv hp hstop
      have hfrom := freeFrom_le vas.regions v
      have hto := le_freeTo vas.regions e
      have hupp := hp.upper
      rw [ih hstop (hpass.inv hve (fun h => by cases h) hinv) hres, h1, h2, h3,
        PageMap.fill_fill _ _ (by omega) (by omega)]

/-- A release that fails midway has turned a part of its stretch to free pages. -/
theorem Executes.pageMap_free_outside (h : Executes alloc .free sparse tolerant e v vas res vas')
    (hs : alloc.Succeeds) (hve : v < e) (hinv : vas.Inv lo hi)
    (hx : ¬(freeFrom vas.regions v ≤ x ∧ x < freeTo vas.regions e)) :
    vas'.pageMap x = vas.pageMap x := by
  induction h with
  | outOfRange => rfl
  | beyond => rw [pageMap_forget]
  | refused => rw [pageMap_forget]
  | permanent => rw [pageMap_forget]
  | noNode _ _ _ hn => exact absurd (.of_succeeds hs _ _ _ _ _) hn
  | last hp he hpass => rw [hpass.pageMap_last hinv hp hve he, PageMap.fill_of_not _ hx]
  | @more v vas vas' vas'' p res hp hstop _ hpass _ ih =>
      obtain ⟨h1, h2, h3⟩ := hpass.pageMap_more hinv hp hstop
      have hfrom := freeFrom_le vas.regions v
      have hto := le_freeTo vas.regions e
      have hupp := hp.upper
      rw [ih hstop (hpass.inv hve (fun h => by cases h) hinv) (by rw [h2, h3]; omega), h1,
        PageMap.fill_of_not _ (by omega)]

/-- A run of an allocation is a single pass. -/
theorem Executes.allocation_cases {flags : MemoryFlags} {content : MemoryContent}
    {type : MemoryAllocationOptions}
    (h : Executes alloc (.allocate flags content type) false false e v vas res vas')
    (hs : alloc.Succeeds) :
    (res ≠ .okay ∧ vas'.regions = vas.regions) ∨
      res = .okay ∧ ∃ p, vas.Around v p ∧
        Passed (.allocate flags content type) v e p (vas.forget p) vas' := by
  cases h with
  | outOfRange => exact Or.inl ⟨by simp, rfl⟩
  | beyond => exact Or.inl ⟨by simp, by rw [regions_forget]⟩
  | refused => exact Or.inl ⟨by simp, by rw [regions_forget]⟩
  | permanent => exact Or.inl ⟨by simp, by rw [regions_forget]⟩
  | noNode _ _ _ hn => exact absurd (.of_succeeds hs _ _ _ _ _) hn
  | last hp _ hpass =>
      cases hpass with
      | tolerated _ htol => cases htol
      | accepted _ hpass => exact Or.inr ⟨rfl, _, hp, hpass⟩
  | more _ _ hsparse => cases hsparse

/-- A successful allocation fills its stretch, which was free. -/
theorem Passed.pageMap_allocate {flags : MemoryFlags} {content : MemoryContent}
    {type : MemoryAllocationOptions} (hp : vas.Around v p)
    (h : Passed (.allocate flags content type) v e p (vas.forget p) vas') (hve : v < e)
    (hinv : vas.Inv lo hi) :
    vas'.pageMap = vas.pageMap.fill v e ⟨flags, content, withoutGuards type⟩ ∧
      ∀ x, v ≤ x ∧ x < e → vas.pageMap x = some .free := by
  have hstep := h.step_of_forget
  have hlow := hp.lower
  have hwithin := hstep.hits.within rfl
  have hfrom : (Operation.allocate flags content type).changedFrom v (vas.region p) = v := by
    unfold Operation.changedFrom
    split
    next h => exact h
    next => rfl
  have hto : (Operation.allocate flags content type).changedTo e (vas.region p) = e := by
    unfold Operation.changedTo
    split
    next h => exact h
    next => rfl
  refine ⟨?_, fun x hx => ?_⟩
  · funext x
    rw [pageMap, hstep.pageMap_eq hve hinv.regions x, hfrom, hto]
    rfl
  · rw [pageMap, pageMap_of_mem hinv.regions.tiles hp.mem_regions ⟨by omega, by omega⟩,
      attributes_of_free (hinv.regions.blank _ hp.mem_regions) hstep.hits.accepts]

end Runs

/-! ## Calls -/

section Calls

variable {start stop : Nat} {vas : Vas} {alloc : NodeAllocator}

/-- A call of `Vas::Allocate` on the page map: it fills free pages, at the address
it stores for its caller, or changes nothing. -/
theorem Inv.allocate_pageMap (hinv : vas.Inv start stop) (h0 : 0 < start) (h1 : start < stop)
    (h2 : stop < 2 ^ 64) (hs : alloc.Succeeds) {vaddr size : Nat} {flags : MemoryFlags}
    {content : MemoryContent} {type : MemoryAllocationOptions}
    (hreq : (Request.allocate vaddr size flags content type).Valid) :
    ∃ res vaddr' vas', vas.allocate alloc vaddr size flags content type = some (res, vaddr', vas') ∧
      (res = .okay →
        lowOffset type ≤ vaddr' ∧ (vaddr ≠ 0 → vaddr ≠ lowOffset type → vaddr' = vaddr) ∧
        (∀ x, vaddr' - lowOffset type ≤ x ∧ x < vaddr' + size + highOffset type →
          vas.pageMap x = some .free) ∧
        vas'.pageMap = vas.pageMap.fill (vaddr' - lowOffset type)
          (vaddr' + size + highOffset type) ⟨flags, content, withoutGuards type⟩) ∧
      (res ≠ .okay → vas'.pageMap = vas.pageMap) := by
  obtain ⟨res, vaddr', vas', hcall, hout⟩ := allocate_spec alloc hinv.wf h0 h1 h2 hreq
  refine ⟨res, vaddr', vas', hcall, ?_⟩
  rcases hout with ⟨rfl, rfl, -⟩ | ⟨v, rfl, hperf⟩
  · exact ⟨fun h => absurd h (by simp), fun _ => rfl⟩
  · have hpos := hperf.pos
    rcases hperf.executes.allocation_cases hs with ⟨hres, hregs⟩ | ⟨rfl, p, hp, hpass⟩
    · exact ⟨fun h => absurd h hres, fun _ => by rw [pageMap, pageMap, hregs]⟩
    · refine ⟨fun _ => ⟨by omega, fun hv hv' => ?_, ?_⟩, fun h => absurd rfl h⟩
      · have hlow : lowOffset type ≤ vaddr := hreq.2.2.2.1.resolve_left hv
        have haddr := hperf.address
          (Or.inr (by simp only [Request.effectiveAddress, hv, if_false]; omega))
        simp only [Request.effectiveAddress, hv, if_false] at haddr
        omega
      · obtain ⟨hfill, hfree⟩ := hpass.pageMap_allocate hp (by omega) hinv
        have hend : v + (Request.allocate vaddr size flags content type).effectiveSize =
            v + lowOffset type + size + highOffset type := by
          simp only [Request.effectiveSize]
          omega
        rw [hend] at hfill hfree
        rw [Nat.add_sub_cancel]
        exact ⟨hfree, hfill⟩

/-- A call of `Vas::Free` on the page map: it turns a stretch to free pages, or a
part of it if it fails. -/
theorem Inv.free_pageMap (hinv : vas.Inv start stop) (h1 : start < stop) (h2 : stop < 2 ^ 64)
    (hs : alloc.Succeeds) {vaddr size : Nat} {sparse tolerant : Bool}
    (hreq : (Request.free vaddr size sparse tolerant).Valid) :
    ∃ res vas', vas.free alloc vaddr size sparse tolerant = some (res, vas') ∧
      (res = .okay → vas'.pageMap = vas.pageMap.fill (freeFrom vas.regions vaddr)
        (freeTo vas.regions (vaddr + size)) .free) ∧
      ∀ x, ¬(freeFrom vas.regions vaddr ≤ x ∧ x < freeTo vas.regions (vaddr + size)) →
        vas'.pageMap x = vas.pageMap x := by
  obtain ⟨res, vas', hcall, hperf⟩ := free_spec alloc hinv.wf h1 h2 hreq
  have hpos : vaddr < vaddr + size := Nat.lt_add_of_pos_right hperf.pos
  refine ⟨res, vas', hcall, ?_, fun x hx => ?_⟩
  · rintro rfl
    exact Executes.pageMap_free hperf.executes hpos hinv
  · exact Executes.pageMap_free_outside hperf.executes hs hpos hinv hx

/-- No call changes a permanent page. -/
theorem Inv.perform_permanent (hinv : vas.Inv start stop) (h0 : 0 < start) (h1 : start < stop)
    (h2 : stop < 2 ^ 64) (hs : alloc.Succeeds) {req : Request} (hreq : req.Valid)
    {res : HandleResult} {vas' : Vas} (h : vas.perform alloc req = some (res, vas')) {x : Nat}
    {c : PageAttributes} (hx : vas.pageMap x = some c) (hc : has c.type permanent = true) :
    vas'.pageMap x = some c := by
  obtain ⟨res', vas'', hcall, hout⟩ := perform_spec alloc hinv.wf h0 h1 h2 hreq
  rw [hcall] at h
  cases h
  rcases hout with ⟨-, rfl, -⟩ | ⟨v, hperf⟩
  · exact hx
  · have := hperf.pos
    exact hperf.executes.pageMap_permanent hs (by omega) (Request.Valid.content_ne_free hreq)
      hinv hx hc

/-- An address space refines its page map, in every state that calls can reach. -/
theorem Reachable.refines_pageMap (h0 : 0 < start) (h1 : start < stop) (h2 : stop < 2 ^ 64)
    (hr : Reachable start stop vas) (hs : alloc.Succeeds) :
    (∀ vaddr size flags content type, (Request.allocate vaddr size flags content type).Valid →
      ∃ res vaddr' vas',
        vas.allocate alloc vaddr size flags content type = some (res, vaddr', vas') ∧
        (res = .okay →
          lowOffset type ≤ vaddr' ∧ (vaddr ≠ 0 → vaddr ≠ lowOffset type → vaddr' = vaddr) ∧
          (∀ x, vaddr' - lowOffset type ≤ x ∧ x < vaddr' + size + highOffset type →
            vas.pageMap x = some .free) ∧
          vas'.pageMap = vas.pageMap.fill (vaddr' - lowOffset type)
            (vaddr' + size + highOffset type) ⟨flags, content, withoutGuards type⟩) ∧
        (res ≠ .okay → vas'.pageMap = vas.pageMap)) ∧
    (∀ vaddr size sparse tolerant, (Request.free vaddr size sparse tolerant).Valid →
      ∃ res vas', vas.free alloc vaddr size sparse tolerant = some (res, vas') ∧
        (res = .okay → vas'.pageMap = vas.pageMap.fill (freeFrom vas.regions vaddr)
          (freeTo vas.regions (vaddr + size)) .free) ∧
        ∀ x, ¬(freeFrom vas.regions vaddr ≤ x ∧ x < freeTo vas.regions (vaddr + size)) →
          vas'.pageMap x = vas.pageMap x) ∧
    (∀ (req : Request) (res : HandleResult) (vas' : Vas), req.Valid →
      vas.perform alloc req = some (res, vas') → ∀ x c, vas.pageMap x = some c →
        has c.type permanent = true → vas'.pageMap x = some c) := by
  have hinv := hr.inv h0 h1 h2
  refine ⟨?_, ?_, ?_⟩
  · intro vaddr size flags content type hreq
    exact hinv.allocate_pageMap h0 h1 h2 hs hreq
  · intro vaddr size sparse tolerant hreq
    exact hinv.free_pageMap h1 h2 hs hreq
  · intro req res vas' hreq hcall x c hx hc
    exact hinv.perform_permanent h0 h1 h2 hs hreq hcall hx hc

/-- One page between two guards, at any address of a small space. -/
theorem Reachable.refines_pageMap_small :
    ∃ vaddr' vas', (fresh 0x1000 0x9000).allocate unlimited 0 0x1000 MemoryFlags.writable .generic
        guardFull = some (.okay, vaddr', vas') ∧
      vas'.pageMap = (fresh 0x1000 0x9000).pageMap.fill (vaddr' - 0x1000) (vaddr' + 0x1000 + 0x1000)
        ⟨MemoryFlags.writable, .generic, MemoryAllocationOptions.none⟩ := by
  obtain ⟨res, vaddr', vas', hcall, hokay, -⟩ := (Reachable.refines_pageMap (by decide) (by decide)
    (by decide) (.of_fresh 0x1000 0x9000) unlimited_succeeds).1 0 0x1000 MemoryFlags.writable
    .generic guardFull (by decide)
  have hres : some res = some HandleResult.okay := by
    rw [show some res = ((fresh 0x1000 0x9000).allocate unlimited 0 0x1000 MemoryFlags.writable
      .generic guardFull).map (·.1) by rw [hcall]; rfl]
    decide
  cases hres
  exact ⟨vaddr', vas', hcall, (hokay rfl).2.2.2⟩

end Calls

end Vas

end Beelzebub.Memory
