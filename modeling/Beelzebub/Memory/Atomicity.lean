import Beelzebub.Memory.PageMap

/-!
# Calls that fail

A call that fails should leave the address space as it was.  It does not always:
`execute` cuts the region it found before it allocates the nodes for what was cut
off, and a sparse release frees region after region until it meets one it cannot
pass.  `Vas.Atomic` is the exact condition under which a call fails without a trace
(`SuppliedRun.unchanged_iff_atomic`).
-/

namespace Beelzebub.Memory

open Utils Tiling
open MemoryAllocationOptions (permanent)

/-- A release goes on behind a page like this: a used one that may be freed, or a
free one if that is tolerated. -/
def PageAttributes.Passable (tolerant : Bool) (c : PageAttributes) : Prop :=
  if c.content = .free then tolerant = true else has c.type permanent = false

instance (tolerant : Bool) (c : PageAttributes) : Decidable (c.Passable tolerant) :=
  inferInstanceAs (Decidable (if c.content = .free then _ else _))

namespace Vas

/-- The page at `x` exists and does not stop a release. -/
def Passable (vas : Vas) (tolerant : Bool) (x : Nat) : Prop :=
  ∃ c ∈ vas.pageMap x, c.Passable tolerant

/-- Below the first page of `[v, e)` that stops a release, all pages are free
already. -/
def StopsClean (vas : Vas) (tolerant : Bool) (v e : Nat) : Prop :=
  ∀ y, v ≤ y → y < e → ¬vas.Passable tolerant y →
    (∀ x, v ≤ x → x < y → vas.Passable tolerant x) →
    ∀ x, v ≤ x → x < y → vas.pageMap x = some .free

/-- The nodes that the pass at `v` needs can be allocated. -/
def Ready (alloc : NodeAllocator) (op : Operation) (sparse : Bool) (e v : Nat) (vas : Vas) : Prop :=
  ∀ p, vas.Around v p → (e ≤ (vas.region p).stop ∨ sparse = true) → op.Hits v e (vas.region p) →
    vas.NodesAvailable alloc op v e p

/-- The nodes that a call needs can be allocated. -/
def Supplied (alloc : NodeAllocator) (vas : Vas) (req : Request) : Prop :=
  ∀ v ∈ vas.target req, vas.Ready alloc req.operation req.sparse (v + req.effectiveSize) v

/-- The condition under which a call that fails leaves no trace: its nodes can be
allocated, and a sparse release frees nothing before it is stopped. -/
structure Atomic (alloc : NodeAllocator) (vas : Vas) (req : Request) : Prop where
  supplied : Supplied alloc vas req
  stopsClean : req.sparse = true → ∀ v ∈ vas.target req,
    vas.StopsClean req.tolerant v (v + req.effectiveSize)

/-- The regions and the tree are what they were. -/
structure Unchanged (vas vas' : Vas) : Prop where
  tree : vas'.tree = vas.tree
  regions : vas'.regions = vas.regions
  first : vas'.first = vas.first
  next : vas'.next = vas.next

theorem Unchanged.refl (vas : Vas) : vas.Unchanged vas := ⟨rfl, rfl, rfl, rfl⟩

theorem Unchanged.forget (vas : Vas) (p : Ptr) : vas.Unchanged (vas.forget p) :=
  ⟨by simp, by simp, by simp, by simp⟩

theorem Unchanged.trans {vas vas' vas'' : Vas} (h : vas.Unchanged vas')
    (h' : vas'.Unchanged vas'') : vas.Unchanged vas'' :=
  ⟨h'.tree.trans h.tree, h'.regions.trans h.regions, h'.first.trans h.first,
    h'.next.trans h.next⟩

/-! ## Nodes after the first pass -/

section Passes

variable {alloc : NodeAllocator} {op : Operation} {sparse tolerant : Bool} {v e lo hi x : Nat}
  {vas vas' : Vas} {p : Ptr} {res : HandleResult}

/-- A page of the map lies in a region with its attributes. -/
theorem Inv.around_of_pageMap (hinv : vas.Inv lo hi) {c : PageAttributes}
    (hx : vas.pageMap x = some c) : ∃ p, vas.Around x p ∧ (vas.region p).attributes = c := by
  have htiles := hinv.regions.tiles
  have hrange : lo ≤ x ∧ x < hi := by
    by_contra hout
    have hnone : vas.pageMap x = none := htiles.paint_eq_none (by omega)
    rw [hnone] at hx
    cases hx
  obtain ⟨A, r, B, hL, hr⟩ := htiles.exists_split hrange.1 hrange.2
  have hmem : r ∈ vas.regions := by rw [hL]; simp
  obtain ⟨p, hp, rfl⟩ := List.mem_map.mp hmem
  rw [pageMap, pageMap_of_mem htiles hmem hr] at hx
  exact ⟨p, ⟨hp, hr.1, hr.2⟩, Option.some.inj hx⟩

theorem Around.pageMap_eq (hp : vas.Around v p) (hinv : vas.Inv lo hi)
    (hx : v ≤ x ∧ x < (vas.region p).stop) :
    vas.pageMap x = some (vas.region p).attributes := by
  have hlow := hp.lower
  exact pageMap_of_mem hinv.regions.tiles hp.mem_regions ⟨by omega, hx.2⟩

/-- A release that resumes behind a free page needs no node: what it cuts off goes
to the free region on the left. -/
theorem Ready.of_free_below (alloc : NodeAllocator) (sparse : Bool) (e : Nat)
    (hinv : vas.Inv lo hi) (hx : vas.pageMap x = some .free) :
    vas.Ready alloc .free sparse e (x + 1) := by
  intro p hp _ hh
  have hne : (vas.region p).content ≠ .free := hh.accepts
  have hupp := hp.upper
  have hlow := hp.lower
  obtain ⟨q, hq, hfree⟩ := hinv.around_of_pageMap hx
  have hqlow := hq.lower
  have hqupp := hq.upper
  have hqp : vas.region q ≠ vas.region p := fun h =>
    hne (h ▸ congrArg PageAttributes.content hfree)
  have hstart : (vas.region p).start = x + 1 := by
    by_contra hlt
    exact hqp (hinv.regions.tiles.eq_of_mem hq.mem_regions hp.mem_regions ⟨hqlow, hqupp⟩
      ⟨by omega, by omega⟩)
  have hl : Operation.free.MeetsLeft (x + 1) (vas.region p) := Or.inl hstart
  refine ⟨fun _ _ hprev => ?_, fun h => absurd hl h, fun h => absurd hl h⟩
  -- the region left of `p` is the one with the free page
  obtain ⟨A, B, f⟩ := hinv.wf.focus hp.mem
  obtain ⟨hA, -, hB⟩ := f.split
  have hmem := hq.mem
  rw [f.inorder, List.mem_append, List.mem_cons] at hmem
  rcases hmem with hmem | rfl | hmem
  · cases hA' : A.getLast? with
    | none =>
        rw [List.getLast?_eq_none_iff.mp hA'] at hmem
        cases hmem
    | some a =>
        obtain ⟨A', rfl⟩ := List.getLast?_eq_some_iff.mp hA'
        rw [List.map_append, List.map_singleton, tiles_concat] at hA
        obtain ⟨-, hlt, hstop⟩ := hA
        have haq : vas.region a = vas.region q := by
          refine hinv.regions.tiles.eq_of_mem (x := x) ?_ hq.mem_regions ⟨by omega, by omega⟩
            ⟨hqlow, hqupp⟩
          rw [f.regions]
          simp
        refine absurd ?_ (hprev a (f.prev_eq.trans hA'))
        show (vas.region a).content = .free
        rw [haq]
        exact congrArg PageAttributes.content hfree
  · exact absurd rfl hqp
  · have := f.after q hmem
    omega

/-- A pass that goes on leaves nothing to allocate for the next one. -/
theorem Passes.ready {next : NodeAllocator} (h : Passes alloc .free tolerant v e p vas vas')
    (hinv : vas.Inv lo hi) (hp : vas.Around v p) (hstop : (vas.region p).stop < e)
    (sparse : Bool) : vas'.Ready next .free sparse e (vas.region p).stop := by
  have hupp := hp.upper
  have hfrom := freeFrom_le vas.regions v
  have hinv' := h.inv (by omega) (fun h => by cases h) hinv
  have hx : vas'.pageMap ((vas.region p).stop - 1) = some .free := by
    rw [(h.pageMap_more hinv hp hstop).1]
    exact if_pos ⟨by omega, by omega⟩
  have hready := Ready.of_free_below next sparse e hinv' hx
  rwa [Nat.sub_add_cancel (by omega)] at hready

/-- A run that gets its nodes keeps the invariant. -/
theorem Executes.inv_of_ready (h : Executes alloc op sparse tolerant e v vas res vas')
    (hready : vas.Ready alloc op sparse e v) (hsparse : op.isAllocation = true → sparse = false)
    (hve : v < e) (hc : op.isAllocation = true → op.newContent ≠ .free) (hinv : vas.Inv lo hi) :
    vas'.Inv lo hi := by
  induction h with
  | outOfRange => exact hinv
  | beyond => exact hinv.forget _
  | refused => exact hinv.forget _
  | permanent => exact hinv.forget _
  | noNode hp hspan hh hn => exact absurd (hready _ hp hspan hh) hn
  | last _ _ hpass => exact hpass.inv hve hc hinv
  | more hp hstop htrue hpass _ ih =>
      cases op with
      | allocate f c t =>
          rw [htrue] at hsparse
          exact absurd (hsparse rfl) (by simp)
      | free => exact ih (hpass.ready hinv hp hstop _) hstop (hpass.inv hve hc hinv)

/-! ## Pages that stop a release -/

/-- The pages of a region are passable or not together. -/
theorem Around.passable_iff (hp : vas.Around v p) (hinv : vas.Inv lo hi)
    (hx : v ≤ x ∧ x < (vas.region p).stop) :
    vas.Passable tolerant x ↔
      if (vas.region p).content = .free then tolerant = true
      else has (vas.region p).type permanent = false := by
  rw [Passable, hp.pageMap_eq hinv hx]
  simp only [Option.mem_def, Option.some.injEq, exists_eq_left', PageAttributes.Passable,
    Region.attributes, has_permanent_withoutGuards]

theorem Inv.around_of_passable (hinv : vas.Inv lo hi) (hx : vas.Passable tolerant x) :
    ∃ p, vas.Around x p := by
  obtain ⟨c, hc, -⟩ := hx
  obtain ⟨p, hp, -⟩ := hinv.around_of_pageMap hc
  exact ⟨p, hp⟩

/-- A passable page is in a region that is tolerated or may be freed. -/
theorem Around.of_passable (hp : vas.Around v p) (hinv : vas.Inv lo hi)
    (hv : vas.Passable tolerant v) :
    (¬Operation.free.Accepts (vas.region p) → tolerant = true) ∧
      (Operation.free.Accepts (vas.region p) → has (vas.region p).type permanent = false) := by
  rw [hp.passable_iff hinv ⟨Nat.le_refl v, hp.upper⟩] at hv
  refine ⟨fun hacc => ?_, fun hacc => ?_⟩
  · rwa [if_pos (not_not.mp hacc)] at hv
  · rwa [if_neg hacc] at hv

/-- The pages that a pass goes over are passable. -/
theorem Passes.passable (h : Passes alloc .free tolerant v e p vas vas') (hinv : vas.Inv lo hi)
    (hp : vas.Around v p) (hx : v ≤ x ∧ x < (vas.region p).stop) : vas.Passable tolerant x := by
  rw [hp.passable_iff hinv hx]
  cases h with
  | tolerated hacc htol => rwa [if_pos (not_not.mp hacc)]
  | accepted _ hpass =>
      have hh := hpass.step_of_forget.hits
      rw [if_neg hh.accepts]
      exact hh.movable

/-- A pass that goes on does not touch what lies behind its region. -/
theorem Passes.pageMap_above (h : Passes alloc .free tolerant v e p vas vas')
    (hinv : vas.Inv lo hi) (hp : vas.Around v p) (hstop : (vas.region p).stop < e)
    (hx : (vas.region p).stop ≤ x) : vas'.pageMap x = vas.pageMap x := by
  rw [(h.pageMap_more hinv hp hstop).1, PageMap.fill_of_not _ (by omega)]

theorem Passes.passable_above (h : Passes alloc .free tolerant v e p vas vas')
    (hinv : vas.Inv lo hi) (hp : vas.Around v p) (hstop : (vas.region p).stop < e)
    (hx : (vas.region p).stop ≤ x) : vas'.Passable tolerant x ↔ vas.Passable tolerant x := by
  rw [Passable, Passable, h.pageMap_above hinv hp hstop hx]

/-- A release over passable pages succeeds. -/
theorem Executes.okay_of_passable (h : Executes alloc .free true tolerant e v vas res vas')
    (hready : vas.Ready alloc .free true e v) (hve : v < e) (hinv : vas.Inv lo hi)
    (hpass : ∀ x, v ≤ x → x < e → vas.Passable tolerant x) : res = .okay := by
  induction h with
  | @outOfRange v vas hnone =>
      obtain ⟨p, hp⟩ := hinv.around_of_passable (hpass v (Nat.le_refl v) hve)
      exact absurd hp (hnone p)
  | beyond _ _ hfalse => cases hfalse
  | @refused v vas p hp _ hacc htol =>
      have htol' := (hp.of_passable hinv (hpass v (Nat.le_refl v) hve)).1 hacc
      rw [htol] at htol'
      cases htol'
  | @permanent v vas p hp _ hacc hperm =>
      have hperm' := (hp.of_passable hinv (hpass v (Nat.le_refl v) hve)).2 hacc
      rw [hperm] at hperm'
      cases hperm'
  | noNode hp hspan hh hn => exact absurd (hready _ hp hspan hh) hn
  | last => rfl
  | more hp hstop _ hthis _ ih =>
      have hupp := hp.upper
      refine ih (hthis.ready hinv hp hstop _) hstop (hthis.inv hve (fun h => by cases h) hinv) ?_
      intro x hx hxe
      rw [hthis.passable_above hinv hp hstop hx]
      exact hpass x (by omega) hxe

/-- A release that succeeds went over passable pages only. -/
theorem Executes.passable_of_okay (h : Executes alloc .free sparse tolerant e v vas .okay vas')
    (hve : v < e) (hinv : vas.Inv lo hi) : ∀ x, v ≤ x → x < e → vas.Passable tolerant x := by
  generalize hres : HandleResult.okay = res at h
  induction h with
  | outOfRange => cases hres
  | beyond => cases hres
  | refused => cases hres
  | permanent => cases hres
  | noNode _ _ _ _ hne => exact absurd hres.symm hne
  | last hp he hpass =>
      intro x hx hxe
      exact hpass.passable hinv hp ⟨hx, by omega⟩
  | @more v vas vas' vas'' p res hp hstop _ hpass _ ih =>
      intro x hx hxe
      rcases Nat.lt_or_ge x (vas.region p).stop with hlt | hge
      · exact hpass.passable hinv hp ⟨hx, hlt⟩
      · rw [← hpass.passable_above hinv hp hstop hge]
        exact ih hstop (hpass.inv hve (fun h => by cases h) hinv) hres x hge hxe

/-- A page that is free stays free while a release runs. -/
theorem Executes.pageMap_stays_free (h : Executes alloc .free sparse tolerant e v vas res vas')
    (hready : vas.Ready alloc .free sparse e v) (hve : v < e) (hinv : vas.Inv lo hi)
    (hx : vas.pageMap x = some .free) : vas'.pageMap x = some .free := by
  have hfill : ∀ {p q : Nat} {m : PageMap}, m x = some .free → m.fill p q .free x = some .free := by
    intro p q m hm
    unfold PageMap.fill
    split
    next => rfl
    next => exact hm
  induction h with
  | outOfRange => exact hx
  | beyond => rwa [pageMap_forget]
  | refused => rwa [pageMap_forget]
  | permanent => rwa [pageMap_forget]
  | noNode hp hspan hh hn => exact absurd (hready _ hp hspan hh) hn
  | last hp he hpass =>
      rw [hpass.pageMap_last hinv hp hve he]
      exact hfill hx
  | more hp hstop _ hpass _ ih =>
      refine ih (hpass.ready hinv hp hstop _) hstop (hpass.inv hve (fun h => by cases h) hinv) ?_
      rw [(hpass.pageMap_more hinv hp hstop).1]
      exact hfill hx

/-- A release frees every page that it can reach. -/
theorem Executes.pageMap_of_passable (h : Executes alloc .free true tolerant e v vas res vas')
    (hready : vas.Ready alloc .free true e v) (hve : v < e) (hinv : vas.Inv lo hi)
    (hx : v ≤ x ∧ x < e) (hpass : ∀ y, v ≤ y → y ≤ x → vas.Passable tolerant y) :
    vas'.pageMap x = some .free := by
  induction h with
  | @outOfRange v vas hnone =>
      obtain ⟨p, hp⟩ := hinv.around_of_passable (hpass v (Nat.le_refl v) hx.1)
      exact absurd hp (hnone p)
  | beyond _ _ hfalse => cases hfalse
  | @refused v vas p hp _ hacc htol =>
      have htol' := (hp.of_passable hinv (hpass v (Nat.le_refl v) hx.1)).1 hacc
      rw [htol] at htol'
      cases htol'
  | @permanent v vas p hp _ hacc hperm =>
      have hperm' := (hp.of_passable hinv (hpass v (Nat.le_refl v) hx.1)).2 hacc
      rw [hperm] at hperm'
      cases hperm'
  | noNode hp hspan hh hn => exact absurd (hready _ hp hspan hh) hn
  | @last v vas vas' p hp he hthis =>
      have hfrom := freeFrom_le vas.regions v
      have hto := le_freeTo vas.regions e
      rw [hthis.pageMap_last hinv hp hve he]
      exact if_pos ⟨by omega, by omega⟩
  | @more v vas vas' vas'' p res hp hstop _ hthis hrest ih =>
      have hupp := hp.upper
      have hready' : vas'.Ready alloc .free true e _ := hthis.ready hinv hp hstop true
      have hinv' := hthis.inv hve (fun h => by cases h) hinv
      rcases Nat.lt_or_ge x (vas.region p).stop with hlt | hge
      · refine hrest.pageMap_stays_free hready' hstop hinv' ?_
        have hfrom := freeFrom_le vas.regions v
        rw [(hthis.pageMap_more hinv hp hstop).1]
        exact if_pos ⟨by omega, by omega⟩
      · refine ih hready' hstop hinv' ⟨hge, hx.2⟩ ?_
        intro y hy hyx
        rw [hthis.passable_above hinv hp hstop hy]
        exact hpass y (by omega) hyx

/-! ## The calls -/

/-- If the first page of a range may be freed, a clean release is not stopped. -/
theorem StopsClean.passable (h : vas.StopsClean tolerant v e) (hv : vas.Passable tolerant v)
    (hused : vas.pageMap v ≠ some .free) : ∀ x, v ≤ x → x < e → vas.Passable tolerant x := by
  intro x
  induction x using Nat.strong_induction_on with
  | _ x ih =>
      intro hx hxe
      by_contra hstopped
      have hvx : v < x := by
        rcases Nat.lt_or_ge v x with hlt | hge
        · exact hlt
        · rw [Nat.le_antisymm hge hx] at hstopped
          exact absurd hv hstopped
      have hbelow : ∀ y, v ≤ y → y < x → vas.Passable tolerant y := fun y hy hyx =>
        ih y hyx hy (by omega)
      exact hused (h x hx hxe hstopped hbelow v (Nat.le_refl v) hvx)

/-- Behind a tolerated region, a clean release stays clean. -/
theorem StopsClean.forget (h : vas.StopsClean tolerant v e) (hinv : vas.Inv lo hi)
    (hp : vas.Around v p) (hf : (vas.region p).content = .free) (htol : tolerant = true) :
    (vas.forget p).StopsClean tolerant (vas.region p).stop e := by
  have hupp := hp.upper
  have hpassable : ∀ {y}, (vas.forget p).Passable tolerant y ↔ vas.Passable tolerant y := by
    intro y
    rw [Passable, Passable, pageMap_forget]
  intro y hy hye hstopped hbelow x hx hxy
  rw [pageMap_forget]
  refine h y (by omega) hye (fun h => hstopped (hpassable.mpr h)) ?_ x (by omega) hxy
  intro z hz hzy
  rcases Nat.lt_or_ge z (vas.region p).stop with hlt | hge
  · rw [hp.passable_iff hinv ⟨hz, hlt⟩, if_pos hf]
    exact htol
  · exact hpassable.mp (hbelow z hge hzy)

/-- A release that stops clean leaves no trace when it fails. -/
theorem Executes.unchanged_of_stopsClean
    (h : Executes alloc .free true tolerant e v vas res vas')
    (hready : vas.Ready alloc .free true e v) (hve : v < e) (hinv : vas.Inv lo hi)
    (hclean : vas.StopsClean tolerant v e) (hres : res ≠ .okay) : vas.Unchanged vas' := by
  induction h with
  | outOfRange => exact .refl _
  | beyond => exact .forget _ _
  | refused => exact .forget _ _
  | permanent => exact .forget _ _
  | noNode hp hspan hh hn => exact absurd (hready _ hp hspan hh) hn
  | last => exact absurd rfl hres
  | @more v vas vas' vas'' p res hp hstop htrue hpass hrest ih =>
      have hready' : vas'.Ready alloc .free true e _ := hpass.ready hinv hp hstop true
      have hinv' := hpass.inv hve (fun h => by cases h) hinv
      have hv : vas.Passable tolerant v := hpass.passable hinv hp ⟨Nat.le_refl v, hp.upper⟩
      cases hpass with
      | tolerated hacc htol =>
          refine (Unchanged.forget vas p).trans (ih hready' hstop hinv' ?_ hres)
          exact hclean.forget hinv hp (not_not.mp hacc) htol
      | accepted hn hpassed =>
          -- its first page is in use, so nothing stops it
          have hused : vas.pageMap v ≠ some .free := by
            rw [hp.pageMap_eq hinv ⟨Nat.le_refl v, hp.upper⟩]
            intro hfree
            exact hpassed.step_of_forget.hits.accepts
              (congrArg PageAttributes.content (Option.some.inj hfree))
          have hokay := (Executes.more hp hstop htrue (.accepted hn hpassed) hrest).okay_of_passable
            hready hve hinv (hclean.passable hv hused)
          exact absurd hokay hres

/-- A call that is not sparse leaves no trace when it gets its nodes and fails. -/
theorem Executes.unchanged_of_not_sparse (h : Executes alloc op false tolerant e v vas res vas')
    (hready : vas.Ready alloc op false e v) (hres : res ≠ .okay) : vas.Unchanged vas' := by
  cases h with
  | outOfRange => exact .refl _
  | beyond => exact .forget _ _
  | refused => exact .forget _ _
  | permanent => exact .forget _ _
  | noNode hp hspan hh hn => exact absurd (hready _ hp hspan hh) hn
  | last => exact absurd rfl hres
  | more _ _ hsparse => cases hsparse

theorem Wf.around_unique {q : Ptr} (hw : vas.Wf lo hi) (hp : vas.Around v p)
    (hq : vas.Around v q) : p = q := by
  have h := hw.findRegion_eq_some hp
  rw [hw.findRegion_eq_some hq] at h
  exact (Option.some.inj h).symm

/-- A run that lacks a node fails with a trace. -/
theorem Executes.changed_of_not_ready (h : Executes alloc op sparse tolerant e v vas res vas')
    (hw : vas.Wf lo hi) (hready : ¬vas.Ready alloc op sparse e v) :
    res ≠ .okay ∧ vas'.regions ≠ vas.regions := by
  simp only [Ready, not_forall] at hready
  obtain ⟨q, hq, hspan, hh, hn⟩ := hready
  cases h with
  | outOfRange hnone => exact absurd hq (hnone q)
  | beyond hp hstop hsparse =>
      rw [hw.around_unique hp hq] at hstop
      rw [hsparse] at hspan
      rcases hspan with hspan | hspan
      · omega
      · cases hspan
  | refused hp _ hacc =>
      rw [hw.around_unique hp hq] at hacc
      exact absurd hh.accepts hacc
  | permanent hp _ _ hperm =>
      rw [hw.around_unique hp hq, hh.movable] at hperm
      cases hperm
  | noNode _ _ _ _ hres hne => exact ⟨hres, hne⟩
  | last hp _ hpass =>
      obtain rfl := hw.around_unique hp hq
      cases hpass with
      | tolerated hacc => exact absurd hh.accepts hacc
      | accepted hn' => exact absurd hn' hn
  | more hp _ _ hpass =>
      obtain rfl := hw.around_unique hp hq
      cases hpass with
      | tolerated hacc => exact absurd hh.accepts hacc
      | accepted hn' => exact absurd hn' hn

/-- A sparse release that does not stop clean fails with a trace. -/
theorem Executes.changed_of_not_stopsClean
    (h : Executes alloc .free true tolerant e v vas res vas')
    (hready : vas.Ready alloc .free true e v) (hve : v < e) (hinv : vas.Inv lo hi)
    (hclean : ¬vas.StopsClean tolerant v e) : res ≠ .okay ∧ vas'.regions ≠ vas.regions := by
  simp only [StopsClean, not_forall] at hclean
  obtain ⟨y, hy, hye, hstopped, hbelow, x, hx, hxy, hused⟩ := hclean
  refine ⟨?_, fun hsame => ?_⟩
  · rintro rfl
    exact hstopped (h.passable_of_okay hve hinv y hy hye)
  · have hfreed := h.pageMap_of_passable hready hve hinv ⟨hx, by omega⟩
      fun z hz hzx => hbelow z hz (by omega)
    rw [pageMap, hsame] at hfreed
    exact hused hfreed

theorem Performed.unchanged_iff {req : Request} (h : Performed alloc req vas res v vas')
    (hinv : vas.Inv lo hi) : (res ≠ .okay → vas.Unchanged vas') ↔ vas.Atomic alloc req := by
  have hve : v < v + req.effectiveSize := Nat.lt_add_of_pos_right h.pos
  constructor
  · intro hsame
    have hsupplied : Supplied alloc vas req := by
      intro w hw
      obtain rfl := Option.some.inj (h.target.symm.trans hw)
      by_contra hready
      obtain ⟨hres, hne⟩ := h.executes.changed_of_not_ready hinv.wf hready
      exact hne (hsame hres).regions
    refine ⟨hsupplied, fun hsparse w hw => ?_⟩
    obtain rfl := Option.some.inj (h.target.symm.trans hw)
    cases req with
    | allocate vaddr size flags content type => cases hsparse
    | free vaddr size sparse tolerant =>
        obtain rfl : sparse = true := hsparse
        by_contra hclean
        obtain ⟨hres, hne⟩ :=
          h.executes.changed_of_not_stopsClean (hsupplied _ hw) hve hinv hclean
        exact hne (hsame hres).regions
  · intro hatomic hres
    have hready := hatomic.supplied v h.target
    cases req with
    | allocate vaddr size flags content type =>
        exact h.executes.unchanged_of_not_sparse hready hres
    | free vaddr size sparse tolerant =>
        cases sparse with
        | false => exact h.executes.unchanged_of_not_sparse hready hres
        | true =>
            exact h.executes.unchanged_of_stopsClean hready hve hinv
              (hatomic.stopsClean rfl v h.target) hres

end Passes

/-! ## Runs -/

/-- The states that calls reach from a fresh address space over `[start, stop)`, where
a call may run out of nodes that it does not need. -/
inductive SuppliedRun (start stop : Nat) : Vas → Prop
  | initialized {alloc : NodeAllocator} (mem : Ptr → MemoryRegion) : alloc.Succeeds →
      SuppliedRun start stop (initialized alloc mem start stop).2
  | call {alloc : NodeAllocator} {vas vas' : Vas} {req : Request} {res : HandleResult} :
      SuppliedRun start stop vas → req.Valid → Supplied alloc vas req →
      vas.perform alloc req = some (res, vas') → SuppliedRun start stop vas'

section Runs

variable {start stop : Nat} {vas : Vas}

theorem Reachable.suppliedRun (hr : Reachable start stop vas) : SuppliedRun start stop vas := by
  induction hr with
  | initialized mem hs => exact .initialized mem hs
  | call _ hs hreq hcall ih =>
      exact .call ih hreq (fun _ _ _ _ _ _ => .of_succeeds hs _ _ _ _ _) hcall

/-- A call that gets its nodes keeps the invariant. -/
theorem Inv.perform_of_supplied {alloc : NodeAllocator} {req : Request} {res : HandleResult}
    {vas' : Vas} (hinv : vas.Inv start stop) (h0 : 0 < start) (h1 : start < stop)
    (h2 : stop < 2 ^ 64) (hreq : req.Valid) (hsupplied : Supplied alloc vas req)
    (hcall : vas.perform alloc req = some (res, vas')) : vas'.Inv start stop := by
  obtain ⟨res', vas'', hcall', hout⟩ := perform_spec alloc hinv.wf h0 h1 h2 hreq
  rw [hcall'] at hcall
  cases hcall
  rcases hout with ⟨-, rfl, -⟩ | ⟨v, hperf⟩
  · exact hinv
  · have hsparse : req.operation.isAllocation = true → req.sparse = false := by
      cases req with
      | allocate => exact fun _ => rfl
      | free => exact fun h => by cases h
    exact hperf.executes.inv_of_ready (hsupplied v hperf.target) hsparse
      (Nat.lt_add_of_pos_right hperf.pos) hreq.content_ne_free hinv

theorem SuppliedRun.inv (hr : SuppliedRun start stop vas) (h0 : 0 < start) (h1 : start < stop)
    (h2 : stop < 2 ^ 64) : vas.Inv start stop := by
  induction hr with
  | initialized mem hs => exact initialized_inv hs mem h1
  | call _ hreq hsupplied hcall ih => exact ih.perform_of_supplied h0 h1 h2 hreq hsupplied hcall

/-- In every state of a run, the next call fails without a trace exactly if it is
atomic. -/
theorem SuppliedRun.unchanged_iff_atomic (h0 : 0 < start) (h1 : start < stop)
    (h2 : stop < 2 ^ 64) (hr : SuppliedRun start stop vas) (alloc : NodeAllocator)
    {req : Request} (hreq : req.Valid) :
    ∃ res vas', vas.perform alloc req = some (res, vas') ∧
      ((res ≠ .okay → vas.Unchanged vas') ↔ vas.Atomic alloc req) := by
  have hinv := hr.inv h0 h1 h2
  obtain ⟨res, vas', hcall, hout⟩ := perform_spec alloc hinv.wf h0 h1 h2 hreq
  refine ⟨res, vas', hcall, ?_⟩
  rcases hout with ⟨-, rfl, htarget⟩ | ⟨v, hperf⟩
  · refine ⟨fun _ => ⟨fun v hv => ?_, fun _ v hv => ?_⟩, fun _ _ => .refl _⟩
    · rw [htarget] at hv
      cases hv
    · rw [htarget] at hv
      cases hv
  · exact hperf.unchanged_iff hinv

/-- A release of free memory fails. -/
theorem SuppliedRun.unchanged_iff_atomic_small :
    ∃ res vas', (fresh 0x1000 0x9000).perform unlimited (.free 0x3000 0x2000 true false) =
        some (res, vas') ∧
      ((res ≠ .okay → (fresh 0x1000 0x9000).Unchanged vas') ↔
        (fresh 0x1000 0x9000).Atomic unlimited (.free 0x3000 0x2000 true false)) :=
  SuppliedRun.unchanged_iff_atomic (by decide) (by decide) (by decide)
    (Reachable.of_fresh _ _).suppliedRun unlimited (by decide)

/-- A sparse release frees the page at `0x3000` before it meets a free one. -/
theorem Reachable.free_not_atomic :
    ∃ vas res vas', Reachable 0x1000 0x9000 vas ∧
      (Request.free 0x3000 0x2000 true false).Valid ∧
      vas.perform unlimited (.free 0x3000 0x2000 true false) = some (res, vas') ∧
      res ≠ .okay ∧ vas'.regions ≠ vas.regions := by
  obtain ⟨⟨res, vas'⟩, hcall, hres⟩ := Option.map_eq_some_iff.mp
    (show (((performAll unlimited [.allocate 0x3000 0x1000 MemoryFlags.writable .generic
        MemoryAllocationOptions.none] (fresh 0x1000 0x9000)).get (by decide)).perform unlimited
        (.free 0x3000 0x2000 true false)).map (fun out => (out.1, out.2.regions.length)) =
        some (.pageFree, 1) by decide)
  rw [Prod.mk.injEq] at hres
  obtain ⟨rfl, hlength⟩ := hres
  refine ⟨_, _, vas', .of_performAll unlimited_succeeds (by decide) (.of_fresh _ _)
    (Option.some_get _).symm, by decide, hcall, by decide, fun hsame => ?_⟩
  rw [hsame] at hlength
  exact absurd hlength (by decide)

end Runs

end Vas

end Beelzebub.Memory
