import Beelzebub.Memory.Atomicity

/-!
# Page faults and the cache

`Vmm::HandlePageFault` and `Vmm::CheckMemoryRegion` look a region up before they
decide about an access.  Both first try `lastSearched`, which the fault handler
sets and `execute` resets when it works on that very region.  `execute` also
removes a region when it merges both neighbours of the one it works on, and there
it forgets to reset the cache.  In a run where that does not happen, the cache
never disagrees with the tree (`CachedRun.cachedLookup_eq`).
-/

namespace Beelzebub.Memory

open Utils Tiling
open MemoryAllocationOptions (guardLow guardHigh strategyMask allocateOnDemand reserve)

/-- What memory is checked for. -/
abbrev MemoryCheckType := BitVec 32

namespace MemoryCheckType

def readable : MemoryCheckType := 0x0
def writable : MemoryCheckType := 0x1
def free : MemoryCheckType := 0x2
def userland : MemoryCheckType := 0x4
/-- Owned exclusively by the process in question. -/
def «private» : MemoryCheckType := 0x8

end MemoryCheckType

namespace Vmm

def userlandStart : Nat := 0x200000
def userlandEnd : Nat := 0x0000800000000000
def kernelStart : Nat := 0xFFFF800001000000
def kernelEnd : Nat := 0xFFFFFE0000000000

end Vmm

/-- Whether `[s, s + n)` and `[t, t + m)` overlap. -/
def doRangesIntersect (s n t m : Nat) : Bool := s < Word.add t m && t < Word.add s n

/-- Attributes of regions that are filled on demand. -/
structure PageAttributes.Demandable (c : PageAttributes) : Prop where
  used : c.content ≠ .free
  strategy : c.type &&& strategyMask = allocateOnDemand

/-- The guard bits are not part of the strategy. -/
theorem Region.attributes_strategy (r : Region) :
    r.attributes.type &&& strategyMask = r.type &&& strategyMask := by
  have h : ~~~MemoryAllocationOptions.guardFull &&& strategyMask = strategyMask := by decide
  rw [Region.attributes, withoutGuards, BitVec.and_assoc, h]

theorem PageAttributes.Demandable.of_region {r : Region} (hused : r.content ≠ .free)
    (h : r.type &&& strategyMask = allocateOnDemand) : r.attributes.Demandable :=
  ⟨hused, by rwa [Region.attributes_strategy]⟩

theorem PageAttributes.Demandable.strategy_region {r : Region} (h : r.attributes.Demandable) :
    r.type &&& strategyMask = allocateOnDemand := by
  have hstrategy := h.strategy
  rwa [Region.attributes_strategy] at hstrategy

namespace Vas

/-! ## The lookups -/

/-- `lastSearched`, if it contains the address. -/
def cached (vas : Vas) (vaddr : Nat) : Option Ptr :=
  vas.lastSearched.filter fun p => (vas.mem p).range.contains vaddr

/-- The region that a lookup works with: the cached one if there is one, otherwise
what the tree says. -/
def cachedLookup (vas : Vas) (vaddr : Nat) : Option Ptr :=
  match vas.cached vaddr with
  | some p => some p
  | none => vas.findRegion vaddr

/-- Whether an address hits a guard page of the region. -/
def hitsGuard (reg : Region) (vaddr : Nat) : Bool :=
  let aligned := vaddr - vaddr % pageSize
  has reg.type guardLow && aligned < Word.add reg.range.start pageSize
    || has reg.type guardHigh && aligned ≥ Word.sub reg.range.stop pageSize

/-- Whether the region's flags forbid the access that faulted. -/
def forbids (reg : Region) (flags : PageFaultFlags) : Bool :=
  has flags PageFaultFlags.execute && !has reg.flags MemoryFlags.executable
    || has flags PageFaultFlags.userland && !has reg.flags MemoryFlags.userland

/-- The region that a page fault works with. -/
def faultRegion (vas : Vas) (vaddr : Nat) : Except HandleResult Ptr :=
  match vas.cached vaddr with
  | some p => .ok p
  | none =>
      match vas.findRegion vaddr with
      | none => .error .argumentOutOfRange
      | some p =>
          if (vas.mem p).content = .free then .error .argumentOutOfRange
          else if (vas.mem p).type &&& strategyMask ≠ allocateOnDemand then .error .pageUndemandable
          else .ok p

/-- `Vmm::HandlePageFault` on the address space around `vaddr`.  `frame` is what
`Pmm::AllocateFrame` returns; when the mapping fails the frame is given back, and
the fault is handled all the same. -/
def handlePageFault (frame : Option Nat) (vaddr : Nat) (flags : PageFaultFlags) (vas : Vas) :
    HandleResult × Vas :=
  if has flags PageFaultFlags.present then (.failed, vas)
  else if ¬((vaddr ≥ Vmm.userlandStart ∧ vaddr ≤ Vmm.userlandEnd)
      ∨ (vaddr ≥ Vmm.kernelStart ∧ vaddr ≤ Vmm.kernelEnd)) then (.failed, vas)
  else
    match vas.faultRegion vaddr with
    | .error res => (res, vas)
    | .ok p =>
        if hitsGuard (vas.mem p).toRegion vaddr then (.pageGuard, vas)
        else if forbids (vas.mem p).toRegion flags then (.failed, vas)
        else (if frame = none then .outOfMemory else .okay, { vas with lastSearched := some p })

/-- The flags that a check asks for. -/
def mandatoryFlags (type : MemoryCheckType) : MemoryFlags :=
  (if has type MemoryCheckType.writable then MemoryFlags.writable else MemoryFlags.none)
    ||| (if has type MemoryCheckType.userland then MemoryFlags.userland else MemoryFlags.none)

/-- What `CheckMemoryRegion` demands of any region but a free one it asked for. -/
def checkRegion (addr size : Nat) (type : MemoryCheckType) (reg : Region) : HandleResult :=
  if has reg.type guardLow && doRangesIntersect addr size reg.range.start pageSize
      || has reg.type guardHigh
        && doRangesIntersect addr size (Word.sub reg.range.stop pageSize) pageSize then .pageGuard
  else if reg.flags &&& mandatoryFlags type ≠ mandatoryFlags type then .failed
  else if has type MemoryCheckType.private
      && (reg.content = .share || reg.content = .runtime) then .failed
  else .okay

/-- What `CheckMemoryRegion` demands of a region that it had to find: free regions
pass if free memory was asked for, reserved ones do not. -/
def checkFound (addr size : Nat) (type : MemoryCheckType) (reg : Region) : HandleResult :=
  if has type MemoryCheckType.free ∧ reg.content = .free then .okay
  else if reg.type &&& strategyMask = reserve then .pageReserved
  else checkRegion addr size type reg

/-- `CheckMemoryRegion` from the label `find_region` on, with `cur` for the address
that the loop advances.  `none` when the fuel runs out. -/
def checkFrom (addr size : Nat) (type : MemoryCheckType) (vas : Vas) :
    Nat → Nat → Option HandleResult
  | 0, _ => none
  | fuel + 1, cur =>
      match vas.findRegion cur with
      | none => some .argumentOutOfRange
      | some p =>
          let reg := (vas.mem p).toRegion
          let res := checkFound addr size type reg
          if res ≠ .okay then some res
          else if Word.add addr size > reg.range.stop then
            checkFrom addr size type vas fuel reg.range.stop
          else some .okay

/-- `Vmm::CheckMemoryRegion` on the address space around `addr`.  It only reads the
cache. -/
def checkMemoryRegion (addr size : Nat) (type : MemoryCheckType) (vas : Vas) :
    Option HandleResult :=
  if ¬((addr ≥ Vmm.userlandStart ∧ addr < Vmm.userlandEnd)
      ∨ (addr ≥ Vmm.kernelStart ∧ addr < Vmm.kernelEnd)) then some .argumentOutOfRange
  else
    let fuel := vas.tree.inorder.length
    match vas.cached addr with
    | some p =>
        let reg := (vas.mem p).toRegion
        let res := checkRegion addr size type reg
        if res ≠ .okay then some res
        else if Word.add addr size > reg.range.stop then
          vas.checkFrom addr size type fuel reg.range.stop
        else some .okay
    | none => vas.checkFrom addr size type (fuel + 1) addr

/-! ## The invariant of the cache -/

/-- The cache points to a region in the tree, and to one that the fault handler
fills on demand. -/
def CacheOk (vas : Vas) : Prop :=
  ∀ p ∈ vas.lastSearched, p ∈ vas.tree.inorder ∧ (vas.region p).attributes.Demandable

/-- An allocation removes the region that is cached: it fills the gap between two
regions it can be merged with, and the right one is cached. -/
def LosesCached (vas : Vas) (req : Request) : Prop :=
  req.operation.isAllocation = true ∧ ∃ v ∈ vas.target req, ∃ p q, vas.Around v p ∧
    vas.Swallows req.operation v (v + req.effectiveSize) p q ∧ vas.lastSearched = some q

section Cache

variable {alloc : NodeAllocator} {op : Operation} {sparse tolerant : Bool} {v e lo hi : Nat}
  {vas vas' : Vas} {p q : Ptr} {res : HandleResult}

theorem forget_lastSearched (h : (vas.forget p).lastSearched = some q) :
    vas.lastSearched = some q ∧ q ≠ p := by
  unfold forget at h
  split at h
  next => cases h
  next hne =>
    refine ⟨h, ?_⟩
    rintro rfl
    exact hne h

theorem CacheOk.forget (h : vas.CacheOk) (p : Ptr) : (vas.forget p).CacheOk := by
  intro q hq
  rw [tree_forget, region_forget]
  exact h q (forget_lastSearched hq).1

/-- Free regions are not cached, so a release does not remove the cached one. -/
theorem CacheOk.not_swallows_free (h : vas.CacheOk) (hq : vas.lastSearched = some q) :
    ¬vas.Swallows .free v e p q := by
  rintro ⟨-, -, -, -, hfree⟩
  exact (h q hq).2.used hfree

theorem Swallows.of_forget (h : (vas.forget p).Swallows op v e p q) :
    vas.Swallows op v e p q := by
  unfold Swallows at h ⊢
  simpa using h

/-- A pass keeps the cache in order unless it removes the cached region. -/
theorem Passes.cacheOk (h : Passes alloc op tolerant v e p vas vas') (hok : vas.CacheOk)
    (hkeep : ∀ q, vas.lastSearched = some q → ¬vas.Swallows op v e p q) : vas'.CacheOk := by
  cases h with
  | tolerated => exact hok.forget p
  | accepted _ hpass =>
      intro q hq
      rw [hpass.lastSearched] at hq
      obtain ⟨hcached, hne⟩ := forget_lastSearched hq
      obtain ⟨hmem, hkind⟩ := hok.forget p q hq
      obtain ⟨hmem', hattr⟩ := hpass.kept q hmem hne fun hsw => hkeep q hcached hsw.of_forget
      exact ⟨hmem', by rwa [hattr]⟩

theorem Executes.cacheOk_free (h : Executes alloc .free sparse tolerant e v vas res vas')
    (hready : vas.Ready alloc .free sparse e v) (hve : v < e) (hinv : vas.Inv lo hi)
    (hok : vas.CacheOk) : vas'.CacheOk := by
  induction h with
  | outOfRange => exact hok
  | beyond => exact hok.forget _
  | refused => exact hok.forget _
  | permanent => exact hok.forget _
  | noNode hp hspan hh hn => exact absurd (hready _ hp hspan hh) hn
  | last _ _ hpass => exact hpass.cacheOk hok fun q hq => hok.not_swallows_free hq
  | more hp hstop _ hpass _ ih =>
      exact ih (hpass.ready hinv hp hstop _) hstop (hpass.inv hve (fun h => by cases h) hinv)
        (hpass.cacheOk hok fun q hq => hok.not_swallows_free hq)

theorem Executes.cacheOk_allocate {flags : MemoryFlags} {content : MemoryContent}
    {type : MemoryAllocationOptions}
    (h : Executes alloc (.allocate flags content type) false tolerant e v vas res vas')
    (hready : vas.Ready alloc (.allocate flags content type) false e v) (hok : vas.CacheOk)
    (hkeep : ∀ p q, vas.Around v p → vas.lastSearched = some q →
      ¬vas.Swallows (.allocate flags content type) v e p q) : vas'.CacheOk := by
  cases h with
  | outOfRange => exact hok
  | beyond => exact hok.forget _
  | refused => exact hok.forget _
  | permanent => exact hok.forget _
  | noNode hp hspan hh hn => exact absurd (hready _ hp hspan hh) hn
  | last hp _ hpass => exact hpass.cacheOk hok fun q hq => hkeep _ q hp hq
  | more _ _ hsparse => cases hsparse

theorem Performed.cacheOk {req : Request} (h : Performed alloc req vas res v vas')
    (hinv : vas.Inv lo hi) (hsupplied : Supplied alloc vas req) (hok : vas.CacheOk)
    (hkeep : ¬vas.LosesCached req) : vas'.CacheOk := by
  have hready := hsupplied v h.target
  cases req with
  | allocate vaddr size flags content type =>
      refine h.executes.cacheOk_allocate hready hok fun p q hp hq hsw => hkeep ?_
      exact ⟨rfl, v, h.target, p, q, hp, hsw, hq⟩
  | free vaddr size sparse tolerant =>
      exact h.executes.cacheOk_free hready (Nat.lt_add_of_pos_right h.pos) hinv hok

theorem around_of_cached (hok : vas.CacheOk) (h : vas.cached v = some p) :
    vas.Around v p ∧ (vas.region p).attributes.Demandable := by
  obtain ⟨hcached, hcont⟩ := Option.filter_eq_some_iff.mp h
  obtain ⟨hmem, hkind⟩ := hok p hcached
  simp only [MemoryRange.contains, ge_iff_le, Bool.and_eq_true, decide_eq_true_eq] at hcont
  exact ⟨⟨hmem, hcont.1, hcont.2⟩, hkind⟩

/-- A fault works with a region around it that is filled on demand. -/
theorem around_of_faultRegion (hok : vas.CacheOk) (h : vas.faultRegion v = .ok p) :
    vas.Around v p ∧ (vas.region p).attributes.Demandable := by
  unfold faultRegion at h
  split at h
  next q hcached =>
    cases h
    exact around_of_cached hok hcached
  next =>
    split at h
    next => cases h
    next q hfind =>
      split at h
      next => cases h
      next hused =>
        split at h
        next => cases h
        next hstrategy =>
          cases h
          exact ⟨around_of_findRegion hfind, .of_region hused (not_not.mp hstrategy)⟩

/-- A fault changes nothing but the cache. -/
theorem handlePageFault_cases (frame : Option Nat) (v : Nat) (flags : PageFaultFlags)
    (hok : vas.CacheOk) :
    (vas.handlePageFault frame v flags).2 = vas ∨
      ∃ p, vas.Around v p ∧ (vas.region p).attributes.Demandable ∧
        (vas.handlePageFault frame v flags).2 = { vas with lastSearched := some p } := by
  unfold handlePageFault
  split
  next => exact Or.inl rfl
  next =>
    split
    next => exact Or.inl rfl
    next =>
      split
      next => exact Or.inl rfl
      next p hp =>
        split
        next => exact Or.inl rfl
        next =>
          split
          next => exact Or.inl rfl
          next =>
            obtain ⟨haround, hkind⟩ := around_of_faultRegion hok hp
            exact Or.inr ⟨p, haround, hkind, rfl⟩

theorem handlePageFault_cacheOk (frame : Option Nat) (v : Nat) (flags : PageFaultFlags)
    (hok : vas.CacheOk) : (vas.handlePageFault frame v flags).2.CacheOk := by
  rcases handlePageFault_cases frame v flags hok with h | ⟨p, hp, hkind, h⟩
  · rwa [h]
  · rw [h]
    intro q hq
    cases hq
    exact ⟨hp.mem, hkind⟩

theorem handlePageFault_inv (frame : Option Nat) (v : Nat) (flags : PageFaultFlags)
    (hok : vas.CacheOk) (hinv : vas.Inv lo hi) :
    (vas.handlePageFault frame v flags).2.Inv lo hi := by
  rcases handlePageFault_cases frame v flags hok with h | ⟨p, -, -, h⟩
  · rwa [h]
  · rw [h]
    exact ⟨⟨hinv.threaded.links, hinv.threaded.first⟩, hinv.regions⟩

/-! ## The cache agrees with the tree -/

theorem CacheOk.findRegion_eq (hok : vas.CacheOk) (hw : vas.Wf lo hi)
    (h : vas.cached v = some p) : vas.findRegion v = some p :=
  hw.findRegion_eq_some (around_of_cached hok h).1

theorem CacheOk.cachedLookup_eq_lookup (hok : vas.CacheOk) (hw : vas.Wf lo hi) (v : Nat) :
    vas.cachedLookup v = vas.findRegion v := by
  unfold cachedLookup
  split
  next p hcached => exact (hok.findRegion_eq hw hcached).symm
  next => rfl

/-- An address space without its cache. -/
def uncached (vas : Vas) : Vas := { vas with lastSearched := none }

theorem CacheOk.faultRegion_eq (hok : vas.CacheOk) (hw : vas.Wf lo hi) (v : Nat) :
    vas.faultRegion v = vas.uncached.faultRegion v := by
  cases hcached : vas.cached v with
  | none =>
      unfold faultRegion
      rw [hcached]
      rfl
  | some p =>
      have hkind := (around_of_cached hok hcached).2
      have hused : (vas.uncached.mem p).content ≠ .free := hkind.used
      have hstrategy : (vas.uncached.mem p).type &&& strategyMask = allocateOnDemand :=
        hkind.strategy_region
      have hfind : vas.uncached.findRegion v = some p := hok.findRegion_eq hw hcached
      have hnone : vas.uncached.cached v = none := rfl
      unfold faultRegion
      rw [hcached, hnone]
      simp only [hfind]
      rw [if_neg hused, if_neg (not_not.mpr hstrategy)]

/-- Faults are handled as if there were no cache. -/
theorem CacheOk.handlePageFault_eq (hok : vas.CacheOk) (hw : vas.Wf lo hi) (frame : Option Nat)
    (v : Nat) (flags : PageFaultFlags) :
    (vas.handlePageFault frame v flags).1 = (vas.uncached.handlePageFault frame v flags).1 := by
  unfold handlePageFault
  rw [← hok.faultRegion_eq hw v]
  cases vas.faultRegion v with
  | error res => split_ifs <;> rfl
  | ok p =>
      simp only [apply_ite Prod.fst, show vas.uncached.mem = vas.mem from rfl]

theorem checkFrom_uncached (vas : Vas) (addr size : Nat) (type : MemoryCheckType)
    (fuel cur : Nat) :
    vas.uncached.checkFrom addr size type fuel cur = vas.checkFrom addr size type fuel cur := by
  induction fuel generalizing cur with
  | zero => rfl
  | succ fuel ih =>
      rw [checkFrom, checkFrom]
      simp only [ih]
      rfl

/-- Checks give the result they would give without a cache. -/
theorem CacheOk.checkMemoryRegion_eq (hok : vas.CacheOk) (hw : vas.Wf lo hi) (addr size : Nat)
    (type : MemoryCheckType) :
    vas.checkMemoryRegion addr size type = vas.uncached.checkMemoryRegion addr size type := by
  have hnone : vas.uncached.cached addr = none := rfl
  have hlength : vas.uncached.tree = vas.tree := rfl
  unfold checkMemoryRegion
  rw [hnone, hlength]
  simp only [checkFrom_uncached]
  cases hcached : vas.cached addr with
  | none => rfl
  | some p =>
      have hkind := (around_of_cached hok hcached).2
      have hused : ¬(has type MemoryCheckType.free = true ∧ (vas.mem p).content = .free) :=
        fun h => hkind.used h.2
      have hstrategy : (vas.mem p).type &&& strategyMask ≠ reserve := by
        rw [show (vas.mem p).type &&& strategyMask = allocateOnDemand from hkind.strategy_region]
        decide
      simp only [checkFrom, hok.findRegion_eq hw hcached, checkFound, if_neg hused,
        if_neg hstrategy]

/-- The loop of a check ends. -/
theorem checkFrom_isSome (hw : vas.Wf lo hi) (addr size : Nat) (type : MemoryCheckType)
    {fuel : Nat} (hfuel : countAbove v vas.regions < fuel) :
    (vas.checkFrom addr size type fuel v).isSome := by
  induction fuel generalizing v with
  | zero => exact absurd hfuel (Nat.not_lt_zero _)
  | succ fuel ih =>
      rw [checkFrom]
      cases hfind : vas.findRegion v with
      | none => rfl
      | some p =>
          have hp := around_of_findRegion hfind
          obtain ⟨A, B, f⟩ := hw.focus hp.mem
          have hlt : countAbove (vas.region p).stop vas.regions < countAbove v vas.regions := by
            have ht := f.tiles
            rw [f.regions] at ht ⊢
            exact Vas.countAbove_lt ht ⟨hp.lower, hp.upper⟩
          have hrest := ih (v := (vas.region p).stop) (by omega)
          simp only
          split
          next => rfl
          next =>
            split
            next => exact hrest
            next => rfl

end Cache

/-! ## Runs -/

/-- The states that calls and faults reach from a fresh address space over
`[start, stop)`, as long as no allocation removes the cached region.  Checks do not
change the state. -/
inductive CachedRun (start stop : Nat) : Vas → Prop
  | initialized {alloc : NodeAllocator} (mem : Ptr → MemoryRegion) : alloc.Succeeds →
      CachedRun start stop (initialized alloc mem start stop).2
  | call {alloc : NodeAllocator} {vas vas' : Vas} {req : Request} {res : HandleResult} :
      CachedRun start stop vas → req.Valid → Supplied alloc vas req → ¬vas.LosesCached req →
      vas.perform alloc req = some (res, vas') → CachedRun start stop vas'
  | fault {vas : Vas} (frame : Option Nat) (vaddr : Nat) (flags : PageFaultFlags) :
      CachedRun start stop vas → CachedRun start stop (vas.handlePageFault frame vaddr flags).2

section Runs

variable {start stop : Nat} {vas : Vas}

theorem Executes.lastSearched_eq_none {alloc : NodeAllocator} {op : Operation}
    {sparse tolerant : Bool} {v e : Nat} {vas' : Vas} {res : HandleResult}
    (h : Executes alloc op sparse tolerant e v vas res vas') (hs : alloc.Succeeds)
    (hnone : vas.lastSearched = none) : vas'.lastSearched = none := by
  have hforget : ∀ {vas : Vas} (p : Ptr), vas.lastSearched = none →
      (vas.forget p).lastSearched = none := by
    intro vas p hnone
    rw [forget, if_neg (by rw [hnone]; simp)]
    exact hnone
  have hpasses : ∀ {vas vas' : Vas} {v : Nat} {p : Ptr}, vas.lastSearched = none →
      Passes alloc op tolerant v e p vas vas' → vas'.lastSearched = none := by
    intro vas vas' v p hnone hpass
    cases hpass with
    | tolerated => exact hforget p hnone
    | accepted _ hpass => rw [hpass.lastSearched, hforget p hnone]
  induction h with
  | outOfRange => exact hnone
  | beyond => exact hforget _ hnone
  | refused => exact hforget _ hnone
  | permanent => exact hforget _ hnone
  | noNode _ _ _ hn => exact absurd (.of_succeeds hs _ _ _ _ _) hn
  | last _ _ hpass => exact hpasses hnone hpass
  | more _ _ _ hpass _ ih => exact ih (hpasses hnone hpass)

/-- Without faults, nothing is cached. -/
theorem Reachable.cachedRun (hr : Reachable start stop vas) (h0 : 0 < start) (h1 : start < stop)
    (h2 : stop < 2 ^ 64) : CachedRun start stop vas ∧ vas.lastSearched = none := by
  induction hr with
  | initialized mem hs =>
      refine ⟨.initialized mem hs, ?_⟩
      obtain ⟨p, hp⟩ := initialized_spec hs mem start stop
      rw [hp]
  | @call alloc vas vas' req res hreach hs hreq hcall ih =>
      obtain ⟨hrun, hnone⟩ := ih
      have hsupplied : Supplied alloc vas req := fun _ _ _ _ _ _ => .of_succeeds hs _ _ _ _ _
      have hkeep : ¬vas.LosesCached req := by
        rintro ⟨-, _, -, _, _, -, -, hsome⟩
        rw [hnone] at hsome
        cases hsome
      refine ⟨.call hrun hreq hsupplied hkeep hcall, ?_⟩
      obtain ⟨res', vas'', hcall', hout⟩ :=
        perform_spec alloc (hreach.inv h0 h1 h2).wf h0 h1 h2 hreq
      rw [hcall'] at hcall
      cases hcall
      rcases hout with ⟨-, rfl, -⟩ | ⟨v, hperf⟩
      · exact hnone
      · exact hperf.executes.lastSearched_eq_none hs hnone

theorem CachedRun.inv (hr : CachedRun start stop vas) (h0 : 0 < start) (h1 : start < stop)
    (h2 : stop < 2 ^ 64) : vas.Inv start stop ∧ vas.CacheOk := by
  induction hr with
  | @initialized alloc mem hs =>
      refine ⟨initialized_inv hs mem h1, ?_⟩
      obtain ⟨p, hp⟩ := initialized_spec hs mem start stop
      rw [hp]
      intro q hq
      cases hq
  | @call alloc vas vas' req res _ hreq hsupplied hkeep hcall ih =>
      obtain ⟨hinv, hok⟩ := ih
      refine ⟨hinv.perform_of_supplied h0 h1 h2 hreq hsupplied hcall, ?_⟩
      obtain ⟨res', vas'', hcall', hout⟩ := perform_spec alloc hinv.wf h0 h1 h2 hreq
      rw [hcall'] at hcall
      cases hcall
      rcases hout with ⟨-, rfl, -⟩ | ⟨v, hperf⟩
      · exact hok
      · exact hperf.cacheOk hinv hsupplied hok hkeep
  | fault frame vaddr flags _ ih =>
      exact ⟨handlePageFault_inv frame vaddr flags ih.2 ih.1,
        handlePageFault_cacheOk frame vaddr flags ih.2⟩

/-- Two demand-filled pages with a free one between them. -/
def twoPages : List Request :=
  [.allocate 0x201000 0x1000 MemoryFlags.writable .generic allocateOnDemand,
    .allocate 0x203000 0x1000 MemoryFlags.writable .generic allocateOnDemand]

theorem reachable_twoPages :
    Reachable 0x200000 0x209000
      ((performAll unlimited twoPages (fresh 0x200000 0x209000)).get (by decide)) :=
  .of_performAll unlimited_succeeds (by decide) (.of_fresh _ _) (Option.some_get _).symm

/-- In every state of such a run, faults and checks return, with the results they
would have without a cache. -/
theorem CachedRun.results_eq (h0 : 0 < start) (h1 : start < stop) (h2 : stop < 2 ^ 64)
    (hr : CachedRun start stop vas) :
    (∀ frame v flags, (vas.handlePageFault frame v flags).1 =
      (vas.uncached.handlePageFault frame v flags).1) ∧
    ∀ addr size type, vas.checkMemoryRegion addr size type =
      vas.uncached.checkMemoryRegion addr size type ∧
      (vas.checkMemoryRegion addr size type).isSome := by
  obtain ⟨hinv, hok⟩ := hr.inv h0 h1 h2
  refine ⟨hok.handlePageFault_eq hinv.wf, fun addr size type => ?_⟩
  have heq := hok.checkMemoryRegion_eq hinv.wf addr size type
  refine ⟨heq, ?_⟩
  rw [heq]
  unfold checkMemoryRegion
  rw [show vas.uncached.cached addr = none from rfl, show vas.uncached.tree = vas.tree from rfl]
  simp only [checkFrom_uncached]
  split
  next => rfl
  next =>
    have hcount := countAbove_le_length addr vas
    exact checkFrom_isSome hinv.wf addr size type (by omega)

end Runs


end Vas

end Beelzebub.Memory
