import Beelzebub.Memory.Faults
import Beelzebub.Memory.ZeroSize

/-!
# The gate of the system calls

System calls ask `Vmm::CheckMemoryRegion` about every range they get from userland.  With
a cache that is in order, it lets a range through exactly if every byte of it may be
touched (`checkMemoryRegion_okay_iff`).
-/

namespace Beelzebub.Memory

open Utils Tiling
open MemoryAllocationOptions (guardLow guardHigh strategyMask reserve)

/-- The byte at `x` of a region may be touched in the way a check asks for. -/
structure Region.Grants (r : Region) (type : MemoryCheckType) (x : Nat) : Prop where
  used : r.content ≠ .free
  accessible : r.type &&& strategyMask ≠ reserve
  notLowGuard : has r.type guardLow = true → r.start + pageSize ≤ x
  notHighGuard : has r.type guardHigh = true → x + pageSize < r.stop
  flags : r.flags &&& Vas.mandatoryFlags type = Vas.mandatoryFlags type
  owned : has type MemoryCheckType.private = true → r.content ≠ .share ∧ r.content ≠ .runtime

namespace Vas

/-- The byte at `x` lies in a region that grants the access. -/
def Grants (vas : Vas) (type : MemoryCheckType) (x : Nat) : Prop :=
  ∃ r ∈ vas.regions, r.start ≤ x ∧ x < r.stop ∧ r.Grants type x

section Check

variable {vas : Vas} {lo hi addr size cur : Nat} {type : MemoryCheckType} {p : Ptr} {r : Region}

theorem checkRegion_okay_iff :
    checkRegion addr size type r = .okay ↔
      (has r.type guardLow = true → doRangesIntersect addr size r.start pageSize = false) ∧
      (has r.type guardHigh = true →
        doRangesIntersect addr size (Word.sub r.stop pageSize) pageSize = false) ∧
      r.flags &&& mandatoryFlags type = mandatoryFlags type ∧
      (has type MemoryCheckType.private = true → r.content ≠ .share ∧ r.content ≠ .runtime) := by
  unfold checkRegion
  split
  next hguard =>
    refine iff_of_false (by simp) ?_
    rintro ⟨hlow, hhigh, -⟩
    simp only [Bool.or_eq_true, Bool.and_eq_true] at hguard
    rcases hguard with ⟨hg, hi⟩ | ⟨hg, hi⟩
    · exact absurd hi (by rw [show r.range.start = r.start from rfl, hlow hg]; simp)
    · exact absurd hi (by rw [show r.range.stop = r.stop from rfl, hhigh hg]; simp)
  next hguard =>
    simp only [Bool.or_eq_true, Bool.and_eq_true, not_or, not_and, Bool.not_eq_true] at hguard
    split
    next hflags => exact iff_of_false (by simp) fun h => hflags h.2.2.1
    next hflags =>
      split
      next hprivate =>
        simp only [Bool.and_eq_true, Bool.or_eq_true, decide_eq_true_eq] at hprivate
        refine iff_of_false (by simp) fun h => ?_
        obtain ⟨hshare, hruntime⟩ := h.2.2.2 hprivate.1
        rcases hprivate.2 with hc | hc
        · exact hshare hc
        · exact hruntime hc
      next hprivate =>
        simp only [Bool.and_eq_true, Bool.or_eq_true, decide_eq_true_eq, not_and, not_or]
          at hprivate
        exact iff_of_true rfl ⟨hguard.1, hguard.2, not_not.mp hflags, hprivate⟩

/-- The range reaches the low guard page of a region it goes through. -/
theorem intersects_low (hstart : r.start + pageSize < 2 ^ 64) (hwrap : addr + size < 2 ^ 64)
    (hcur : r.start < addr + size) :
    doRangesIntersect addr size r.start pageSize = decide (addr < r.start + pageSize) := by
  rw [doRangesIntersect, Word.add_of_lt hstart, Word.add_of_lt hwrap, decide_eq_true hcur,
    Bool.and_true]

/-- The range reaches the high guard page of a region it goes through. -/
theorem intersects_high (hpage : pageSize ≤ r.stop) (hstop : r.stop < 2 ^ 64)
    (hwrap : addr + size < 2 ^ 64) (hcur : addr < r.stop) :
    doRangesIntersect addr size (Word.sub r.stop pageSize) pageSize =
      decide (r.stop < addr + size + pageSize) := by
  have hsub : Word.sub r.stop pageSize = r.stop - pageSize := Word.sub_of_le hstop hpage
  have hadd : Word.add (r.stop - pageSize) pageSize = r.stop := by
    rw [Word.add_of_lt (by omega)]
    omega
  rw [doRangesIntersect, hsub, hadd, Word.add_of_lt hwrap, decide_eq_true hcur, Bool.true_and]
  exact decide_eq_decide.mpr (by omega)

/-- The checks of one region, for a range that goes through it at `cur`: the range begins
there, or the region does. -/
theorem checkFound_okay_iff (hblank : r.Blank) (hfree : has type MemoryCheckType.free = false)
    (hpage : pageSize ≤ r.start) (hstart : r.start + pageSize < 2 ^ 64) (hstop : r.stop < 2 ^ 64)
    (hwrap : addr + size < 2 ^ 64) (hcur : addr ≤ cur ∧ cur < addr + size)
    (hin : r.start ≤ cur ∧ cur < r.stop) (hborder : r.start < cur → cur = addr) :
    checkFound addr size type r = .okay ↔
      ∀ x, cur ≤ x → x < addr + size → x < r.stop → r.Grants type x := by
  rw [checkFound, hfree, if_neg (by simp)]
  split
  next hreserved =>
    refine iff_of_false (by simp) fun h => ?_
    exact (h cur (Nat.le_refl _) hcur.2 hin.2).accessible hreserved
  next hreserved =>
    have hused : r.content ≠ .free := by
      intro hcontent
      rw [(hblank hcontent).2] at hreserved
      exact hreserved (by decide)
    rw [checkRegion_okay_iff, intersects_low hstart hwrap (by omega),
      intersects_high (by omega) hstop hwrap (by omega)]
    simp only [decide_eq_false_iff_not, Nat.not_lt]
    constructor
    · rintro ⟨hlow, hhigh, hflags, howned⟩ x hx hxe hxs
      refine ⟨hused, hreserved, fun hg => ?_, fun hg => ?_, hflags, howned⟩
      · have := hlow hg
        omega
      · have := hhigh hg
        omega
    · intro h
      have hpos : 0 < pageSize := by decide
      have hgrants := h cur (Nat.le_refl _) hcur.2 hin.2
      refine ⟨fun hg => ?_, fun hg => ?_, hgrants.flags, hgrants.owned⟩
      · have := hgrants.notLowGuard hg
        omega
      · -- the last byte that the range shares with the region
        have hlast := h (min (addr + size) r.stop - 1) (by omega) (by omega) (by omega)
        have := hlast.notHighGuard hg
        omega

/-- Nothing starts in the middle of what follows a region. -/
theorem Wf.start_of_stop (hw : vas.Wf lo hi) (hp : vas.Around cur p) {q : Ptr}
    (hq : vas.Around (vas.region p).stop q) : (vas.region q).start = (vas.region p).stop := by
  obtain ⟨A, B, f⟩ := hw.focus hp.mem
  have hmem := hq.mem
  have hlow := hq.lower
  have hupp := hq.upper
  rw [f.inorder] at hmem
  rcases List.mem_append.mp hmem with hA | hB
  · have := f.before q hA
    have := f.nonempty
    omega
  · rcases List.mem_cons.mp hB with rfl | hB
    · omega
    · have := (f.after q hB).1
      omega

theorem Around.grants_iff (hw : vas.Wf lo hi) {x : Nat} (hp : vas.Around x p) :
    vas.Grants type x ↔ (vas.region p).Grants type x := by
  constructor
  · rintro ⟨r, hr, h1, h2, hg⟩
    obtain ⟨q, hq, rfl⟩ := List.mem_map.mp hr
    rwa [hw.around_unique hp ⟨hq, h1, h2⟩]
  · intro hg
    exact ⟨_, List.mem_map_of_mem hp.mem, hp.lower, hp.upper, hg⟩

/-- The walk from `cur` on ends, and lets the rest of the range through exactly if it may
be touched. -/
theorem checkFrom_okay_iff (hinv : vas.Inv lo hi) (hlo : pageSize ≤ lo) (hhi : hi + pageSize < 2 ^ 64)
    (hfree : has type MemoryCheckType.free = false) (hwrap : addr + size < 2 ^ 64) :
    ∀ (fuel cur : Nat), countAbove cur vas.regions < fuel → addr ≤ cur → cur < addr + size →
      (∀ p, vas.Around cur p → (vas.region p).start < cur → cur = addr) →
      ∃ res, vas.checkFrom addr size type fuel cur = some res ∧
        (res = .okay ↔ ∀ x, cur ≤ x → x < addr + size → vas.Grants type x) := by
  intro fuel
  induction fuel with
  | zero =>
      intro cur hfuel
      exact absurd hfuel (Nat.not_lt_zero _)
  | succ fuel ih =>
      intro cur hfuel hlow hupp hborder
      have hw := hinv.wf
      rw [checkFrom]
      cases hfind : vas.findRegion cur with
      | none =>
          refine ⟨_, rfl, iff_of_false (by simp) fun h => ?_⟩
          obtain ⟨r, hr, h1, h2, -⟩ := h cur (Nat.le_refl _) hupp
          obtain ⟨q, hq, rfl⟩ := List.mem_map.mp hr
          rw [hw.findRegion_eq_some ⟨hq, h1, h2⟩] at hfind
          cases hfind
      | some p =>
          have hp := around_of_findRegion hfind
          have hmem : vas.region p ∈ vas.regions := List.mem_map_of_mem hp.mem
          have hbounds := hw.tiles.bounds hmem
          have hfound := checkFound_okay_iff (hinv.regions.blank _ hmem) hfree (by omega) (by omega)
            (by omega) hwrap ⟨hlow, hupp⟩ ⟨hp.lower, hp.upper⟩ (hborder p hp)
          have hhere : ∀ x, cur ≤ x → x < (vas.region p).stop →
              (vas.Grants type x ↔ (vas.region p).Grants type x) := by
            intro x hx hxs
            exact Around.grants_iff hw ⟨hp.mem, hp.lower.trans hx, hxs⟩
          show ∃ res, (if checkFound addr size type (vas.region p) ≠ .okay then _ else _) = _ ∧ _
          split
          next hrefused =>
            refine ⟨_, rfl, iff_of_false hrefused fun h => hrefused (hfound.mpr ?_)⟩
            intro x hx hxe hxs
            exact (hhere x hx hxs).mp (h x hx hxe)
          next hokay =>
            have hgrants := hfound.mp (not_not.mp hokay)
            rw [Word.add_of_lt hwrap]
            split
            next hmore =>
              have hmore' : (vas.region p).stop < addr + size := hmore
              have hcount : countAbove (vas.region p).stop vas.regions <
                  countAbove cur vas.regions := by
                obtain ⟨A, B, f⟩ := hw.focus hp.mem
                have ht := f.tiles
                rw [f.regions] at ht ⊢
                exact Vas.countAbove_lt ht ⟨hp.lower, hp.upper⟩
              have hupp' := hp.upper
              obtain ⟨res, h1, h2⟩ := ih (vas.region p).stop (by omega) (by omega) hmore'
                fun q hq hlt => absurd (hw.start_of_stop hp hq) (Nat.ne_of_lt hlt)
              refine ⟨res, h1, h2.trans ⟨fun h x hx hxe => ?_, fun h x hx => h x (by omega)⟩⟩
              rcases Nat.lt_or_ge x (vas.region p).stop with hxs | hxs
              · exact (hhere x hx hxs).mpr (hgrants x hx hxe hxs)
              · exact h x hxs hxe
            next hdone =>
              have hdone' : addr + size ≤ (vas.region p).stop := Nat.le_of_not_lt hdone
              refine ⟨_, rfl, iff_of_true rfl fun x hx hxe => ?_⟩
              exact (hhere x hx (by omega)).mpr (hgrants x hx hxe (by omega))

/-- A check returns, and lets the range through exactly if every byte of it may be
touched. -/
theorem Inv.checkRegion_okay_iff (hinv : vas.Inv lo hi) (hok : vas.CacheOk)
    (hlo : pageSize ≤ lo) (hhi : hi + pageSize < 2 ^ 64)
    (haddr : addr ≥ Vmm.userlandStart ∧ addr < Vmm.userlandEnd ∨
      addr ≥ Vmm.kernelStart ∧ addr < Vmm.kernelEnd)
    (hfree : has type MemoryCheckType.free = false) (hsize : 0 < size)
    (hwrap : addr + size < 2 ^ 64) :
    ∃ res, vas.checkMemoryRegion addr size type = some res ∧
      (res = .okay ↔ ∀ x, addr ≤ x → x < addr + size → vas.Grants type x) := by
  have hcount := countAbove_le_length addr vas
  obtain ⟨res, h1, h2⟩ := checkFrom_okay_iff hinv hlo hhi hfree hwrap
    (vas.tree.inorder.length + 1) addr (by omega) (Nat.le_refl _) (by omega) fun _ _ _ => rfl
  refine ⟨res, ?_, h2⟩
  rw [hok.checkMemoryRegion_eq hinv.wf, checkMemoryRegion, if_neg (not_not.mpr haddr)]
  show vas.uncached.checkFrom addr size type (vas.uncached.tree.inorder.length + 1) addr = _
  rw [checkFrom_uncached]
  exact h1

end Check

/-! ## Runs -/

/-- The states that sane requests and faults reach from a fresh address space over
`[start, stop)`, whatever becomes of the cache. -/
inductive FaultRun (start stop : Nat) : Vas → Prop
  | initialized {alloc : NodeAllocator} (mem : Ptr → MemoryRegion) : alloc.Succeeds →
      FaultRun start stop (initialized alloc mem start stop).2
  | call {alloc : NodeAllocator} {vas vas' : Vas} {req : Request} {res : HandleResult} :
      FaultRun start stop vas → req.Typed → vas.Sane alloc req →
      vas.perform alloc req = some (res, vas') → FaultRun start stop vas'
  | fault {vas : Vas} (frame : Option Nat) (vaddr : Nat) (flags : PageFaultFlags) :
      FaultRun start stop vas → FaultRun start stop (vas.handlePageFault frame vaddr flags).2

section Runs

variable {start stop : Nat} {vas : Vas}

/-- A fault changes nothing but the cache, even if the cache is out of order. -/
theorem Inv.handlePageFault (hinv : vas.Inv start stop) (frame : Option Nat) (vaddr : Nat)
    (flags : PageFaultFlags) : (vas.handlePageFault frame vaddr flags).2.Inv start stop := by
  have hcache : ∀ p, ({ vas with lastSearched := p } : Vas).Inv start stop :=
    fun p => ⟨⟨hinv.threaded.links, hinv.threaded.first⟩, hinv.regions⟩
  unfold Vas.handlePageFault
  split
  next => exact hinv
  next =>
    split
    next => exact hinv
    next =>
      split
      next => exact hinv
      next p hp =>
        split
        next => exact hinv
        next =>
          split
          next => exact hinv
          next => exact hcache _

theorem SizedRun.faultRun (hr : SizedRun start stop vas) : FaultRun start stop vas := by
  induction hr with
  | initialized mem hs => exact .initialized mem hs
  | call _ hreq hsane hcall ih => exact .call ih hreq hsane hcall

theorem FaultRun.inv (hr : FaultRun start stop vas) (h0 : 0 < start) (h1 : start < stop)
    (h2 : stop < 2 ^ 64) : vas.Inv start stop := by
  induction hr with
  | initialized mem hs => exact initialized_inv hs mem h1
  | call _ hreq hsane hcall ih => exact ih.perform_of_sane h0 h1 h2 hreq hsane hcall
  | fault frame vaddr flags _ ih => exact ih.handlePageFault frame vaddr flags

end Runs

end Vas

/-! ## The gate -/

namespace Vmm

open Vas

/-- The address space that a check looks an address up in. -/
def checkedVas (user kernel : Vas) (addr : Nat) : Option Vas :=
  if addr ≥ userlandStart ∧ addr < userlandEnd then some user
  else if addr ≥ kernelStart ∧ addr < kernelEnd then some kernel
  else none

/-- `Vmm::CheckMemoryRegion`, for a process with the address space `user`. -/
def checkMemoryRegion (user kernel : Vas) (addr size : Nat) (type : MemoryCheckType) :
    Option HandleResult :=
  match checkedVas user kernel addr with
  | none => some .argumentOutOfRange
  | some vas => vas.checkMemoryRegion addr size type

/-- Every check returns, and lets a range through exactly if there is an address space to
look it up in and every byte lies in a region there that grants the access. -/
theorem checkMemoryRegion_okay_iff {user kernel : Vas}
    (huser : FaultRun userlandStart userlandEnd user) (huser' : user.CacheOk)
    (hkernel : FaultRun kernelStart kernelEnd kernel) (hkernel' : kernel.CacheOk)
    (addr size : Nat) (type : MemoryCheckType) (hsize : 0 < size) (hwrap : addr + size < 2 ^ 64)
    (hfree : has type MemoryCheckType.free = false) :
    ∃ res, checkMemoryRegion user kernel addr size type = some res ∧
      (res = .okay ↔ ∃ vas ∈ checkedVas user kernel addr,
        ∀ x, addr ≤ x → x < addr + size → vas.Grants type x) := by
  unfold checkMemoryRegion checkedVas
  split_ifs with hu hk
  · simpa using (huser.inv (by decide) (by decide) (by decide)).checkRegion_okay_iff huser'
      (by decide) (by decide) (Or.inl hu) hfree hsize hwrap
  · simpa using (hkernel.inv (by decide) (by decide) (by decide)).checkRegion_okay_iff
      hkernel' (by decide) (by decide) (Or.inr hk) hfree hsize hwrap
  · exact ⟨_, rfl, by simp⟩

/-- A userland process with one page that is filled on demand, after a fault on it. -/
def demandPage : Vas :=
  (((performAll unlimited [.allocate 0x201000 0x1000 (MemoryFlags.userland ||| MemoryFlags.writable)
    .generic MemoryAllocationOptions.allocateOnDemand] (fresh userlandStart userlandEnd)).getD
      (fresh userlandStart userlandEnd)).handlePageFault (some 0) 0x201000 0).2

theorem faultRun_demandPage :
    FaultRun userlandStart userlandEnd demandPage ∧ demandPage.CacheOk := by
  have hsome : (performAll unlimited [.allocate 0x201000 0x1000
      (MemoryFlags.userland ||| MemoryFlags.writable) .generic
      MemoryAllocationOptions.allocateOnDemand] (fresh userlandStart userlandEnd)).isSome := by
    decide
  obtain ⟨vas, hvas⟩ := Option.isSome_iff_exists.mp hsome
  have hreach : Reachable userlandStart userlandEnd vas :=
    .of_performAll unlimited_succeeds (by decide) (.of_fresh _ _) hvas
  have hnone := (hreach.cachedRun (by decide) (by decide) (by decide)).2
  rw [demandPage, hvas]
  refine ⟨.fault _ _ _ (hreach.sizedRun (by decide) (by decide) (by decide)).faultRun,
    handlePageFault_cacheOk _ _ _ fun p hp => ?_⟩
  rw [Option.getD_some, hnone] at hp
  cases hp

/-- Userland may read the page, which the check finds in the cache. -/
theorem checkMemoryRegion_okay_iff_page :
    (demandPage.cached 0x201000).isSome ∧
      checkMemoryRegion demandPage (fresh kernelStart kernelEnd) 0x201000 0x1000
        MemoryCheckType.userland = some .okay ∧
      ∃ vas ∈ checkedVas demandPage (fresh kernelStart kernelEnd) 0x201000,
        ∀ x, 0x201000 ≤ x → x < 0x201000 + 0x1000 → vas.Grants MemoryCheckType.userland x := by
  have hcached : (demandPage.cached 0x201000).isSome := by decide
  have hokay : checkMemoryRegion demandPage (fresh kernelStart kernelEnd) 0x201000 0x1000
      MemoryCheckType.userland = some .okay := by decide
  obtain ⟨res, h1, h2⟩ := checkMemoryRegion_okay_iff faultRun_demandPage.1 faultRun_demandPage.2
    (.initialized blankMemory unlimited_succeeds) (fun _ h => by cases h) 0x201000 0x1000
    MemoryCheckType.userland (by decide) (by decide) (by decide)
  exact ⟨hcached, hokay, h2.mp (Option.some.inj (h1.symm.trans hokay))⟩

end Vmm

end Beelzebub.Memory
