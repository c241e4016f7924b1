import Beelzebub.Memory.Faults
import Beelzebub.Memory.MapFailures

/-!
# Pages on demand

`Vmm::HandlePageFault` looks up the region of the address, takes a frame, and maps it.  Only
the regions that are filled on demand get a page, and none of their guard pages does.  What
becomes of the mapping is not reported: if there is no memory for a table, the frame is given
back, and the fault counts as handled (`Starved`).
-/

namespace Beelzebub.Memory

open VmmArc PmlEntry
open MemoryAllocationOptions (guardLow guardHigh strategyMask allocateOnDemand)

/-! ## Regions that get a page -/

namespace Vas

/-- The checks of `Vmm::HandlePageFault`: the region whose page is to be mapped. -/
def accept (vaddr : Nat) (flags : PageFaultFlags) (vas : Vas) : Except HandleResult Ptr :=
  if has flags PageFaultFlags.present then .error .failed
  else if ¬((vaddr ≥ Vmm.userlandStart ∧ vaddr ≤ Vmm.userlandEnd)
      ∨ (vaddr ≥ Vmm.kernelStart ∧ vaddr ≤ Vmm.kernelEnd)) then .error .failed
  else
    match vas.faultRegion vaddr with
    | .error res => .error res
    | .ok p =>
        if hitsGuard (vas.mem p).toRegion vaddr then .error .pageGuard
        else if forbids (vas.mem p).toRegion flags then .error .failed
        else .ok p

/-- What the handler does to the address space. -/
theorem handlePageFault_eq (frame : Option Nat) (vaddr : Nat) (flags : PageFaultFlags)
    (vas : Vas) : vas.handlePageFault frame vaddr flags =
      match vas.accept vaddr flags with
      | .error res => (res, vas)
      | .ok p =>
          (if frame = none then .outOfMemory else .okay, { vas with lastSearched := some p }) := by
  unfold handlePageFault accept
  split
  next => rfl
  next =>
    split
    next => rfl
    next =>
      cases vas.faultRegion vaddr with
      | error res => rfl
      | ok p =>
          dsimp only
          split
          next => rfl
          next =>
            split
            next => rfl
            next => rfl

/-- The region around an address that is filled on demand there, for an access like this. -/
structure Permits (vas : Vas) (p : Ptr) (v : Nat) (flags : PageFaultFlags) : Prop where
  around : vas.Around v p
  used : (vas.region p).content ≠ .free
  strategy : (vas.region p).type &&& strategyMask = allocateOnDemand
  lowGuard : has (vas.region p).type guardLow = true →
    (vas.region p).start + pageSize ≤ v - v % pageSize
  highGuard : has (vas.region p).type guardHigh = true →
    v - v % pageSize + pageSize < (vas.region p).stop
  executable : has flags PageFaultFlags.execute = true →
    has (vas.region p).flags MemoryFlags.executable = true
  userland : has flags PageFaultFlags.userland = true →
    has (vas.region p).flags MemoryFlags.userland = true

/-- A fault at a page that is not present, in a part of memory that is filled on demand. -/
def Served (v : Nat) (flags : PageFaultFlags) : Prop :=
  has flags PageFaultFlags.present = false ∧
    ((v ≥ Vmm.userlandStart ∧ v ≤ Vmm.userlandEnd) ∨ (v ≥ Vmm.kernelStart ∧ v ≤ Vmm.kernelEnd))

variable {vas : Vas} {p : Ptr} {v lo hi : Nat} {flags : PageFaultFlags} {res : HandleResult}

theorem hitsGuard_eq_false {reg : Region} (hlow : reg.start + pageSize < 2 ^ 64)
    (hhigh : pageSize ≤ reg.stop) (hstop : reg.stop < 2 ^ 64) :
    hitsGuard reg v = false ↔
      (has reg.type guardLow = true → reg.start + pageSize ≤ v - v % pageSize) ∧
        (has reg.type guardHigh = true → v - v % pageSize + pageSize < reg.stop) := by
  have hadd : Word.add reg.range.start pageSize = reg.start + pageSize := Word.add_of_lt hlow
  have hsub : Word.sub reg.range.stop pageSize = reg.stop - pageSize :=
    Word.sub_of_le hstop hhigh
  unfold hitsGuard
  rw [hadd, hsub]
  simp [not_lt]

@[simp] theorem forbids_eq_false {reg : Region} : forbids reg flags = false ↔
    (has flags PageFaultFlags.execute = true → has reg.flags MemoryFlags.executable = true) ∧
      (has flags PageFaultFlags.userland = true → has reg.flags MemoryFlags.userland = true) := by
  simp [forbids]

theorem faultRegion_eq_ok_iff (hw : vas.Wf lo hi) (hok : vas.CacheOk) :
    vas.faultRegion v = .ok p ↔ vas.Around v p ∧ (vas.region p).content ≠ .free ∧
      (vas.region p).type &&& strategyMask = allocateOnDemand := by
  constructor
  · intro h
    obtain ⟨haround, hkind⟩ := around_of_faultRegion hok h
    exact ⟨haround, hkind.used, hkind.strategy_region⟩
  · rintro ⟨haround, hused, hstrategy⟩
    have hfind : vas.uncached.findRegion v = some p := hw.findRegion_eq_some haround
    have hnone : vas.uncached.cached v = none := rfl
    have hused' : (vas.uncached.mem p).content ≠ .free := hused
    have hstrategy' : (vas.uncached.mem p).type &&& strategyMask = allocateOnDemand := hstrategy
    rw [hok.faultRegion_eq hw]
    unfold faultRegion
    rw [hnone, hfind]
    simp only
    rw [if_neg hused', if_neg (not_not.mpr hstrategy')]

/-- The guard pages of a region around an address at which faults are served. -/
theorem guards_of_served (hw : vas.Wf lo hi) (hhi : hi < 2 ^ 64) (haround : vas.Around v p)
    (hserved : Served v flags) : hitsGuard (vas.region p) v = false ↔
      (has (vas.region p).type guardLow = true →
        (vas.region p).start + pageSize ≤ v - v % pageSize) ∧
      (has (vas.region p).type guardHigh = true →
        v - v % pageSize + pageSize < (vas.region p).stop) := by
  have hmem : vas.region p ∈ vas.regions := List.mem_map_of_mem haround.mem
  obtain ⟨-, -, hstop⟩ := hw.tiles.bounds hmem
  have hlower := haround.lower
  have hupper := haround.upper
  have hv : Vmm.userlandStart ≤ v ∧ v ≤ Vmm.kernelEnd := by
    obtain ⟨-, hv | hv⟩ := hserved
    · exact ⟨hv.1, Nat.le_trans hv.2 (by decide)⟩
    · exact ⟨Nat.le_trans (by decide) hv.1, hv.2⟩
  unfold Vmm.userlandStart Vmm.kernelEnd at hv
  refine hitsGuard_eq_false ?_ ?_ (by omega)
  · unfold pageSize
    omega
  · unfold pageSize
    omega

/-- A fault is admitted exactly if it is served and its region permits it. -/
theorem accept_eq_ok_iff (hw : vas.Wf lo hi) (hhi : hi < 2 ^ 64) (hok : vas.CacheOk) :
    vas.accept v flags = .ok p ↔ Served v flags ∧ vas.Permits p v flags := by
  constructor
  · intro h
    unfold accept at h
    split at h
    next => cases h
    next hpresent =>
      split at h
      next => cases h
      next hrange =>
        split at h
        next => cases h
        next q hregion =>
          split at h
          next => cases h
          next hguard =>
            split at h
            next => cases h
            next hforbids =>
              cases h
              have hserved : Served v flags := ⟨Bool.eq_false_iff.mpr hpresent, not_not.mp hrange⟩
              obtain ⟨haround, hused, hstrategy⟩ := (faultRegion_eq_ok_iff hw hok).mp hregion
              obtain ⟨hlow, hhigh⟩ := (guards_of_served hw hhi haround hserved).mp
                (Bool.eq_false_iff.mpr hguard)
              obtain ⟨hexecute, huser⟩ := forbids_eq_false.mp (Bool.eq_false_iff.mpr hforbids)
              exact ⟨hserved, haround, hused, hstrategy, hlow, hhigh, hexecute, huser⟩
  · rintro ⟨hserved, h⟩
    have hguard : hitsGuard (vas.mem p).toRegion v = false :=
      (guards_of_served hw hhi h.around hserved).mpr ⟨h.lowGuard, h.highGuard⟩
    have hforbids : forbids (vas.mem p).toRegion flags = false :=
      forbids_eq_false.mpr ⟨h.executable, h.userland⟩
    unfold accept
    rw [if_neg (Bool.eq_false_iff.mp hserved.1), if_neg (not_not.mpr hserved.2),
      (faultRegion_eq_ok_iff hw hok).mpr ⟨h.around, h.used, h.strategy⟩]
    simp only [hguard, hforbids, Bool.false_eq_true, if_false]

theorem faultRegion_ne_okay : vas.faultRegion v ≠ .error .okay := by
  intro h
  unfold faultRegion at h
  repeat' split at h
  all_goals cases h

/-- A fault that is turned down is not reported as handled. -/
theorem accept_ne_okay : vas.accept v flags ≠ .error .okay := by
  intro h
  unfold accept at h
  split at h
  next => cases h
  next =>
    split at h
    next => cases h
    next =>
      split at h
      next res hregion =>
        cases h
        exact faultRegion_ne_okay hregion
      next =>
        repeat' split at h
        all_goals cases h

end Vas

/-! ## The code -/

namespace Tables

/-- `memset` of the page around an address, one byte repeated in all of its words. -/
def wipe (root vaddr : Nat) (word : PmlEntry) (t : Tables) : Tables :=
  match t.translate root vaddr with
  | none => t
  | some (paddr, _) => { t with mem := Radix.fill t.mem (paddr - paddr % pageSize) word }

variable {t t' t₁ : Tables} {as : AddressSpaces} {s s' : Space} {nx : Bool} {flags : MemoryFlags}
  {v v' f n k paddr root : Nat} {pmm pmm' : Pmm}

@[simp] theorem pmm_wipe (root v : Nat) (word : PmlEntry) (t : Tables) :
    (t.wipe root v word).pmm = t.pmm := by
  unfold wipe
  split
  next => rfl
  next => rfl

/-- A page whose frame is not a table can be overwritten. -/
theorem translate_wipe {word : PmlEntry} {access : Access} (h : t.Shaped as)
    (hpage : t.translate root v = some (f, access)) (haligned : f % pageSize = 0)
    (hunused : as.forest.Unused link t.mem f) (hs' : as.Known s') (hv' : s'.Covers v') :
    (t.wipe root v word).translate (as.root s') v' = t.translate (as.root s') v' := by
  have hsame : ∀ g, g ≠ f → (t.wipe root v word).mem g = t.mem g := by
    intro g hg
    unfold wipe
    rw [hpage]
    simp only [haligned, Nat.sub_zero]
    exact Function.update_of_ne hg _ _
  exact translate_outside hunused hsame h hs' hv'

/-- The frame of a page that is entered is not a table afterwards. -/
theorem Entered.unused {size : FrameSize} (hsize : size = ._4KiB ∨ size = ._2MiB)
    (hentered : Entered as s v size (page nx paddr flags (size == ._2MiB)) t t₁ t' f)
    (hunused : as.forest.Unused link t.mem n) (htaken : ¬t.pmm.FreeAt n) :
    as.forest.Unused link t'.mem n := by
  intro s' q j f' hpos heq
  subst heq
  rw [hentered.entry] at hpos
  have hold := holds_store hentered.grown.grounded.toShaped hentered.slot (hentered.keeps hsize)
    hpos
  rcases hentered.grown.fresh hold with hbefore | hfree
  · exact hunused hbefore rfl
  · exact htaken hfree

/-- Taking frames for other purposes does not touch the tables. -/
theorem Grounded.keeps (h : t.Grounded as) (hsound : pmm.Sound)
    (hkeeps : ∀ a, pmm.FreeAt a → t.pmm.FreeAt a) : Grounded { t with pmm } as where
  separate := h.separate
  upper := h.upper
  sound := hsound
  roots hs hfree := h.roots hs (hkeeps _ hfree)
  tables hpos hlength hlink hfree := h.tables hpos hlength hlink (hkeeps _ hfree)

theorem grant_uses {g : Allocation} {c : Nat} (hsound : pmm.Sound) (h : grant n pmm = some pmm')
    (hu : pmm.Uses g c) : pmm'.Sound ∧ pmm'.Uses g c := by
  induction n generalizing pmm with
  | zero =>
      cases h
      exact ⟨hsound, hu⟩
  | succ n ih =>
      rw [grant] at h
      simp only at h
      split at h
      next => cases h
      next hne =>
        obtain ⟨hsound', ⟨hzero, -⟩ | ⟨-, htakes⟩⟩ := hsound.allocateFrame ._4KiB 1
        · exact absurd hzero hne
        · exact ih hsound' h ((htakes.uses _ _).mpr (Or.inl hu))

/-- The first reference to a frame. -/
theorem adjust_first (hsound : pmm.Sound)
    (hu : pmm.Uses { address := paddr, size := ._4KiB } 0) :
    (pmm.adjustReferenceCount paddr 1).1 = .okay ∧
      (pmm.adjustReferenceCount paddr 1).2.Uses { address := paddr, size := ._4KiB } 1 := by
  obtain ⟨hokay, -, -, hcount⟩ := hsound.adjustReferenceCount hu (show (1 : Int) ≠ 0 by decide)
  refine ⟨hokay, ?_⟩
  exact ((hcount (by decide)).uses _ _).mpr (by rw [if_pos rfl]; decide)

theorem Vacant.not_misread {size : FrameSize} (h : t.Vacant root v size) :
    ¬t.Misread root v size := by
  rintro ⟨-, h4, h3, h2, hlarge, -⟩
  rcases h with hn | hn | hn | ⟨-, hn, -⟩
  · exact hn h4
  · exact hn h3
  · exact hn h2
  · exact hn hlarge

/-- A small page that is not vacant is mapped. -/
theorem translate_ne_none_of_taken (h : ¬t.Vacant root v ._4KiB) : t.translate root v ≠ none := by
  rw [Ne, translate_eq_none_iff, not_not]
  simp only [Vacant, not_or, not_not, not_and] at h
  obtain ⟨h4, h3, h2, h1⟩ := h
  refine ⟨h4, h3, h2, or_iff_not_imp_left.mpr fun hsmall => h1 trivial hsmall⟩

/-- A page is mapped as a whole. -/
theorem translate_ne_none_page (hv : v % pageSize = 0) (hk : k < pageSize)
    (h : t.translate root v ≠ none) : (t.translate root (v + k)).isSome := by
  rw [Option.isSome_iff_ne_none]
  rw [translate_eq_resolve, Ne, Option.map_eq_none_iff] at h ⊢
  rwa [translateInternal_small t root hv hk]

section Fresh

variable (h : t.Grounded as) (hs : as.Known (Space.ofAddress as.active v))
  (hlegal : ¬Illegal v) (hv : (Space.ofAddress as.active v).Covers v) (haligned : v % pageSize = 0)
  (hu : t.pmm.Uses { address := paddr, size := ._4KiB } 0)

include h hs hlegal hv haligned hu

/-- Mapping a frame that has just been taken. -/
theorem mapPage_fresh (nx : Bool) (flags : MemoryFlags) :
    (∃ t₁ f t', t.Vacant (as.root (Space.ofAddress as.active v)) v ._4KiB ∧
        grant (t.needed (as.root (Space.ofAddress as.active v)) v ._4KiB) t.pmm = some t₁.pmm ∧
        Entered as (Space.ofAddress as.active v) v ._4KiB (page nx paddr flags false) t t₁ t' f ∧
        (t'.pmm.adjustReferenceCount paddr 1).2.Uses { address := paddr, size := ._4KiB } 1 ∧
        t.mapPage as nx as.active v paddr ._4KiB flags true =
          some (.okay, { t' with pmm := (t'.pmm.adjustReferenceCount paddr 1).2 })) ∨
      (t.Vacant (as.root (Space.ofAddress as.active v)) v ._4KiB ∧
        grant (t.needed (as.root (Space.ofAddress as.active v)) v ._4KiB) t.pmm = none ∧
        ∃ t', t.mapPage as nx as.active v paddr ._4KiB flags true = some (.outOfMemory, t') ∧
          (Grown as t t' ∨ Pmm.Same t.pmm t'.pmm)) ∨
      (¬t.Vacant (as.root (Space.ofAddress as.active v)) v ._4KiB ∧
        ¬t.Misread (as.root (Space.ofAddress as.active v)) v ._4KiB ∧
        t.mapPage as nx as.active v paddr ._4KiB flags true = some (.pageMapped, t)) ∨
      (t.Misread (as.root (Space.ofAddress as.active v)) v ._4KiB ∧
        ∃ t', t'.pmm.Uses { address := paddr, size := ._4KiB } 1 ∧
          t.mapPage as nx as.active v paddr ._4KiB flags true = some (.okay, t')) := by
  have hpaddr : paddr % pageSize = 0 := (h.sound.uses_bounds hu).2.2.1
  have halign : checkAlignment v paddr ._4KiB = some .okay := by
    simp [checkAlignment, is4KiBAligned, haligned, hpaddr]
  -- the allocator knows the frame, so its reference is counted
  have hokay : ∀ {t' : Tables},
      t.mapPageInternal nx (as.root (Space.ofAddress as.active v)) v paddr ._4KiB flags =
        (.okay, t') →
      t'.pmm.Sound → t'.pmm.Uses { address := paddr, size := ._4KiB } 0 →
      (t'.pmm.adjustReferenceCount paddr 1).2.Uses { address := paddr, size := ._4KiB } 1 ∧
        t.mapPage as nx as.active v paddr ._4KiB flags true =
          some (.okay, { t' with pmm := (t'.pmm.adjustReferenceCount paddr 1).2 }) := by
    intro t' hmap hsound hu'
    obtain ⟨hres, hcounted⟩ := adjust_first hsound hu'
    refine ⟨hcounted, ?_⟩
    rw [mapPage_of_okay hlegal halign hmap, hres]
    rfl
  rcases mapPageInternal_cases h hs hv (Or.inl rfl) nx paddr flags with
    ⟨hvacant, t₁, f, t', hmap, hgrant, hentered⟩ | ⟨hvacant, -, hnone, t', hmap, hgrown⟩ |
    ⟨htorn, n, pmm, -, -, hsame, hmap⟩ | ⟨hvacant, hmisread, hmap⟩ | ⟨hmisread, hmap⟩
  · obtain ⟨hsound, hu₁⟩ := grant_uses h.sound hgrant hu
    have hpmm : t'.pmm = t₁.pmm := by
      rw [hentered.entry]
      rfl
    obtain ⟨hcounted, hcall⟩ := hokay hmap (hpmm ▸ hsound) (hpmm ▸ hu₁)
    exact Or.inl ⟨t₁, f, t', hvacant, hgrant, hentered, hcounted, hcall⟩
  · exact Or.inr (Or.inl ⟨hvacant, hnone, t',
      mapPage_of_failure hlegal halign hmap (by simp), Or.inl hgrown⟩)
  · exact Or.inr (Or.inl ⟨Or.inl htorn.1, htorn.grant_needed _, _,
      mapPage_of_failure hlegal halign hmap (by simp), Or.inr hsame⟩)
  · exact Or.inr (Or.inr (Or.inl ⟨hvacant, hmisread,
      mapPage_of_failure hlegal halign hmap (by simp)⟩))
  · obtain ⟨hcounted, hcall⟩ := hokay hmap h.sound hu
    exact Or.inr (Or.inr (Or.inr ⟨hmisread, _, hcounted, hcall⟩))

end Fresh

end Tables

namespace Vmm

/-- The address spaces of the running process and of the kernel, and the page tables. -/
structure State where
  user : Vas
  kernel : Vas
  t : Tables

namespace State

/-- The address space that an address is looked up in. -/
def vas (vaddr : Nat) (m : State) : Vas := if vaddr < userlandEnd then m.user else m.kernel

/-- Sets the region that the next lookup tries first. -/
def setLastSearched (vaddr : Nat) (p : Ptr) (m : State) : State :=
  if vaddr < userlandEnd then { m with user := { m.user with lastSearched := some p } }
  else { m with kernel := { m.kernel with lastSearched := some p } }

/-- The page that is new to userland is cleared.  If it cannot be written to, it is filled
with a pattern. -/
def terminate (as : AddressSpaces) (vaddr : Nat) (flags : MemoryFlags) (t : Tables) : Tables :=
  if vaddr < kernelStart then
    t.wipe as.active (vaddr - vaddr % pageSize)
      (if has flags MemoryFlags.writable then 0 else 0xCACACACACACACACA)
  else t

/-- `Vmm::HandlePageFault` for the running process. -/
def handlePageFault (as : AddressSpaces) (nx : Bool) (vaddr : Nat) (flags : PageFaultFlags)
    (m : State) : Option (HandleResult × State) :=
  match (m.vas vaddr).accept vaddr flags with
  | .error res => some (res, m)
  | .ok p =>
      let reg := ((m.vas vaddr).mem p).toRegion
      let m := m.setLastSearched vaddr p
      let (paddr, pmm) := m.t.pmm.allocateFrame ._4KiB 0
      let t : Tables := { m.t with pmm }
      if paddr = 0 then some (.outOfMemory, { m with t })
      else
        (t.mapPage as nx as.active (vaddr - vaddr % pageSize) paddr ._4KiB reg.flags true).map
          fun (res, t) =>
            if res ≠ .okay then
              (.okay, { m with t := { t with pmm := (t.pmm.freeFrame paddr true).2 } })
            else (.okay, { m with t := terminate as vaddr reg.flags t })

/-! ## What a fault is for -/

/-- An address that showed nothing shows something. -/
def Adds (as : AddressSpaces) (t t' : Tables) : Prop :=
  ∃ s v, as.Known s ∧ s.Covers v ∧ t.translate (as.root s) v = none ∧
    (t'.translate (as.root s) v).isSome

/-- What a fault may change, and what it must have done. -/
structure Demanded (as : AddressSpaces) (nx : Bool) (vaddr : Nat) (flags : PageFaultFlags)
    (m : State) (res : HandleResult) (m' : State) : Prop where
  /-- Only the page of the fault changes.  Its region permits it, and it shows a frame that
  was free, with the flags of the region. -/
  mapped : ∀ {s v}, as.Known s → s.Covers v →
    m'.t.translate (as.root s) v ≠ m.t.translate (as.root s) v →
    s = Space.ofAddress as.active vaddr ∧ v - v % pageSize = vaddr - vaddr % pageSize ∧
    ∃ p paddr, (m.vas vaddr).Permits p vaddr flags ∧ m.t.pmm.FreeAt paddr ∧
      m'.t.pmm.Uses { address := paddr, size := ._4KiB } 1 ∧
      m'.t.translate (as.root s) v =
        some (paddr + v % pageSize, requested nx ((m.vas vaddr).region p).flags)
  okay : res = .okay → ∀ k < pageSize,
    (m'.t.translate (as.root (Space.ofAddress as.active vaddr))
      (vaddr - vaddr % pageSize + k)).isSome
  /-- Without a new mapping the same frames are in use as before, and the one that was to be
  mapped is free. -/
  restored : ¬Adds as m.t m'.t → (∀ f c, m'.t.pmm.Uses f c ↔ m.t.pmm.Uses f c) ∧
    ((m.t.pmm.allocateFrame ._4KiB 0).1 ≠ 0 →
      m'.t.pmm.FreeAt (m.t.pmm.allocateFrame ._4KiB 0).1)

/-- The frame for the page can be had, but the tables for it cannot, or a large page around it
is taken for a table. -/
def Mishandles (as : AddressSpaces) (vaddr : Nat) (flags : PageFaultFlags) (m : State) : Prop :=
  let root := as.root (Space.ofAddress as.active vaddr)
  let page := vaddr - vaddr % pageSize
  let (paddr, pmm) := m.t.pmm.allocateFrame ._4KiB 0
  Vas.Served vaddr flags ∧ (∃ p, (m.vas vaddr).Permits p vaddr flags) ∧ paddr ≠ 0 ∧
    (m.t.Misread root page ._4KiB ∨
      m.t.Vacant root page ._4KiB ∧ Tables.grant (m.t.needed root page ._4KiB) pmm = none)

/-- The state between faults. -/
structure Ok (as : AddressSpaces) (m : State) : Prop where
  tables : m.t.Wf as
  active : as.active ∈ as.pagingTables
  user : ∃ lo hi, m.user.Wf lo hi ∧ hi < 2 ^ 64
  kernel : ∃ lo hi, m.kernel.Wf lo hi ∧ kernelStart ≤ lo ∧ hi ≤ kernelEnd
  userCache : m.user.CacheOk
  kernelCache : m.kernel.CacheOk

/-- Runs of calls and faults lead to such states. -/
theorem Ok.of_runs {as : AddressSpaces} {m : State} {lo hi lo' hi' : Nat} (htables : m.t.Wf as)
    (hactive : as.active ∈ as.pagingTables) (huser : Vas.CachedRun lo hi m.user)
    (hkernel : Vas.CachedRun lo' hi' m.kernel) (h0 : 0 < lo) (h1 : lo < hi) (h2 : hi < 2 ^ 64)
    (h0' : kernelStart ≤ lo') (h1' : lo' < hi') (h2' : hi' ≤ kernelEnd) : m.Ok as := by
  have hpos : 0 < lo' := Nat.lt_of_lt_of_le (by decide) h0'
  have hbound : hi' < 2 ^ 64 := Nat.lt_of_le_of_lt h2' (by decide)
  obtain ⟨hinv, hok⟩ := huser.inv h0 h1 h2
  obtain ⟨hinv', hok'⟩ := hkernel.inv hpos h1' hbound
  exact ⟨htables, hactive, ⟨lo, hi, hinv.wf, h2⟩, ⟨lo', hi', hinv'.wf, h0', h2'⟩, hok, hok'⟩

variable {as : AddressSpaces} {m m' : State} {p : Ptr} {nx : Bool} {v : Nat}
  {flags : PageFaultFlags} {res : HandleResult}

theorem Ok.vas (h : m.Ok as) (v : Nat) :
    (∃ lo hi, (m.vas v).Wf lo hi ∧ hi < 2 ^ 64) ∧ (m.vas v).CacheOk := by
  unfold State.vas
  split
  next => exact ⟨h.user, h.userCache⟩
  next =>
    obtain ⟨lo, hi, hw, -, hhi⟩ := h.kernel
    exact ⟨⟨lo, hi, hw, Nat.lt_of_le_of_lt hhi (by decide)⟩, h.kernelCache⟩

theorem Ok.accept_eq_ok_iff (h : m.Ok as) : (m.vas v).accept v flags = .ok p ↔
    Vas.Served v flags ∧ (m.vas v).Permits p v flags := by
  obtain ⟨⟨lo, hi, hw, hhi⟩, hok⟩ := h.vas v
  exact Vas.accept_eq_ok_iff hw hhi hok

/-- The page of a fault that is admitted can be mapped. -/
theorem Ok.page (h : m.Ok as) (haround : (m.vas v).Around v p) :
    as.Known (Space.ofAddress as.active v) ∧ ¬Illegal (v - v % pageSize) ∧
      Space.ofAddress as.active (v - v % pageSize) = Space.ofAddress as.active v ∧
      (Space.ofAddress as.active v).Covers (v - v % pageSize) := by
  have hbounds : v < lowerHalfEnd ∨ kernelStart ≤ v ∧ v < kernelEnd := by
    by_cases hlow : v < userlandEnd
    · exact Or.inl hlow
    · unfold State.vas at haround
      rw [if_neg hlow] at haround
      obtain ⟨lo, hi, hw, hlo, hhi⟩ := h.kernel
      have hmem : m.kernel.region p ∈ m.kernel.regions := List.mem_map_of_mem haround.mem
      obtain ⟨hstart, -, hstop⟩ := hw.tiles.bounds hmem
      have hlower := haround.lower
      have hupper := haround.upper
      exact Or.inr ⟨by omega, by omega⟩
  have hknown : as.Known (Space.ofAddress as.active v) := by
    unfold Space.ofAddress
    split
    next => exact h.active
    next => trivial
  have hlegal : ¬Illegal (v - v % pageSize) := by
    unfold Illegal fractalEnd fractalStart alienFractalIndex higherHalfStart pageSize
    unfold lowerHalfEnd kernelStart kernelEnd at *
    omega
  have hsame : Space.ofAddress as.active (v - v % pageSize) = Space.ofAddress as.active v := by
    unfold Space.ofAddress pageSize
    unfold lowerHalfEnd kernelStart kernelEnd at *
    rcases hbounds with hlow | hhigh
    · rw [if_pos hlow, if_pos (by omega)]
    · rw [if_neg (by omega), if_neg (by omega)]
  refine ⟨hknown, hlegal, hsame, ?_⟩
  rw [← hsame]
  refine Space.covers_ofAddress _ ?_ hlegal
  unfold lowerHalfEnd kernelEnd at hbounds
  omega

/-! ## What the handler does -/

@[simp] theorem t_setLastSearched (v : Nat) (p : Ptr) (m : State) :
    (m.setLastSearched v p).t = m.t := by
  unfold setLastSearched
  split
  next => rfl
  next => rfl

section Admitted

variable {t' : Tables} (haccept : (m.vas v).accept v flags = .ok p)
  (hne : (m.t.pmm.allocateFrame ._4KiB 0).1 ≠ 0)

include haccept hne

/-- A fault whose page is mapped. -/
theorem handlePageFault_mapped
    (hmap : Tables.mapPage as nx as.active (v - v % pageSize) (m.t.pmm.allocateFrame ._4KiB 0).1
      ._4KiB ((m.vas v).region p).flags true
      { m.t with pmm := (m.t.pmm.allocateFrame ._4KiB 0).2 } = some (.okay, t')) :
    m.handlePageFault as nx v flags = some (.okay, { m.setLastSearched v p with
      t := terminate as v ((m.vas v).region p).flags t' }) := by
  unfold handlePageFault
  rw [haccept]
  simp only [t_setLastSearched, if_neg hne]
  rw [show ((m.vas v).mem p).toRegion.flags = ((m.vas v).region p).flags from rfl, hmap]
  rfl

/-- A fault whose page is not mapped. -/
theorem handlePageFault_failed (hres : res ≠ .okay)
    (hmap : Tables.mapPage as nx as.active (v - v % pageSize) (m.t.pmm.allocateFrame ._4KiB 0).1
      ._4KiB ((m.vas v).region p).flags true
      { m.t with pmm := (m.t.pmm.allocateFrame ._4KiB 0).2 } = some (res, t')) :
    m.handlePageFault as nx v flags = some (.okay, { m.setLastSearched v p with
      t := { t' with pmm := (t'.pmm.freeFrame (m.t.pmm.allocateFrame ._4KiB 0).1 true).2 } }) := by
  unfold handlePageFault
  rw [haccept]
  simp only [t_setLastSearched, if_neg hne]
  rw [show ((m.vas v).mem p).toRegion.flags = ((m.vas v).region p).flags from rfl, hmap,
    Option.map_some]
  simp only [if_pos hres]

end Admitted

theorem vas_setLastSearched (v : Nat) (p : Ptr) (m : State) (t : Tables) :
    ({ m.setLastSearched v p with t } : State).vas v =
      { m.vas v with lastSearched := some p } := by
  unfold vas setLastSearched
  split
  next => simp only
  next => simp only

/-- On the address space, and in its result, a fault is one without page tables. -/
theorem handlePageFault_vas (hcall : m.handlePageFault as nx v flags = some (res, m')) :
    (res, m'.vas v) = (m.vas v).handlePageFault
      (if (m.t.pmm.allocateFrame ._4KiB 0).1 = 0 then none
        else some (m.t.pmm.allocateFrame ._4KiB 0).1) v flags := by
  rw [Vas.handlePageFault_eq]
  unfold handlePageFault at hcall
  cases haccept : (m.vas v).accept v flags with
  | error res' =>
      rw [haccept] at hcall
      cases hcall
      rfl
  | ok p =>
      rw [haccept] at hcall
      simp only [t_setLastSearched] at hcall
      split at hcall
      next hzero =>
        cases hcall
        simp [hzero, vas_setLastSearched]
      next hne =>
        obtain ⟨out, -, hout⟩ := Option.map_eq_some_iff.mp hcall
        split at hout
        next =>
          cases hout
          simp [hne, vas_setLastSearched]
        next =>
          cases hout
          simp [hne, vas_setLastSearched]

theorem next_free (hsound : m.t.pmm.Sound) (hne : (m.t.pmm.allocateFrame ._4KiB 0).1 ≠ 0) :
    m.t.pmm.FreeAt (m.t.pmm.allocateFrame ._4KiB 0).1 := by
  obtain ⟨-, ⟨hzero, -⟩ | ⟨-, htakes⟩⟩ := hsound.allocateFrame ._4KiB 0
  · exact absurd hzero hne
  · exact htakes.free _ ⟨Nat.le_refl _, by simp [FrameSize.bytes]⟩

/-- A fault that is turned down changes no table and takes no frame. -/
theorem demanded_of_unchanged (hsound : m.t.pmm.Sound) (hres : res ≠ .okay) (ht : m'.t = m.t) :
    Demanded as nx v flags m res m' where
  mapped := by
    intro s v' _ _ hne
    rw [ht] at hne
    exact absurd rfl hne
  okay hokay := absurd hokay hres
  restored := by
    intro _
    rw [ht]
    exact ⟨fun _ _ => Iff.rfl, next_free hsound⟩

/-- The page of a fault. -/
theorem sub_mod_eq_of_lt {k : Nat} (hk : k < pageSize) :
    v - v % pageSize + k - (v - v % pageSize + k) % pageSize = v - v % pageSize := by
  unfold pageSize at *
  omega

@[simp] theorem pmm_terminate (as : AddressSpaces) (v : Nat) (flags : MemoryFlags) (t : Tables) :
    (terminate as v flags t).pmm = t.pmm := by
  unfold terminate
  split
  next => exact Tables.pmm_wipe ..
  next => rfl

/-- The kernel is mapped in the tables of the running process. -/
theorem root_ofAddress_active (as : AddressSpaces) (v : Nat) :
    as.root (Space.ofAddress as.active v) = as.active := by
  unfold Space.ofAddress
  split
  next => rfl
  next => rfl

theorem translate_terminate {t : Tables} {f v' : Nat} {s' : Space} {access : Access}
    (flags : MemoryFlags) (h : t.Shaped as)
    (hpage : t.translate (as.root (Space.ofAddress as.active v)) (v - v % pageSize) =
      some (f, access))
    (haligned : f % pageSize = 0) (hunused : as.forest.Unused Tables.link t.mem f)
    (hs' : as.Known s') (hv' : s'.Covers v') :
    (terminate as v flags t).translate (as.root s') v' = t.translate (as.root s') v' := by
  rw [root_ofAddress_active] at hpage
  unfold terminate
  split
  next =>
    exact Tables.translate_wipe h hpage haligned hunused hs' hv'
  next => rfl

/-- The page is new, shows the frame, and nothing else has changed. -/
theorem demanded_of_new {paddr : Nat} (hpermits : (m.vas v).Permits p v flags)
    (hfree : m.t.pmm.FreeAt paddr)
    (hcounted : m'.t.pmm.Uses { address := paddr, size := ._4KiB } 1)
    (hknown : as.Known (Space.ofAddress as.active v))
    (hcovers : (Space.ofAddress as.active v).Covers (v - v % pageSize))
    (hvacant : m.t.translate (as.root (Space.ofAddress as.active v)) (v - v % pageSize) = none)
    (hpage : ∀ k < pageSize, m'.t.translate (as.root (Space.ofAddress as.active v))
      (v - v % pageSize + k) = some (paddr + k, requested nx ((m.vas v).region p).flags))
    (hothers : ∀ {s v'}, as.Known s → s.Covers v' →
      ¬(s = Space.ofAddress as.active v ∧ v - v % pageSize ≤ v' ∧
        v' < v - v % pageSize + pageSize) →
      m'.t.translate (as.root s) v' = m.t.translate (as.root s) v') :
    Demanded as nx v flags m .okay m' where
  mapped := by
    intro s v' hs hv' hchanged
    by_cases hin : s = Space.ofAddress as.active v ∧ v - v % pageSize ≤ v' ∧
        v' < v - v % pageSize + pageSize
    · obtain ⟨rfl, hle, hlt⟩ := hin
      obtain ⟨k, rfl⟩ := Nat.exists_eq_add_of_le hle
      have hk : k < pageSize := by omega
      have hoffset : (v - v % pageSize + k) % pageSize = k := by
        unfold pageSize at *
        omega
      refine ⟨rfl, sub_mod_eq_of_lt hk, p, paddr, hpermits, hfree, hcounted, ?_⟩
      rw [hoffset]
      exact hpage k hk
    · exact absurd (hothers hs hv' hin) hchanged
  okay := by
    intro _ k hk
    rw [hpage k hk]
    rfl
  restored := by
    intro hnone
    refine absurd ⟨_, _, hknown, hcovers, hvacant, ?_⟩ hnone
    have hfirst := hpage 0 (by decide)
    rw [Nat.add_zero] at hfirst
    rw [hfirst]
    rfl

section Mapping

variable (h : m.Ok as) (hpermits : (m.vas v).Permits p v flags)
  (hne : (m.t.pmm.allocateFrame ._4KiB 0).1 ≠ 0)

include h hne

/-- The allocation of the frame for the page. -/
theorem Ok.takes : (m.t.pmm.allocateFrame ._4KiB 0).2.Sound ∧
    Pmm.Takes m.t.pmm (m.t.pmm.allocateFrame ._4KiB 0).2
      { address := (m.t.pmm.allocateFrame ._4KiB 0).1, size := ._4KiB } 0 := by
  obtain ⟨hsound, ⟨hzero, -⟩ | ⟨-, htakes⟩⟩ := h.tables.sound.allocateFrame ._4KiB 0
  · exact absurd hzero hne
  · exact ⟨hsound, htakes⟩

/-- The frame was not in use. -/
theorem Ok.fresh {c : Nat} : ¬m.t.pmm.Uses
    { address := (m.t.pmm.allocateFrame ._4KiB 0).1, size := ._4KiB } c := by
  intro hu
  exact h.tables.sound.not_freeAt hu ⟨Nat.le_refl _, by simp [FrameSize.bytes]⟩
    (next_free h.tables.sound hne)

/-- Once it is freed, the frames that were in use before are in use again. -/
theorem Ok.uses_freed {pmm : Pmm} (hsame : Pmm.Same (m.t.pmm.allocateFrame ._4KiB 0).2 pmm) :
    Pmm.Same m.t.pmm (pmm.freeFrame (m.t.pmm.allocateFrame ._4KiB 0).1 true).2 ∧
      (pmm.freeFrame (m.t.pmm.allocateFrame ._4KiB 0).1 true).2.FreeAt
        (m.t.pmm.allocateFrame ._4KiB 0).1 := by
  obtain ⟨-, htakes⟩ := h.takes hne
  have hu := (hsame.uses _ _).mpr ((htakes.uses _ _).mpr (Or.inr ⟨rfl, rfl⟩))
  obtain ⟨-, hsound, hdrops⟩ := hsame.sound.freeFrame hu
  refine ⟨⟨hsound, fun f c => ?_⟩, hdrops.free _ ⟨Nat.le_refl _, by simp [FrameSize.bytes]⟩⟩
  rw [hdrops.uses, hsame.uses, htakes.uses]
  constructor
  · rintro ⟨hu | ⟨rfl, -⟩, hother⟩
    · exact hu
    · exact absurd rfl hother
  · intro hu
    refine ⟨Or.inl hu, ?_⟩
    rintro rfl
    exact h.fresh hne hu

include hpermits

/-- A page that is entered is what the fault demands. -/
theorem demanded_of_entered {t₁ t' : Tables} {f : Nat}
    (hvacant : m.t.Vacant (as.root (Space.ofAddress as.active v)) (v - v % pageSize) ._4KiB)
    (hentered : Tables.Entered as (Space.ofAddress as.active v) (v - v % pageSize) ._4KiB
      (page nx (m.t.pmm.allocateFrame ._4KiB 0).1 ((m.vas v).region p).flags false)
      { m.t with pmm := (m.t.pmm.allocateFrame ._4KiB 0).2 } t₁ t' f)
    (hcounted : m'.t.pmm.Uses
      { address := (m.t.pmm.allocateFrame ._4KiB 0).1, size := ._4KiB } 1)
    (htranslate : m'.t = terminate as v ((m.vas v).region p).flags { t' with pmm := m'.t.pmm }) :
    Demanded as nx v flags m .okay m' := by
  obtain ⟨hknown, -, -, hcovers⟩ := h.page hpermits.around
  obtain ⟨hsound, htakes⟩ := h.takes hne
  have haligned : (v - v % pageSize) % pageSize = 0 := by
    unfold pageSize
    omega
  have hused := (htakes.uses _ _).mpr (Or.inr ⟨rfl, rfl⟩)
  obtain ⟨-, hbound, hpaddr, -⟩ := hsound.uses_bounds hused
  dsimp only [FrameSize.bytes] at hbound hpaddr
  have hgrounded := h.tables.grounded.keeps hsound htakes.keeps
  have hshaped := hentered.shaped (Or.inl rfl)
  have hunused : as.forest.Unused Tables.link t'.mem (m.t.pmm.allocateFrame ._4KiB 0).1 := by
    refine hentered.unused (Or.inl rfl) ?_ (hsound.not_freeAt hused ⟨Nat.le_refl _, by
      simp [FrameSize.bytes]⟩)
    intro s q j f' hpos heq
    subst heq
    exact h.tables.grounded.not_freeAt_table hpos (next_free h.tables.sound hne)
  have hpage : ∀ k < pageSize, t'.translate (as.root (Space.ofAddress as.active v))
      (v - v % pageSize + k) = some ((m.t.pmm.allocateFrame ._4KiB 0).1 + k,
        requested nx ((m.vas v).region p).flags) := by
    intro k hk
    exact hentered.translate_page (Or.inl rfl) hknown hcovers haligned hpaddr (by omega) hk
  have hwiped : ∀ {s v'}, as.Known s → s.Covers v' →
      m'.t.translate (as.root s) v' = t'.translate (as.root s) v' := by
    intro s v' hs hv'
    rw [htranslate]
    exact translate_terminate (t := { t' with pmm := m'.t.pmm }) _ ⟨hshaped.separate,
      hshaped.upper⟩ (hpage 0 (by decide)) hpaddr hunused hs hv'
  refine demanded_of_new hpermits (next_free h.tables.sound hne) hcounted hknown hcovers
    hvacant.translate_eq_none ?_ ?_
  · intro k hk
    rw [hwiped hknown (Tables.covers_of_largePage hcovers (by unfold pageSize at *; omega))]
    exact hpage k hk
  · intro s v' hs hv' hout
    rw [hwiped hs hv']
    have hother := hentered.translate_other (Or.inl rfl) hgrounded.toShaped hcovers haligned hs hv'
      hout
    exact hother

omit hpermits in
/-- A page that was mapped all along stays as it is, and the frame is given back. -/
theorem demanded_of_mapped
    (htaken : m.t.translate (as.root (Space.ofAddress as.active v)) (v - v % pageSize) ≠ none)
    (htranslate : m'.t.mem = m.t.mem) (hpmm : m'.t.pmm =
      ((m.t.pmm.allocateFrame ._4KiB 0).2.freeFrame (m.t.pmm.allocateFrame ._4KiB 0).1 true).2) :
    Demanded as nx v flags m .okay m' := by
  obtain ⟨hsound, -⟩ := h.takes hne
  obtain ⟨hsame, hfree⟩ := h.uses_freed hne ⟨hsound, fun _ _ => Iff.rfl⟩
  have hsame' : ∀ root v', m'.t.translate root v' = m.t.translate root v' := by
    intro root v'
    unfold Tables.translate
    rw [htranslate]
  refine ⟨?_, ?_, ?_⟩
  · intro s v' _ _ hchanged
    exact absurd (hsame' _ _) hchanged
  · intro _ k hk
    rw [hsame']
    exact Tables.translate_ne_none_page (by unfold pageSize; omega) hk htaken
  · intro _
    rw [hpmm]
    exact ⟨hsame.uses, fun _ => hfree⟩

omit hne hpermits in
/-- If no frame is taken for the page, it must not be reported as mapped. -/
theorem not_demanded_of_same (hpermits : (m.vas v).Permits p v flags)
    (hvacant : m.t.translate (as.root (Space.ofAddress as.active v)) (v - v % pageSize) = none)
    (hsame : Pmm.Same m.t.pmm m'.t.pmm) : ¬Demanded as nx v flags m .okay m' := by
  intro hdemanded
  obtain ⟨hknown, -, -, hcovers⟩ := h.page hpermits.around
  have hsome := hdemanded.okay rfl 0 (by decide)
  rw [Nat.add_zero] at hsome
  obtain ⟨-, -, _, paddr, -, hfree, hu, -⟩ := hdemanded.mapped hknown hcovers (by
    rw [hvacant]
    exact Option.isSome_iff_ne_none.mp hsome)
  refine h.tables.sound.not_freeAt ((hsame.uses _ _).mp hu) ?_ hfree
  exact ⟨Nat.le_refl _, by simp [FrameSize.bytes]⟩

omit hpermits in
/-- A frame must not be taken for a page that was mapped all along. -/
theorem not_demanded_of_uses
    (htaken : m.t.translate (as.root (Space.ofAddress as.active v)) (v - v % pageSize) ≠ none)
    (hu : m'.t.pmm.Uses { address := (m.t.pmm.allocateFrame ._4KiB 0).1, size := ._4KiB } 1) :
    ¬Demanded as nx v flags m .okay m' := by
  intro hdemanded
  refine h.fresh hne (((hdemanded.restored ?_).1 _ _).mp hu)
  rintro ⟨s, v', hs, hv', hnone, hsome⟩
  obtain ⟨rfl, hpage, -⟩ := hdemanded.mapped hs hv' (by
    rw [hnone]
    exact Option.isSome_iff_ne_none.mp hsome)
  have hold := Tables.translate_ne_none_page (k := v' % pageSize) (by unfold pageSize; omega)
    (Nat.mod_lt _ (by decide)) htaken
  rw [← hpage, Nat.sub_add_cancel (Nat.mod_le _ _), hnone] at hold
  cases hold

/-- A fault for which a frame was taken. -/
theorem demanded_iff_of_permits (hserved : Vas.Served v flags) (nx : Bool) : ∃ m',
    m.handlePageFault as nx v flags = some (.okay, m') ∧
      (Demanded as nx v flags m .okay m' ↔ ¬m.Mishandles as v flags) := by
  obtain ⟨hknown, hlegal, hspace, hcovers⟩ := h.page hpermits.around
  have haccept := h.accept_eq_ok_iff.mpr ⟨hserved, hpermits⟩
  obtain ⟨hsound, htakes⟩ := h.takes hne
  have hused := (htakes.uses _ _).mpr (Or.inr ⟨rfl, rfl⟩)
  have hmis : m.Mishandles as v flags ↔
      m.t.Misread (as.root (Space.ofAddress as.active v)) (v - v % pageSize) ._4KiB ∨
      m.t.Vacant (as.root (Space.ofAddress as.active v)) (v - v % pageSize) ._4KiB ∧
        Tables.grant (m.t.needed (as.root (Space.ofAddress as.active v)) (v - v % pageSize) ._4KiB)
          (m.t.pmm.allocateFrame ._4KiB 0).2 = none :=
    ⟨fun hm => hm.2.2.2, fun hcase => ⟨hserved, ⟨p, hpermits⟩, hne, hcase⟩⟩
  rw [hmis]
  have hgrounded := h.tables.grounded.keeps hsound htakes.keeps
  have hcases := Tables.mapPage_fresh hgrounded (by rwa [hspace]) hlegal (by rwa [hspace])
    (by unfold pageSize; omega) hused nx ((m.vas v).region p).flags
  rw [hspace] at hcases
  rcases hcases with
    ⟨t₁, f, t', hvacant, hgrant, hentered, hcounted, hmap⟩ | ⟨hvacant, hnone, t', hmap, hcase⟩ |
    ⟨hvacant, hmisread, hmap⟩ | ⟨hmisread, t', hcounted, hmap⟩
  · refine ⟨_, handlePageFault_mapped haccept hne hmap, iff_of_true ?_ ?_⟩
    · exact demanded_of_entered h hpermits hne hvacant hentered (by simpa using hcounted) (by simp)
    · rintro (hmisread | ⟨-, hnone⟩)
      · exact Tables.Vacant.not_misread hvacant hmisread
      · cases hgrant.symm.trans hnone
  · refine ⟨_, handlePageFault_failed haccept hne (by simp) hmap,
      iff_of_false ?_ (not_not.mpr (Or.inr ⟨hvacant, hnone⟩))⟩
    rcases hcase with hgrown | hsame
    · intro hdemanded
      have hsome := hdemanded.okay rfl 0 (by decide)
      rw [Nat.add_zero] at hsome
      have hold : t'.translate _ _ = none :=
        (hgrown.translate hgrounded.toShaped hknown hcovers).trans hvacant.translate_eq_none
      exact Option.isSome_iff_ne_none.mp hsome hold
    · exact not_demanded_of_same h hpermits hvacant.translate_eq_none (h.uses_freed hne hsame).1
  · refine ⟨_, handlePageFault_failed haccept hne (by simp) hmap, iff_of_true ?_ ?_⟩
    · exact demanded_of_mapped h hne (Tables.translate_ne_none_of_taken hvacant) rfl rfl
    · rintro (hmisread' | ⟨hvacant', -⟩)
      · exact hmisread hmisread'
      · exact hvacant hvacant'
  · refine ⟨_, handlePageFault_mapped haccept hne hmap,
      iff_of_false ?_ (not_not.mpr (Or.inl hmisread))⟩
    have hvacant : ¬m.t.Vacant _ _ ._4KiB := fun hvacant => hvacant.not_misread hmisread
    exact not_demanded_of_uses h hne (Tables.translate_ne_none_of_taken hvacant)
      (by simpa using hcounted)

end Mapping

/-- A process with pages to be filled on demand, and one frame left. -/
def lastFrame : State where
  user := (Vas.performAll Vas.unlimited Vas.twoPages (Vas.fresh 0x200000 0x209000)).get (by decide)
  kernel := Vas.fresh kernelStart kernelEnd
  t := Tables.noPage

theorem lastFrame_ok : lastFrame.Ok Tables.oneProcess :=
  .of_runs Tables.noPage_wf (List.mem_singleton.mpr rfl)
    (Vas.reachable_twoPages.cachedRun (by decide) (by decide) (by decide)).1
    ((Vas.Reachable.of_fresh _ _).cachedRun (by decide) (by decide) (by decide)).1
    (by decide) (by decide) (by decide) (Nat.le_refl _) (by decide) (Nat.le_refl _)

end State

end Vmm

end Beelzebub.Memory
