import Beelzebub.Memory.DemandPaging
import Beelzebub.Memory.UnmapRange

/-!
# Allocating pages

`Vmm::AllocatePages` takes a region of an address space, and if the pages are to be committed, it
takes a frame for each and maps it.  If one of them fails, the pages before it are unmapped.  The
region is not given back, so a failure leaves a trace as soon as the address space has a place for
the request (`allocatePages_failsClean_iff`).

The pools of the kernel's address space are enlarged in `KernelVas`, and locking is left out.
-/

namespace Beelzebub.Memory

open Utils Tiling VmmArc PmlEntry
open MemoryAllocationOptions (commit allocateOnDemand virtualUser guardLow guardHigh)

/-! ## The code -/

namespace Vmm.State

/-- The address space that pages of such a type are taken from. -/
def spaceOf (type : MemoryAllocationOptions) (m : State) : Vas :=
  if has type virtualUser then m.user else m.kernel

def setSpace (type : MemoryAllocationOptions) (vas : Vas) (m : State) : State :=
  if has type virtualUser then { m with user := vas } else { m with kernel := vas }

/-- The loop over the pages to commit, with so many of them to go: the result of the call that
ends it, where a frame that is missing counts as `OutOfMemory`, and the offset that it got to. -/
def commitPages (as : AddressSpaces) (nx : Bool) (pagingTable ret : Nat) (flags : MemoryFlags) :
    Nat → Nat → Tables → Option (HandleResult × Nat × Tables)
  | 0, offset, t => some (.okay, offset, t)
  | n + 1, offset, t =>
      let (paddr, pmm) := t.pmm.allocateFrame ._4KiB 0
      let t : Tables := { t with pmm }
      if paddr = 0 then some (.outOfMemory, offset, t)
      else
        match t.mapPage as nx pagingTable (Word.add ret offset) paddr ._4KiB flags true with
        | none => none
        | some (res, t) =>
            if res ≠ .okay then some (res, offset, t)
            else commitPages as nx pagingTable ret flags n (offset + pageSize) t

/-- `memset(ret, 0xCA, size)`, for so many pages. -/
def fillPages (as : AddressSpaces) (ret : Nat) : Nat → Tables → Tables
  | 0, t => t
  | n + 1, t =>
      (fillPages as ret n t).wipe as.active (ret + n * pageSize) 0xCACACACACACACACA

/-- Pages of such a type are not committed at once. -/
def Deferred (type : MemoryAllocationOptions) : Prop :=
  type &&& allocateOnDemand = allocateOnDemand ∨ has type commit = false

instance (type : MemoryAllocationOptions) : Decidable (Deferred type) :=
  inferInstanceAs (Decidable (_ ∨ _))

/-- The number of pages that a size takes. -/
def pagesOf (size : Nat) : Nat := (size + pageSize - 1) / pageSize

/-- `Vmm::AllocatePages` for the process with the given paging table: the result, the address it
stores for its caller, and the new state. -/
def allocatePages (alloc : NodeAllocator) (as : AddressSpaces) (nx cpuDataSetUp : Bool)
    (pagingTable size : Nat) (type : MemoryAllocationOptions) (flags : MemoryFlags)
    (content : MemoryContent) (vaddr : Nat) (m : State) : Option (HandleResult × Nat × State) :=
  match (m.spaceOf type).allocate alloc vaddr size flags content type with
  | none => none
  | some (res, ret, vas) =>
      let m := m.setSpace type vas
      if Deferred type then some (res, ret, m)
      else if res ≠ .okay then some (res, ret, m)
      else
        match commitPages as nx pagingTable ret flags (pagesOf size) 0 m.t with
        | none => none
        | some (.okay, _, t) =>
            some (.okay, ret,
              { m with t := if has type virtualUser then fillPages as ret (pagesOf size) t else t })
        | some (_, offset, t) =>
            let (res, t, _) := t.unmapRange as cpuDataSetUp pagingTable ret offset true
              (Tables.noCallbacks Unit) ()
            some (if res ≠ .okay ∧ res ≠ .pageUnmapped then res else .outOfMemory, ret,
              { m with t })

/-- The callbacks of `FreePages`, on the address space that it is handed. -/
def freeCallbacks (alloc : NodeAllocator) : Tables.Callbacks (Option Vas) where
  pre := some fun _ vas => vas
  post := some fun start size oRes vas =>
    match vas.bind (Vas.free alloc start size false false) with
    | none => (oRes, none)
    | some (res, vas) => (if oRes ≠ .okay ∧ oRes ≠ .pageUnmapped then oRes else res, some vas)

/-- `Vmm::FreePages` for the process with the given paging table. -/
def freePages (alloc : NodeAllocator) (as : AddressSpaces) (cpuDataSetUp : Bool)
    (pagingTable vaddr size : Nat) (m : State) : Option (HandleResult × State) :=
  if ¬Tables.is4KiBAligned vaddr then some (.alignmentFailure, m)
  else if ¬vaddr ≥ kernelStart then some (.pageMapIllegalRange, m)
  else
    let (res, t, vas) := m.t.unmapRange as cpuDataSetUp pagingTable vaddr size true
      (freeCallbacks alloc) (some m.kernel)
    vas.map fun vas => (res, { m with kernel := vas, t })

end Vmm.State

/-! ## Requests that the address space has a place for -/

namespace Vas

/-- The region around the address that the request is run at may be touched, and holds it. -/
def Admits (vas : Vas) (req : Request) : Prop :=
  ∃ v ∈ vas.target req, ∃ p, vas.Around v p ∧
    req.operation.Hits v (v + req.effectiveSize) (vas.region p)

variable {vas vas' : Vas} {lo hi e x v : Nat} {A B : List Ptr} {p : Ptr} {op : OperationParameters}
  {alloc : NodeAllocator}

/-- A page that is in no region. -/
theorem pageMap_eq_none
    (h : ∀ q ∈ vas.tree.inorder, ¬((vas.region q).start ≤ x ∧ x < (vas.region q).stop)) :
    vas.pageMap x = none := by
  unfold pageMap Memory.pageMap regions
  generalize vas.tree.inorder = ps at h
  induction ps with
  | nil => rfl
  | cons q ps ih =>
      obtain ⟨hq, hps⟩ := List.forall_mem_cons.mp h
      rw [List.map_cons, paint_cons, if_neg hq]
      exact ih hps

/-- The other descriptors do not hold a page of this one. -/
theorem Focus.other (f : vas.Focus lo hi A p B) {q : Ptr} (hq : q ∈ A ++ B)
    (hx : (vas.region p).start ≤ x ∧ x < (vas.region p).stop) :
    ¬((vas.region q).start ≤ x ∧ x < (vas.region q).stop) := by
  rintro ⟨hlower, hupper⟩
  rcases List.mem_append.mp hq with hq | hq
  · have := f.before q hq
    omega
  · have := (f.after q hq).1
    omega

/-- The part that was cut off is missing from the page map. -/
theorem Cut.pageMap_ne (h : vas.Cut op e A p B vas') (f : vas.Focus lo hi A p B)
    (hlower : (vas.region p).start ≤ op.address) (hupper : op.address < (vas.region p).stop)
    (hpos : op.address < e) : vas'.pageMap ≠ vas.pageMap := by
  have hmem : vas.region p ∈ vas.regions := by
    rw [f.regions]
    exact List.mem_append_right _ List.mem_cons_self
  -- a page of the descriptor that is in no descriptor any more
  suffices hlost : ∃ x, ((vas.region p).start ≤ x ∧ x < (vas.region p).stop) ∧
      vas'.pageMap x = none by
    obtain ⟨x, hx, hnone⟩ := hlost
    intro hsame
    rw [hsame] at hnone
    have hsome := pageMap_of_mem f.tiles hmem hx
    rw [← pageMap, hnone] at hsome
    cases hsome
  cases h with
  | start =>
      refine ⟨op.address, ⟨hlower, hupper⟩, pageMap_eq_none ?_⟩
      intro q hq
      rw [cutStart, tree_modify, f.inorder] at hq
      by_cases hqp : q = p
      · rw [hqp, region_cutStart]
        exact fun hx => absurd hx.1 (Nat.not_le.mpr hpos)
      · rw [region_cutStart_ne hqp]
        refine f.other ?_ ⟨hlower, hupper⟩
        simp only [List.mem_append, List.mem_cons] at hq ⊢
        tauto
  | stop hlt =>
      refine ⟨op.address, ⟨hlower, hupper⟩, pageMap_eq_none ?_⟩
      intro q hq
      rw [cutEnd, tree_modify, f.inorder] at hq
      by_cases hqp : q = p
      · rw [hqp, region_cutEnd]
        exact fun hx => absurd hx.2 (Nat.lt_irrefl _)
      · rw [region_cutEnd_ne hqp]
        refine f.other ?_ ⟨hlower, hupper⟩
        simp only [List.mem_append, List.mem_cons] at hq ⊢
        tauto
  | @middle m t hlt he ht hfresh =>
      have hx : (vas.region p).start ≤ e ∧ e < (vas.region p).stop := ⟨by omega, he⟩
      refine ⟨e, hx, pageMap_eq_none ?_⟩
      intro q hq
      rw [spawnMiddle, tree_modify, tree_setTree, ht] at hq
      by_cases hqm : q = m
      · rw [hqm, region_spawnMiddle, Operation.stop_spawned]
        exact fun hx => absurd hx.2 (Nat.lt_irrefl _)
      rw [region_spawnMiddle_ne hqm]
      by_cases hqp : q = p
      · rw [hqp, region_cutEnd]
        exact fun hx => absurd hx.2 (Nat.not_lt.mpr (Nat.le_of_lt hpos))
      · rw [region_cutEnd_ne hqp]
        refine f.other ?_ hx
        simp only [List.mem_append, List.mem_cons, List.not_mem_nil, or_false] at hq ⊢
        tauto

/-- An allocation at a known address that does not get its nodes. -/
theorem execute_noNode {n : Nat} (hw : vas.Wf lo hi) (hlohi : lo < hi) (hhi : hi < 2 ^ 64)
    (hnull : op.address ≠ 0) (hwrap : op.address + op.size < 2 ^ 64) (hpos : 0 < op.size)
    (hp : vas.Around op.address p) (halloc : op.operation.isAllocation = true)
    (hh : op.operation.Hits op.address (op.address + op.size) (vas.region p))
    (hn : ¬vas.NodesAvailable alloc op.operation op.address (op.address + op.size) p) :
    ∃ res vas', vas.execute alloc (n + 1) op = some (res, op, vas') ∧ res ≠ .okay ∧
      vas'.pageMap ≠ vas.pageMap := by
  have hwithin := hh.within halloc
  obtain ⟨A, B, f⟩ := (hw.forget p).focus (by simpa using hp.mem)
  have hh' : op.operation.Hits op.address (op.address + op.size) ((vas.forget p).region p) := by
    simpa using hh
  obtain ⟨res, vas', hcall, hres, hcut⟩ := executeAccepted_cut f hhi hh' rfl hwrap (by omega)
    fun h => hn h.of_forget
  refine ⟨res, vas', ?_, hres, ?_⟩
  · rw [execute_succ (hw.first_ne_none hlohi) (fun _ => hnull) (hw.findRegion_eq_some hp) hwrap,
      if_neg fun h => absurd h.1 (Nat.not_lt.mpr hwithin), if_neg fun h => h.1 hh.accepts]
    dsimp only
    rw [if_pos hh.accepts, hcall, if_pos hres]
  · rw [← pageMap_forget vas p]
    exact hcut.pageMap_ne f (by simpa using hp.lower) (by simpa using hp.upper) (by omega)

section Allocate

variable {vaddr size : Nat} {flags : MemoryFlags} {content : MemoryContent}
  {type : MemoryAllocationOptions}

/-- An allocation shows in the page map exactly if the address space has a place for it, also if
it fails there. -/
theorem allocate_admits (alloc : NodeAllocator) (hinv : vas.Inv lo hi) (hlo : 0 < lo)
    (hlohi : lo < hi) (hhi : hi < 2 ^ 64)
    (hreq : (Request.allocate vaddr size flags content type).Valid) :
    ∃ res vaddr' vas', vas.allocate alloc vaddr size flags content type =
        some (res, vaddr', vas') ∧
      (vas.Admits (.allocate vaddr size flags content type) → vas'.pageMap ≠ vas.pageMap) ∧
      (¬vas.Admits (.allocate vaddr size flags content type) →
        res ≠ .okay ∧ vas'.pageMap = vas.pageMap) := by
  have hw := hinv.wf
  obtain ⟨res, vaddr', vas', hcall, hout⟩ := allocate_spec alloc hw hlo hlohi hhi hreq
  refine ⟨res, vaddr', vas', hcall, ?_⟩
  rcases hout with ⟨rfl, rfl, htarget⟩ | ⟨v, -, hperf⟩
  · refine ⟨?_, fun _ => ⟨nofun, rfl⟩⟩
    rintro ⟨v, hv, -⟩
    rw [htarget] at hv
    cases hv
  · have hpos := hperf.pos
    have hadmits : ∀ {p}, vas.Around v p → (vas.Admits (.allocate vaddr size flags content type) ↔
        (Request.allocate vaddr size flags content type).operation.Hits v
          (v + (Request.allocate vaddr size flags content type).effectiveSize)
          (vas.region p)) := by
      intro p hp
      constructor
      · rintro ⟨w, hw', q, hq, hh⟩
        obtain rfl := Option.some.inj (hperf.target.symm.trans hw')
        rw [hw.around_unique hp hq]
        exact hh
      · exact fun hh => ⟨v, hperf.target, p, hp, hh⟩
    cases hperf.executes with
    | outOfRange hnone =>
        refine ⟨?_, fun _ => ⟨nofun, rfl⟩⟩
        rintro ⟨w, hw', q, hq, -⟩
        obtain rfl := Option.some.inj (hperf.target.symm.trans hw')
        exact absurd hq (hnone q)
    | beyond hp hstop =>
        refine ⟨fun h => ?_, fun _ => ⟨nofun, pageMap_forget _ _⟩⟩
        exact absurd (((hadmits hp).mp h).within rfl) (Nat.not_le.mpr hstop)
    | refused hp _ hacc =>
        refine ⟨fun h => ?_, fun _ => ⟨nofun, pageMap_forget _ _⟩⟩
        exact absurd ((hadmits hp).mp h).accepts hacc
    | permanent hp _ _ hperm =>
        refine ⟨fun h => ?_, fun _ => ⟨nofun, pageMap_forget _ _⟩⟩
        rw [((hadmits hp).mp h).movable] at hperm
        cases hperm
    | noNode hp _ hh hn =>
        refine ⟨fun _ => ?_, fun h => absurd ((hadmits hp).mpr hh) h⟩
        rcases allocate_settles alloc hw hlo hlohi hhi hreq with
          ⟨hnone, -⟩ | ⟨w, n, htarget, hv, hwrap, -, hsettled⟩
        · rw [hperf.target] at hnone
          cases hnone
        · obtain rfl := Option.some.inj (hperf.target.symm.trans htarget)
          obtain ⟨res₁, vas₁, hexecute, -, hne⟩ : ∃ res vas',
              vas.execute alloc (n + 1) (settledParameters v size flags content type) =
                some (res, settledParameters v size flags content type, vas') ∧ res ≠ .okay ∧
              vas'.pageMap ≠ vas.pageMap :=
            execute_noNode hw hlohi hhi hv hwrap hpos hp rfl hh hn
          rw [hcall, hexecute] at hsettled
          cases hsettled
          exact hne
    | last hp _ hpass =>
        cases hpass with
        | tolerated _ htolerant => cases htolerant
        | accepted _ hpassed =>
            have hh : (Request.allocate vaddr size flags content type).operation.Hits v
                (v + (Request.allocate vaddr size flags content type).effectiveSize)
                (vas.region _) := hpassed.step_of_forget.hits
            refine ⟨fun _ hsame => ?_, fun h => absurd ((hadmits hp).mpr hh) h⟩
            obtain ⟨hfill, hfree⟩ := hpassed.pageMap_allocate hp (by omega) hinv
            have hv := congrFun hfill v
            rw [hsame, hfree v ⟨Nat.le_refl v, by omega⟩, PageMap.fill, if_pos ⟨Nat.le_refl v,
              by omega⟩] at hv
            exact hreq.2.2.1 (congrArg PageAttributes.content (Option.some.inj hv)).symm
    | more _ _ hsparse => cases hsparse

end Allocate

end Vas

/-! ## Failures -/

namespace Vmm.State

/-- The page maps, the translations and the free frames are what they were. -/
structure RolledBack (as : AddressSpaces) (m m' : State) : Prop where
  user : m'.user.pageMap = m.user.pageMap
  kernel : m'.kernel.pageMap = m.kernel.pageMap
  translate : ∀ s v, as.Known s → s.Covers v →
    m'.t.translate (as.root s) v = m.t.translate (as.root s) v
  free : ∀ addr, m'.t.pmm.FreeAt addr ↔ m.t.pmm.FreeAt addr

/-- The results that a call may fail with: `OutOfMemory`, that of the address space, and that of
the mapping of a page. -/
def Causes (alloc : NodeAllocator) (as : AddressSpaces) (nx : Bool) (pagingTable size : Nat)
    (type : MemoryAllocationOptions) (flags : MemoryFlags) (content : MemoryContent) (vaddr : Nat)
    (m : State) (res : HandleResult) : Prop :=
  res = .outOfMemory ∨ ∃ res₁ ret vas,
    (m.spaceOf type).allocate alloc vaddr size flags content type = some (res₁, ret, vas) ∧
    (res = res₁ ∨ ∃ offset t,
      commitPages as nx pagingTable ret flags (pagesOf size) 0 m.t = some (res, offset, t))

section Failures

variable {alloc : NodeAllocator} {as : AddressSpaces} {nx cpuDataSetUp : Bool}
  {pagingTable size vaddr lo hi : Nat} {type : MemoryAllocationOptions} {flags : MemoryFlags}
  {content : MemoryContent} {m : State}

@[simp] theorem t_setSpace (vas : Vas) : (m.setSpace type vas).t = m.t := by
  unfold setSpace
  split
  next => rfl
  next => rfl

theorem pageMap_setSpace {vas : Vas} (h : vas.pageMap = (m.spaceOf type).pageMap) :
    (m.setSpace type vas).user.pageMap = m.user.pageMap ∧
      (m.setSpace type vas).kernel.pageMap = m.kernel.pageMap := by
  unfold setSpace
  unfold spaceOf at h
  split
  next htype =>
    rw [if_pos htype] at h
    exact ⟨h, rfl⟩
  next htype =>
    rw [if_neg htype] at h
    exact ⟨rfl, h⟩

/-- Where the tables are not looked at, only the address space counts. -/
theorem RolledBack.space {m' : State} (h : RolledBack as m m') :
    (m'.spaceOf type).pageMap = (m.spaceOf type).pageMap := by
  unfold spaceOf
  split
  next => exact h.user
  next => exact h.kernel

theorem spaceOf_setSpace (vas : Vas) (t : Tables) :
    ({ m.setSpace type vas with t := t } : State).spaceOf type = vas := by
  unfold spaceOf setSpace
  split
  next => rfl
  next => rfl

/-- The loop returns. -/
theorem commitPages_returns (as : AddressSpaces) (nx : Bool) (pagingTable ret : Nat)
    (flags : MemoryFlags) (n offset : Nat) (t : Tables) :
    ∃ out, commitPages as nx pagingTable ret flags n offset t = some out := by
  induction n generalizing offset t with
  | zero => exact ⟨_, rfl⟩
  | succ n ih =>
      rw [commitPages]
      dsimp only
      split
      next => exact ⟨_, rfl⟩
      next =>
        cases hmap : Tables.mapPage as nx pagingTable (Word.add ret offset) _ ._4KiB flags true
            { t with pmm := (t.pmm.allocateFrame ._4KiB 0).2 } with
        | none =>
            unfold Tables.mapPage at hmap
            split at hmap
            next => cases hmap
            next => cases hmap
        | some out =>
            obtain ⟨res, t'⟩ := out
            dsimp only
            split
            next => exact ⟨_, rfl⟩
            next => exact ih _ t'

/-- A call for pages to be committed that the address space has accepted: the address space is
left as the allocation left it. -/
theorem allocatePages_accepted (hcommit : ¬Deferred type) {ret : Nat} {vas : Vas}
    (hcall : (m.spaceOf type).allocate alloc vaddr size flags content type =
      some (.okay, ret, vas)) :
    ∃ res m', m.allocatePages alloc as nx cpuDataSetUp pagingTable size type flags content vaddr =
      some (res, ret, m') ∧ m'.spaceOf type = vas := by
  unfold allocatePages
  rw [hcall]
  dsimp only
  rw [if_neg hcommit, if_neg (not_not.mpr rfl)]
  obtain ⟨⟨res, offset, t⟩, hloop⟩ := commitPages_returns as nx pagingTable ret flags
    (pagesOf size) 0 (m.setSpace type vas).t
  rw [hloop]
  cases res
  case okay => exact ⟨_, _, rfl, spaceOf_setSpace _ _⟩
  all_goals exact ⟨_, _, rfl, spaceOf_setSpace _ _⟩

/-- A call that fails leaves everything as it was, and tells why it failed, if and only if the
address space has no place for the request. -/
theorem allocatePages_failsClean_iff (hinv : (m.spaceOf type).Inv lo hi) (hlo : 0 < lo)
    (hlohi : lo < hi) (hhi : hi < 2 ^ 64) (hcommit : ¬Deferred type)
    (hreq : (Request.allocate vaddr size flags content type).Valid) :
    ∃ res ret m',
      m.allocatePages alloc as nx cpuDataSetUp pagingTable size type flags content vaddr =
        some (res, ret, m') ∧
      (res ≠ .okay →
        (RolledBack as m m' ∧ m.Causes alloc as nx pagingTable size type flags content vaddr res ↔
          ¬(m.spaceOf type).Admits (.allocate vaddr size flags content type))) := by
  obtain ⟨res, ret, vas, hcall, hplace, hrefused⟩ :=
    Vas.allocate_admits alloc hinv hlo hlohi hhi hreq
  by_cases hokay : res = .okay
  · subst hokay
    obtain ⟨res, m', hpages, hspace⟩ := allocatePages_accepted hcommit hcall
    refine ⟨res, ret, m', hpages, fun _ => ?_⟩
    have hadmits : (m.spaceOf type).Admits (.allocate vaddr size flags content type) := by
      by_contra hnot
      exact (hrefused hnot).1 rfl
    refine iff_of_false (fun hclean => ?_) (not_not.mpr hadmits)
    rw [← hspace] at hplace
    exact hplace hadmits hclean.1.space
  · have hpages : m.allocatePages alloc as nx cpuDataSetUp pagingTable size type flags content
        vaddr = some (res, ret, m.setSpace type vas) := by
      unfold allocatePages
      rw [hcall]
      dsimp only
      rw [if_neg hcommit, if_pos hokay]
    refine ⟨res, ret, _, hpages, fun _ => ⟨fun hclean hadmits => ?_, fun hnot => ?_⟩⟩
    · have hspace : (m.setSpace type vas).spaceOf type = vas := spaceOf_setSpace vas m.t
      have hsame : ((m.setSpace type vas).spaceOf type).pageMap = (m.spaceOf type).pageMap :=
        hclean.1.space
      rw [hspace] at hsame
      exact hplace hadmits hsame
    · obtain ⟨huser, hkernel⟩ := pageMap_setSpace (hrefused hnot).2
      refine ⟨⟨huser, hkernel, ?_, ?_⟩, Or.inr ⟨res, ret, vas, hcall, Or.inl rfl⟩⟩
      · intro s v _ _
        rw [t_setSpace]
      · intro addr
        rw [t_setSpace]

end Failures

/-- There is no frame left. -/
def noFrames : State where
  user := Vas.fresh userlandStart userlandEnd
  kernel := Vas.fresh kernelStart kernelEnd
  t := ⟨fun _ _ => 0, ⟨[]⟩⟩

theorem inv_noFrames : noFrames.kernel.Inv kernelStart kernelEnd :=
  (Vas.Reachable.of_fresh kernelStart kernelEnd).inv (by decide) (by decide) (by decide)

/-- One page of the kernel's heap. -/
theorem allocatePages_failsClean_iff_noFrames : ∃ res ret m',
    noFrames.allocatePages Vas.unlimited Tables.oneProcess true true 0x1000 0x1000 commit
        MemoryFlags.writable .generic 0 = some (res, ret, m') ∧
      (res ≠ .okay →
        (RolledBack Tables.oneProcess noFrames m' ∧ noFrames.Causes Vas.unlimited Tables.oneProcess
            true 0x1000 0x1000 commit MemoryFlags.writable .generic 0 res ↔
          ¬(noFrames.spaceOf commit).Admits
            (.allocate 0 0x1000 MemoryFlags.writable .generic commit))) :=
  allocatePages_failsClean_iff inv_noFrames (by decide) (by decide) (by decide) (by decide)
    (by decide)

/-- The region stays, and the result is that of the argument check of `UnmapRange`. -/
theorem not_failsClean : ¬∀ (m m' : State) (res : HandleResult) (ret : Nat),
    m.kernel.Inv kernelStart kernelEnd →
    m.allocatePages Vas.unlimited Tables.oneProcess true true 0x1000 0x1000 commit
      MemoryFlags.writable .generic 0 = some (res, ret, m') → res ≠ .okay →
    RolledBack Tables.oneProcess m m' ∧ m.Causes Vas.unlimited Tables.oneProcess
      true 0x1000 0x1000 commit MemoryFlags.writable .generic 0 res := by
  intro h
  have hcall : (noFrames.allocatePages Vas.unlimited Tables.oneProcess true true 0x1000 0x1000
      commit MemoryFlags.writable .generic 0).map
        (fun out => (out.1, out.2.2.kernel.pageMap (kernelEnd - 1))) =
      some (.argumentOutOfRange, some ⟨MemoryFlags.writable, .generic, commit⟩) := by
    decide +kernel
  obtain ⟨⟨res, ret, m'⟩, hpages, heq⟩ := Option.map_eq_some_iff.mp hcall
  simp only [Prod.mk.injEq] at heq
  obtain ⟨rfl, hpage⟩ := heq
  have hsame := (h noFrames m' _ ret inv_noFrames hpages nofun).1.kernel
  have hfree : noFrames.kernel.pageMap (kernelEnd - 1) = some .free := by decide +kernel
  rw [hsame, hfree] at hpage
  exact absurd hpage (by decide)

end Vmm.State

end Beelzebub.Memory
