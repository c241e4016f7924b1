import Beelzebub.Memory.VasExecute

/-!
# Runs of an address space

The calls of `Vas::Allocate` and `Vas::Free` as their callers make them, and the
states they reach from a fresh address space.  Every reachable state is well formed
(`Reachable.wellFormed`), and every call returns.
-/

namespace Beelzebub.Memory

open Utils Tiling
open MemoryAllocationOptions (permanent guardLow guardHigh guardFull)

/-! ## Requests -/

/-- A call of one of the two operations. -/
inductive Request where
  | allocate (vaddr size : Nat) (flags : MemoryFlags) (content : MemoryContent)
      (type : MemoryAllocationOptions)
  | free (vaddr size : Nat) (sparse tolerant : Bool)
deriving DecidableEq, Repr

namespace Request

/-- The request asks for whole pages, at least one, and its range does not wrap at
either end, guards included.  A null address stands for one that is still to be
chosen; other addresses need not be aligned. -/
def Valid : Request → Prop
  | allocate vaddr size _ content type =>
      pageSize ∣ size ∧ 0 < size ∧ content ≠ .free ∧
        (vaddr = 0 ∨ Vas.lowOffset type ≤ vaddr) ∧
        (if vaddr = 0 then Vas.lowOffset type else vaddr) + size + Vas.highOffset type < 2 ^ 64
  | free vaddr size _ _ => pageSize ∣ size ∧ 0 < size ∧ vaddr + size < 2 ^ 64

instance : DecidablePred Valid := fun req =>
  match req with
  | allocate .. => inferInstanceAs (Decidable (_ ∧ _ ∧ _ ∧ _ ∧ _))
  | free .. => inferInstanceAs (Decidable (_ ∧ _ ∧ _))

/-- The operation a request stands for. -/
def operation : Request → Operation
  | allocate _ _ flags content type => .allocate flags content type
  | free .. => .free

def sparse : Request → Bool
  | allocate .. => false
  | free _ _ sparse _ => sparse

def tolerant : Request → Bool
  | allocate .. => false
  | free _ _ _ tolerant => tolerant

/-- The number of bytes the request is about, guards included. -/
def effectiveSize : Request → Nat
  | allocate _ size _ _ type => size + Vas.lowOffset type + Vas.highOffset type
  | free _ size _ _ => size

/-- The address of the first byte the request is about; for an allocation, null if
it is still to be chosen. -/
def effectiveAddress : Request → Nat
  | allocate vaddr _ _ _ type => if vaddr = 0 then 0 else vaddr - Vas.lowOffset type
  | free vaddr .. => vaddr

/-- No allocation asks for free memory. -/
theorem Valid.content_ne_free {req : Request} (h : req.Valid) :
    req.operation.isAllocation = true → req.operation.newContent ≠ .free := by
  cases req with
  | allocate vaddr size flags content type => exact fun _ => h.2.2.1
  | free vaddr size sparse tolerant => exact fun h => by cases h

end Request

namespace Vas

/-- A call, without the address that an allocation stores for its caller. -/
def perform (alloc : NodeAllocator) (vas : Vas) : Request → Option (HandleResult × Vas)
  | .allocate vaddr size flags content type =>
      (vas.allocate alloc vaddr size flags content type).map fun (res, _, vas) => (res, vas)
  | .free vaddr size sparse tolerant => vas.free alloc vaddr size sparse tolerant

/-! ## Anonymous requests -/

/-- The walk along the list ends, on a free region that is large enough if there is
one. -/
theorem findAnonymous_spec {vas : Vas} (startSize : Nat) {ps : List Ptr} {s : Option Ptr}
    (h : Linked.Chain vas.next s ps) {fuel : Nat} (hfuel : ps.length ≤ fuel) :
    ∃ out, vas.findAnonymous startSize fuel s = some out ∧
      ∀ address ∈ out, ∃ p ∈ ps, (vas.region p).content = .free ∧
        startSize ≤ (vas.region p).range.getSize ∧
        address = Word.sub (vas.region p).stop startSize := by
  induction ps generalizing s fuel with
  | nil =>
      rw [Linked.chain_nil.mp h]
      exact ⟨none, by rw [findAnonymous], by simp⟩
  | cons p ps ih =>
      obtain ⟨rfl, hchain⟩ := h
      cases fuel with
      | zero => exact absurd hfuel (by simp)
      | succ fuel =>
          rw [findAnonymous]
          by_cases hfits : (vas.mem p).content = .free ∧ (vas.mem p).range.getSize ≥ startSize
          · simp only [hfits, and_self, if_true]
            refine ⟨_, rfl, fun address haddr => ⟨p, by simp, hfits.1, hfits.2, ?_⟩⟩
            cases haddr
            rfl
          · simp only [hfits, if_false]
            obtain ⟨out, h1, h2⟩ := ih hchain (Nat.le_of_succ_le_succ hfuel)
            refine ⟨out, h1, fun address haddr => ?_⟩
            obtain ⟨q, hq, hrest⟩ := h2 address haddr
            exact ⟨q, List.mem_cons_of_mem _ hq, hrest⟩

/-! ## The two calls -/

section Calls

variable {alloc : NodeAllocator} {lo hi : Nat} {vas : Vas}

theorem countAbove_le_length (v : Nat) (vas : Vas) :
    countAbove v vas.regions ≤ vas.tree.inorder.length := by
  have h : countAbove v vas.regions ≤ vas.regions.length := List.countP_le_length
  unfold regions at h ⊢
  rwa [List.length_map] at h

/-- The address at which a request is run, if one is given or can be found. -/
def target (vas : Vas) (req : Request) : Option Nat :=
  if req.operation.isAllocation ∧ req.effectiveAddress = 0 then
    (vas.findAnonymous req.effectiveSize vas.tree.inorder.length vas.first).join
  else some req.effectiveAddress

/-- What a call did: the request was run at the address `v`. -/
structure Performed (alloc : NodeAllocator) (req : Request) (vas : Vas) (res : HandleResult)
    (v : Nat) (vas' : Vas) : Prop where
  executes : Executes alloc req.operation req.sparse req.tolerant (v + req.effectiveSize) v vas res
    vas'
  noWrap : v + req.effectiveSize < 2 ^ 64
  pos : 0 < req.effectiveSize
  target : vas.target req = some v

/-- A request that names an address is run there. -/
theorem Performed.address {req : Request} {res : HandleResult} {v : Nat} {vas' : Vas}
    (h : Performed alloc req vas res v vas')
    (ha : req.operation.isAllocation = false ∨ req.effectiveAddress ≠ 0) :
    v = req.effectiveAddress := by
  have ht := h.target
  rw [Vas.target, if_neg (by rcases ha with ha | ha <;> simp [ha])] at ht
  exact (Option.some.inj ht).symm

section Allocate

variable {vaddr size : Nat} {flags : MemoryFlags} {content : MemoryContent}
  {type : MemoryAllocationOptions}

theorem allocateParameters_eq
    (hreq : (Request.allocate vaddr size flags content type).Valid) :
    allocateParameters vaddr size flags content type =
      { operation := .allocate flags content type
        startSize := (Request.allocate vaddr size flags content type).effectiveSize
        address := (Request.allocate vaddr size flags content type).effectiveAddress
        size := (Request.allocate vaddr size flags content type).effectiveSize
        sparse := false
        tolerant := false } := by
  obtain ⟨-, hpos, -, hlow, hwrap⟩ := hreq
  have hsize : Word.add (Word.add size (lowOffset type)) (highOffset type) =
      size + lowOffset type + highOffset type := by
    unfold Word.add
    split at hwrap <;> omega
  have haddr : (if vaddr = 0 then 0 else Word.sub vaddr (lowOffset type)) =
      if vaddr = 0 then 0 else vaddr - lowOffset type := by
    split
    next => rfl
    next hne =>
      rw [if_neg hne] at hwrap
      exact Word.sub_of_le (by omega) (by omega)
  simp only [allocateParameters, Request.effectiveSize, Request.effectiveAddress, hsize, haddr]

/-- The range of an allocation at a given address does not wrap. -/
theorem effective_noWrap (hreq : (Request.allocate vaddr size flags content type).Valid)
    (hne : (Request.allocate vaddr size flags content type).effectiveAddress ≠ 0) :
    (Request.allocate vaddr size flags content type).effectiveAddress +
      (Request.allocate vaddr size flags content type).effectiveSize < 2 ^ 64 := by
  obtain ⟨-, hpos, -, hlow, hwrap⟩ := hreq
  simp only [Request.effectiveAddress, Request.effectiveSize] at hne ⊢
  split at hne
  next => exact absurd rfl hne
  next h =>
    rw [if_neg h] at hwrap ⊢
    omega

/-- The parameters of an allocation that has settled on an address. -/
def settledParameters (v size : Nat) (flags : MemoryFlags) (content : MemoryContent)
    (type : MemoryAllocationOptions) : OperationParameters where
  operation := .allocate flags content type
  startSize := size + lowOffset type + highOffset type
  address := v
  size := size + lowOffset type + highOffset type
  sparse := false
  tolerant := false

/-- An allocation settles on an address, and runs there. -/
theorem allocate_settles (alloc : NodeAllocator) (hw : vas.Wf lo hi) (hlo : 0 < lo)
    (hlohi : lo < hi) (hhi : hi < 2 ^ 64)
    (hreq : (Request.allocate vaddr size flags content type).Valid) :
    (vas.target (.allocate vaddr size flags content type) = none ∧
      ∃ vaddr', vas.allocate alloc vaddr size flags content type =
        some (.outOfMemory, vaddr', vas)) ∨
    ∃ v n, vas.target (.allocate vaddr size flags content type) = some v ∧ v ≠ 0 ∧
      v + (Request.allocate vaddr size flags content type).effectiveSize < 2 ^ 64 ∧
      vas.tree.inorder.length ≤ n ∧
      vas.allocate alloc vaddr size flags content type =
        (vas.execute alloc (n + 1) (settledParameters v size flags content type)).map
          fun (res, op, vas) => (res, Word.add op.address (lowOffset type), vas) := by
  have hpos : 0 < (Request.allocate vaddr size flags content type).effectiveSize := by
    have := hreq.2.1
    simp only [Request.effectiveSize]
    omega
  have hfirst := hw.first_ne_none hlohi
  rw [allocate, if_neg hfirst, allocateParameters_eq hreq]
  unfold settledParameters
  rw [show size + lowOffset type + highOffset type =
    (Request.allocate vaddr size flags content type).effectiveSize from rfl]
  generalize hsz : (Request.allocate vaddr size flags content type).effectiveSize = sz at hpos ⊢
  by_cases haddr : (Request.allocate vaddr size flags content type).effectiveAddress = 0
  · obtain ⟨out, hout, hfits⟩ := findAnonymous_spec sz
      (hw.threaded.first ▸ hw.threaded.links.chain) (Nat.le_refl vas.tree.inorder.length)
    rw [haddr, fuel, execute, if_neg hfirst, if_pos ⟨rfl, rfl⟩]
    simp only [hout]
    cases out with
    | none =>
        refine Or.inl ⟨?_, _, rfl⟩
        rw [target, if_pos ⟨rfl, haddr⟩, hsz, hout]
        rfl
    | some address =>
        obtain ⟨p, hp, -, hfit, rfl⟩ := hfits address rfl
        obtain ⟨A, B, f⟩ := hw.focus hp
        have hbounds := f.tiles.bounds (List.mem_map_of_mem hp)
        have hget : (vas.region p).range.getSize = (vas.region p).stop - (vas.region p).start :=
          Word.sub_of_le (by unfold Region.stop at hbounds; omega) (Nat.le_of_lt f.nonempty)
        have hsub : Word.sub (vas.region p).stop sz = (vas.region p).stop - sz :=
          Word.sub_of_le (by omega) (by omega)
        rw [hsub]
        exact Or.inr ⟨(vas.region p).stop - sz, vas.tree.inorder.length,
          by rw [target, if_pos ⟨rfl, haddr⟩, hsz, hout, ← hsub]; rfl, by omega, by omega,
          Nat.le_refl _, rfl⟩
  · refine Or.inr ⟨_, vas.tree.inorder.length + 1, if_neg fun h => haddr h.2, haddr, ?_,
      Nat.le_succ _, rfl⟩
    rw [← hsz]
    exact effective_noWrap hreq haddr

theorem allocate_spec (alloc : NodeAllocator) (hw : vas.Wf lo hi) (hlo : 0 < lo) (hlohi : lo < hi)
    (hhi : hi < 2 ^ 64) (hreq : (Request.allocate vaddr size flags content type).Valid) :
    ∃ res vaddr' vas', vas.allocate alloc vaddr size flags content type = some (res, vaddr', vas') ∧
      ((res = .outOfMemory ∧ vas' = vas ∧
          vas.target (.allocate vaddr size flags content type) = none) ∨
        ∃ v, vaddr' = v + lowOffset type ∧
          Performed alloc (.allocate vaddr size flags content type) vas res v vas') := by
  have hpos : 0 < size + lowOffset type + highOffset type := by
    have := hreq.2.1
    omega
  rcases allocate_settles alloc hw hlo hlohi hhi hreq with
    ⟨hnone, vaddr', hcall⟩ | ⟨v, n, htarget, hv, hwrap, hfuel, hcall⟩
  · exact ⟨_, vaddr', vas, hcall, Or.inl ⟨rfl, rfl, hnone⟩⟩
  · obtain ⟨res, op', vas', h1, h2, h3⟩ := execute_refines alloc hhi hlohi (n + 1)
      (settledParameters v size flags content type) vas hw hpos hwrap (fun _ => ⟨hv, rfl⟩)
      (Nat.lt_of_le_of_lt (countAbove_le_length v vas) (Nat.lt_succ_of_le hfuel))
    obtain rfl := h3 rfl
    have hwrap' : v + (size + lowOffset type + highOffset type) < 2 ^ 64 := hwrap
    have hadd : Word.add v (lowOffset type) = v + lowOffset type := Word.add_of_lt (by omega)
    refine ⟨res, v + lowOffset type, vas', ?_, Or.inr ⟨v, rfl, h2, hwrap, hpos, htarget⟩⟩
    rw [hcall, h1, Option.map_some, ← hadd]
    rfl

end Allocate

theorem free_spec (alloc : NodeAllocator) {vaddr size : Nat} {sparse tolerant : Bool}
    (hw : vas.Wf lo hi) (hlohi : lo < hi) (hhi : hi < 2 ^ 64)
    (hreq : (Request.free vaddr size sparse tolerant).Valid) :
    ∃ res vas', vas.free alloc vaddr size sparse tolerant = some (res, vas') ∧
      Performed alloc (.free vaddr size sparse tolerant) vas res vaddr vas' := by
  obtain ⟨-, hpos, hwrap⟩ := hreq
  have hfuel := countAbove_le_length vaddr vas
  obtain ⟨res, op', vas', h1, h2, -⟩ := execute_refines alloc hhi hlohi vas.fuel
    (freeParameters vaddr size sparse tolerant) vas hw hpos hwrap
    (fun h => by cases h) (by unfold fuel; exact Nat.lt_of_le_of_lt hfuel (by omega))
  refine ⟨res, vas', ?_, h2, hwrap, hpos, if_neg fun h => by cases h.1⟩
  rw [free, h1, Option.map_some]

/-- Every call returns. -/
theorem perform_spec (alloc : NodeAllocator) {req : Request} (hw : vas.Wf lo hi)
    (hlo : 0 < lo) (hlohi : lo < hi) (hhi : hi < 2 ^ 64) (hreq : req.Valid) :
    ∃ res vas', vas.perform alloc req = some (res, vas') ∧
      ((res = .outOfMemory ∧ vas' = vas ∧ vas.target req = none) ∨
        ∃ v, Performed alloc req vas res v vas') := by
  cases req with
  | allocate vaddr size flags content type =>
      obtain ⟨res, vaddr', vas', h1, h2⟩ := allocate_spec alloc hw hlo hlohi hhi hreq
      refine ⟨res, vas', by rw [perform, h1]; rfl, ?_⟩
      rcases h2 with h2 | ⟨v, -, h2⟩
      · exact Or.inl h2
      · exact Or.inr ⟨v, h2⟩
  | free vaddr size sparse tolerant =>
      obtain ⟨res, vas', h1, h2⟩ := free_spec alloc hw hlohi hhi hreq
      exact ⟨res, vas', h1, Or.inr ⟨vaddr, h2⟩⟩

end Calls

/-! ## The invariant -/

/-- The invariant of an address space over `[lo, hi)`. -/
structure Inv (vas : Vas) (lo hi : Nat) : Prop where
  threaded : vas.Threaded
  regions : RegionInv lo hi vas.regions

theorem Inv.wf {vas : Vas} {lo hi : Nat} (h : vas.Inv lo hi) : vas.Wf lo hi :=
  ⟨h.threaded, h.regions.tiles⟩

theorem Inv.forget {vas : Vas} {lo hi : Nat} (h : vas.Inv lo hi) (p : Ptr) :
    (vas.forget p).Inv lo hi :=
  ⟨h.threaded.forget p, by simpa using h.regions⟩

section Preserve

variable {alloc : NodeAllocator} {op : Operation} {sparse tolerant : Bool} {lo hi e v : Nat}
  {vas vas' : Vas} {p : Ptr} {res : HandleResult}

theorem Passes.inv (h : Passes alloc op tolerant v e p vas vas') (hve : v < e)
    (hc : op.isAllocation = true → op.newContent ≠ .free) (hinv : vas.Inv lo hi) :
    vas'.Inv lo hi := by
  cases h with
  | tolerated => exact hinv.forget p
  | accepted _ hp => exact ⟨hp.threaded, hp.step.inv hve hc (hinv.forget p).regions⟩

/-- A run whose nodes can all be allocated keeps the invariant. -/
theorem Executes.inv (h : Executes alloc op sparse tolerant e v vas res vas')
    (hs : alloc.Succeeds) (hve : v < e) (hc : op.isAllocation = true → op.newContent ≠ .free)
    (hinv : vas.Inv lo hi) : vas'.Inv lo hi := by
  induction h with
  | outOfRange => exact hinv
  | beyond => exact hinv.forget _
  | refused => exact hinv.forget _
  | permanent => exact hinv.forget _
  | noNode _ _ _ hn => exact absurd (.of_succeeds hs _ _ _ _ _) hn
  | last _ _ hp => exact hp.inv hve hc hinv
  | more _ hstop _ hp _ ih => exact ih hstop (hp.inv hve hc hinv)

end Preserve

theorem perform_inv {alloc : NodeAllocator} {lo hi : Nat} {vas vas' : Vas} {req : Request}
    {res : HandleResult} (hinv : vas.Inv lo hi) (hlo : 0 < lo) (hlohi : lo < hi)
    (hhi : hi < 2 ^ 64) (hs : alloc.Succeeds) (hreq : req.Valid)
    (h : vas.perform alloc req = some (res, vas')) : vas'.Inv lo hi := by
  obtain ⟨res', vas'', h1, h2⟩ := perform_spec alloc hinv.wf hlo hlohi hhi hreq
  rw [h1] at h
  cases h
  rcases h2 with ⟨-, rfl, -⟩ | ⟨v, h2⟩
  · exact hinv
  · have := h2.pos
    exact h2.executes.inv hs (by omega) (Request.Valid.content_ne_free hreq) hinv

/-! ## Reachable states -/

/-- The states that calls reach from a fresh address space over `[start, stop)` when
every node can be allocated. -/
inductive Reachable (start stop : Nat) : Vas → Prop
  | initialized {alloc : NodeAllocator} (mem : Ptr → MemoryRegion) : alloc.Succeeds →
      Reachable start stop (initialized alloc mem start stop).2
  | call {alloc : NodeAllocator} {vas vas' : Vas} {req : Request} {res : HandleResult} :
      Reachable start stop vas → alloc.Succeeds → req.Valid →
      vas.perform alloc req = some (res, vas') → Reachable start stop vas'

/-- An allocator that never runs out of nodes. -/
def unlimited : NodeAllocator where
  allocateNode live := .ok (live.foldr max 0 + 1)
  fresh live p h hp := by
    have hle : ∀ {xs : List Ptr} {x : Ptr}, x ∈ xs → x ≤ xs.foldr max 0 := by
      intro xs x hx
      induction xs with
      | nil => cases hx
      | cons y ys ih =>
          rcases List.mem_cons.mp hx with rfl | hx
          · exact Nat.le_max_left _ _
          · exact (ih hx).trans (Nat.le_max_right _ _)
    cases h
    exact absurd (hle hp) (Nat.not_succ_le_self _)
  error_ne_okay live e h := by cases h

theorem unlimited_succeeds : unlimited.Succeeds := fun _ => ⟨_, rfl⟩

/-- Memory that was never written. -/
def blankMemory : Ptr → MemoryRegion := fun _ => { Region.blank 0 0 with next := none, prev := none }

/-- A fresh address space over `[start, stop)`. -/
def fresh (start stop : Nat) : Vas := (initialized unlimited blankMemory start stop).2

/-- A list of calls, one after the other. -/
def performAll (alloc : NodeAllocator) : List Request → Vas → Option Vas
  | [], vas => some vas
  | req :: reqs, vas => (vas.perform alloc req).bind fun out => performAll alloc reqs out.2

theorem Reachable.of_fresh (start stop : Nat) : Reachable start stop (fresh start stop) :=
  .initialized blankMemory unlimited_succeeds

theorem Reachable.of_performAll {alloc : NodeAllocator} (hs : alloc.Succeeds) {start stop : Nat}
    {reqs : List Request} (hreqs : ∀ req ∈ reqs, req.Valid) {vas vas' : Vas}
    (hr : Reachable start stop vas) (h : performAll alloc reqs vas = some vas') :
    Reachable start stop vas' := by
  induction reqs generalizing vas with
  | nil =>
      cases h
      exact hr
  | cons req reqs ih =>
      rw [Vas.performAll] at h
      obtain ⟨out, hout, hrest⟩ := Option.bind_eq_some_iff.mp h
      exact ih (fun r hr => hreqs r (List.mem_cons_of_mem _ hr))
        (.call hr hs (hreqs req List.mem_cons_self) hout) hrest

theorem initialized_spec {alloc : NodeAllocator} (hs : alloc.Succeeds) (mem : Ptr → MemoryRegion)
    (start stop : Nat) :
    ∃ p, initialized alloc mem start stop = (.okay,
      { mem := Function.update mem p { Region.blank start stop with next := none, prev := none }
        tree := .node .null p 1 .null, first := some p, lastSearched := none }) := by
  obtain ⟨p, hp⟩ := hs []
  refine ⟨p, ?_⟩
  simp [initialized, insert, AvlTree.insert, hp, Except.map]

theorem initialized_inv {alloc : NodeAllocator} (hs : alloc.Succeeds) (mem : Ptr → MemoryRegion)
    {start stop : Nat} (h : start < stop) : (initialized alloc mem start stop).2.Inv start stop := by
  obtain ⟨p, hp⟩ := initialized_spec hs mem start stop
  rw [hp]
  refine ⟨⟨?_, rfl⟩, ?_, ?_, ?_⟩
  · simp [Vas.next, Vas.prev]
  · simp [regions, region, Region.blank, Region.start, Region.stop, h]
  · simp [regions]
  · simp [regions, region, Region.Blank, Region.blank]

theorem Reachable.inv {start stop : Nat} {vas : Vas} (hr : Reachable start stop vas)
    (h0 : 0 < start) (h1 : start < stop) (h2 : stop < 2 ^ 64) : vas.Inv start stop := by
  induction hr with
  | initialized mem hs => exact initialized_inv hs mem h1
  | call _ hs hreq hcall ih => exact perform_inv ih h0 h1 h2 hs hreq hcall

/-- The structure of an address space over `[lo, hi)`, as its users see it. -/
structure WellFormed (vas : Vas) (lo hi : Nat) : Prop where
  /-- The nodes reached from `first` through `next` are those of the tree, in order. -/
  reached : Linked.Chain vas.next vas.first vas.tree.inorder
  /-- The two links are inverse. -/
  inverse : ∀ p ∈ vas.tree.inorder, ∀ q ∈ vas.tree.inorder,
    vas.next p = some q ↔ vas.prev q = some p
  /-- Nothing comes before the first node. -/
  firstPrev : ∀ p ∈ vas.first, vas.prev p = none
  /-- The regions are strictly sorted. -/
  sorted : vas.regions.Pairwise fun a b => a.start < b.start ∧ a.stop ≤ b.start
  /-- The regions are not empty and tile the space exactly. -/
  tiles : Tiles Region.start Region.stop lo vas.regions hi
  /-- Neighbours are not both free. -/
  merged : vas.regions.IsChain NotBothFree

theorem Inv.toWellFormed {vas : Vas} {lo hi : Nat} (h : vas.Inv lo hi) : vas.WellFormed lo hi := by
  have hlinks := h.threaded.links
  have hnd : vas.tree.inorder.Nodup := List.Nodup.of_map vas.region h.regions.tiles.nodup
  refine ⟨?_, ?_, ?_, ?_, h.regions.tiles, h.regions.merged⟩
  · rw [h.threaded.first]
    exact hlinks.chain
  · intro p hp q hq
    exact hlinks.next_eq_iff_prev_eq hnd hp hq
  · intro p hp
    rw [h.threaded.first] at hp
    obtain ⟨ps, hps⟩ := List.head?_eq_some_iff.mp hp
    rw [hps] at hlinks
    exact hlinks.1
  · refine h.regions.tiles.pairwise.imp_of_mem fun {a b} ha _ hab => ⟨?_, hab⟩
    have := h.regions.tiles.bounds ha
    omega

/-- After every call of a run the address space is well formed, and the next call
returns. -/
theorem Reachable.wellFormed {start stop : Nat} (h0 : 0 < start) (h1 : start < stop)
    (h2 : stop < 2 ^ 64) {vas : Vas} (hr : Reachable start stop vas) :
    vas.WellFormed start stop ∧
      ∀ (alloc : NodeAllocator) (req : Request), req.Valid →
        ∃ res vas', vas.perform alloc req = some (res, vas') := by
  have hinv := hr.inv h0 h1 h2
  refine ⟨hinv.toWellFormed, fun alloc req hreq => ?_⟩
  obtain ⟨res, vas', h, -⟩ := perform_spec alloc hinv.wf h0 h1 h2 hreq
  exact ⟨res, vas', h⟩

/-- Two pages allocated in the middle of a small space, and one of them freed. -/
theorem Reachable.wellFormed_small :
    ((performAll unlimited
      [.allocate 0x3000 0x2000 MemoryFlags.writable .generic MemoryAllocationOptions.used,
        .free 0x3000 0x1000 false false] (fresh 0x1000 0x9000)).get (by decide)).WellFormed
      0x1000 0x9000 :=
  (Reachable.wellFormed (by decide) (by decide) (by decide)
    (.of_performAll unlimited_succeeds (by decide) (.of_fresh _ _) (Option.some_get _).symm)).1

end Vas

end Beelzebub.Memory
