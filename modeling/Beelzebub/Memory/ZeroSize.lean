import Beelzebub.Memory.Atomicity

/-!
# Requests of any size

No layer turns down a request for zero bytes, or one whose range wraps around.
`execute` then splits a region at a single address and inserts a region without any
byte.  Only a request that finds no region that accepts it, or that falls on a border
where a neighbour takes the empty range over, leaves the regions alone
(`execute_empty`).  In a run of such requests and of requests for at least one
byte, no region is ever empty (`SizedRun.regions_eq_iff`).
-/

namespace Beelzebub.Memory

open Utils Tiling
open MemoryAllocationOptions (permanent guardLow guardHigh)

namespace Request

/-- The arguments are words, and no allocation asks for free memory. -/
def Typed : Request → Prop
  | allocate vaddr size _ content _ => vaddr < 2 ^ 64 ∧ size < 2 ^ 64 ∧ content ≠ .free
  | free vaddr size _ _ => vaddr < 2 ^ 64 ∧ size < 2 ^ 64

instance : DecidablePred Typed := fun req =>
  match req with
  | allocate .. => inferInstanceAs (Decidable (_ ∧ _ ∧ _))
  | free .. => inferInstanceAs (Decidable (_ ∧ _))

/-- The request is for nothing, not even a guard page. -/
def Empty : Request → Prop
  | allocate _ size _ _ type => size = 0 ∧ has type guardLow = false ∧ has type guardHigh = false
  | free _ size _ _ => size = 0

instance : DecidablePred Empty := fun req =>
  match req with
  | allocate .. => inferInstanceAs (Decidable (_ ∧ _ ∧ _))
  | free .. => inferInstanceAs (Decidable (_ = _))

/-- What `Execute` is run with. -/
def parameters : Request → OperationParameters
  | allocate vaddr size flags content type => Vas.allocateParameters vaddr size flags content type
  | free vaddr size sparse tolerant => Vas.freeParameters vaddr size sparse tolerant

theorem operation_parameters (req : Request) : req.parameters.operation = req.operation := by
  cases req <;> rfl

theorem startSize_parameters (req : Request) : req.parameters.startSize = req.parameters.size := by
  cases req <;> rfl

theorem sparse_parameters (req : Request) :
    req.operation.isAllocation = true → req.parameters.sparse = false := by
  cases req with
  | allocate vaddr size flags content type => exact fun _ => rfl
  | free vaddr size sparse tolerant => exact fun h => by cases h

theorem Typed.content_ne_free {req : Request} (h : req.Typed) :
    req.operation.isAllocation = true → req.operation.newContent ≠ .free := by
  cases req with
  | allocate vaddr size flags content type => exact fun _ => h.2.2
  | free vaddr size sparse tolerant => exact fun h => by cases h

theorem Typed.size_lt {req : Request} (h : req.Typed) : req.parameters.size < 2 ^ 64 := by
  cases req with
  | allocate vaddr size flags content type => exact Nat.mod_lt _ (by decide)
  | free vaddr size sparse tolerant => exact h.2

theorem Empty.size_eq_zero {req : Request} (h : req.Empty) : req.parameters.size = 0 := by
  cases req with
  | allocate vaddr size flags content type =>
      obtain ⟨rfl, hlow, hhigh⟩ := h
      simp [parameters, Vas.allocateParameters, Vas.lowOffset, Vas.highOffset, hlow, hhigh,
        Word.add]
  | free vaddr size sparse tolerant => exact h

end Request

/-! ## Empty passes over a region list -/

theorem Region.clear_low_eq_self_iff {r : Region} :
    r.clear guardLow = r ↔ has r.type guardLow = false := by
  constructor
  · intro h
    have htype : r.type &&& ~~~guardLow = r.type := congrArg Region.type h
    rw [← htype]
    exact has_clear_self _ _
  · intro h
    have hzero : r.type &&& guardLow = 0 := has_eq_false_iff.mp h
    have hsplit : r.type &&& ~~~guardLow ||| r.type &&& guardLow = r.type := by
      rw [← BitVec.and_or_distrib_left,
        show ~~~guardLow ||| guardLow = BitVec.allOnes 32 by decide, BitVec.and_allOnes]
    rw [hzero] at hsplit
    have htype : r.type &&& ~~~guardLow = r.type := by simpa using hsplit
    rw [Region.clear, htype]

section Steps

variable {op : Operation} {v lo hi : Nat} {r : Region} {A B L' : List Region}

theorem Operation.meetsLeft_of_start (op : Operation) (h : r.start = v) : op.MeetsLeft v r := by
  cases op with
  | allocate flags content type => exact h
  | free => exact Or.inl h

/-- A region that is given a new purpose is not what it was. -/
theorem Operation.Hits.repurpose_ne {e : Nat} (h : op.Hits v e r)
    (hc : op.isAllocation = true → op.newContent ≠ .free) : op.repurpose r ≠ r := by
  intro heq
  have hcontent : op.newContent = r.content := by
    rw [← op.content_repurpose r, heq]
  have hacc := h.accepts
  cases op with
  | allocate flags content type => exact hc rfl (hcontent.trans hacc)
  | free => exact hacc hcontent.symm

/-- An empty pass leaves the list alone only at the lower border of an unguarded region,
if the region below takes the empty range over. -/
theorem RegionStep.eq_self_iff (h : RegionStep op v v r (A ++ r :: B) L')
    (ht : Tiles Region.start Region.stop lo (A ++ r :: B) hi)
    (hc : op.isAllocation = true → op.newContent ≠ .free) :
    L' = A ++ r :: B ↔ r.start = v ∧ ¬op.MeetsRight v r ∧ has r.type guardLow = false ∧
      ∃ a ∈ A.getLast?, op.LeftMergeable a := by
  have hnd := ht.nodup
  rw [List.nodup_append] at hnd
  have hA : r ∉ A := fun hr => hnd.2.2 r hr r (by simp) rfl
  have hB : r ∉ B := (List.nodup_cons.mp hnd.2.1).1
  generalize hL : A ++ r :: B = L at h ht ⊢
  cases h with
  | mergeBoth _ _ hr =>
      refine iff_of_false (fun heq => ?_) fun h => h.2.1 hr
      have hlength := congrArg List.length heq
      simp at hlength
  | mergeLeft _ _ hr =>
      refine iff_of_false (fun heq => ?_) fun h => h.2.1 hr
      have hlength := congrArg List.length heq
      simp at hlength
  | mergeRight _ _ hr =>
      refine iff_of_false (fun heq => ?_) fun h => h.2.1 hr
      have hlength := congrArg List.length heq
      simp at hlength
  | repurpose hh _ hr =>
      refine iff_of_false (fun heq => ?_) fun h => h.2.1 hr
      exact hh.repurpose_ne hc (List.cons.inj (List.append_cancel_left heq)).1
  | @startMerge A' B' a hh _ hr ha =>
      have hsplit : (A' ++ [a]) ++ r :: B' = A ++ r :: B := by rw [hL]; simp
      obtain ⟨rfl, -, rfl⟩ := (List.append_cons_inj_of_notMem hA hB).mp hsplit.symm
      obtain ⟨-, -, hstop⟩ := (show Tiles Region.start Region.stop lo (A' ++ a :: r :: B) hi by
        simpa using ht).split
      have hborder : r.start = a.stop := hstop.1
      constructor
      · intro heq
        obtain ⟨-, hrest⟩ := List.cons.inj (List.append_cancel_left heq)
        have hr' : (r.setStart v).clear guardLow = r := (List.cons.inj hrest).1
        have hstart : r.start = v := by rw [← hr']; rfl
        refine ⟨hstart, hr, ?_, a, by simp, ha⟩
        have hset : r.setStart v = r := by rw [← hstart]; rfl
        rw [hset] at hr'
        exact Region.clear_low_eq_self_iff.mp hr'
      · rintro ⟨rfl, -, hg, -⟩
        have hset : r.setStart r.start = r := rfl
        have hset' : a.setStop r.start = a := by rw [hborder]; rfl
        rw [hset, hset', Region.clear_low_eq_self_iff.mpr hg]
  | startSpawn _ _ _ hnone =>
      refine iff_of_false (fun heq => ?_) ?_
      · have hlength := congrArg List.length heq
        simp at hlength
      · rintro ⟨-, -, -, a, ha, hmerge⟩
        obtain ⟨rfl, -, -⟩ := (List.append_cons_inj_of_notMem hA hB).mp hL
        exact hnone a ha hmerge
  | endMerge hh hl =>
      refine iff_of_false (fun heq => ?_) fun h => hl (op.meetsLeft_of_start h.1)
      have hr := (List.cons.inj (List.append_cancel_left heq)).1
      have hstop : v = _ := congrArg Region.stop hr
      exact absurd hh.upper (by omega)
  | endSpawn _ hl =>
      refine iff_of_false (fun heq => ?_) fun h => hl (op.meetsLeft_of_start h.1)
      have hlength := congrArg List.length heq
      simp at hlength
  | middle _ hl =>
      refine iff_of_false (fun heq => ?_) fun h => hl (op.meetsLeft_of_start h.1)
      have hlength := congrArg List.length heq
      simp only [List.length_append, List.length_cons] at hlength
      omega

end Steps

namespace Vas

/-! ## Requests that are turned down -/

/-- No region around `v` lets the operation touch it. -/
def Declines (vas : Vas) (op : Operation) (v : Nat) : Prop :=
  ∀ p, vas.Around v p → ¬op.Accepts (vas.region p) ∨ has (vas.region p).type permanent = true

/-- An empty request at `v` leaves no mark on the region of `p`: it lies at the lower
border, takes no guard page along, and a neighbour takes the empty range over, or no node
is left that could hold it. -/
structure LeavesNoMark (alloc : NodeAllocator) (op : Operation) (v : Nat) (vas : Vas) (p : Ptr) :
    Prop where
  start : (vas.region p).start = v
  notRight : ¬op.MeetsRight v (vas.region p)
  unguarded : has (vas.region p).type guardLow = false
  absorbed : (∃ a ∈ vas.prev p, op.LeftMergeable (vas.region a)) ∨
    ∃ res, alloc.allocateNode vas.tree.inorder = .error res

/-- An empty request at `v` is turned down or leaves no mark. -/
def Spares (alloc : NodeAllocator) (op : Operation) (v : Nat) (vas : Vas) : Prop :=
  vas.Declines op v ∨ ∃ p, vas.Around v p ∧ vas.LeavesNoMark alloc op v p

section Execute

variable {alloc : NodeAllocator} {lo hi fuel : Nat} {vas vas' : Vas} {p : Ptr}
  {op : OperationParameters} {res : HandleResult}

/-- The only pass of a request that does not reach beyond the region it finds. -/
theorem execute_within (hw : vas.Wf lo hi) (hlohi : lo < hi)
    (hnull : op.operation.isAllocation = true → op.address ≠ 0) (hp : vas.Around op.address p)
    (hwithin : Word.add op.address op.size ≤ (vas.region p).stop) :
    vas.execute alloc (fuel + 1) op =
      if ¬op.operation.Accepts (vas.region p) ∧ op.tolerant = false then
        some (.pageFree, op, vas.forget p)
      else
        let out := if op.operation.Accepts (vas.region p) then
          (vas.forget p).executeAccepted alloc op p ((vas.forget p).check op p)
          else (.okay, vas.forget p)
        some (out.1, op, out.2) := by
  have hacc : ((vas.forget p).check op p).accepted = decide (op.operation.Accepts (vas.region p)) := by
    rw [check_eq, Operation.check_accepted, region_forget]
  have hfail : ((vas.forget p).check op p).failureResult = .pageFree := by
    rw [check_eq, Operation.check_failureResult]
  have hbeyond : ¬Word.add op.address op.size > (vas.mem p).range.stop := by
    show ¬Word.add op.address op.size > (vas.region p).stop
    omega
  rw [execute, if_neg (hw.first_ne_none hlohi), if_neg (fun h => hnull h.1 h.2),
    hw.findRegion_eq_some hp]
  have hforget : (if vas.lastSearched = some p then { vas with lastSearched := none } else vas) =
      vas.forget p := rfl
  simp only [hforget, hacc, hfail, mem_forget, hbeyond, decide_eq_true_eq, Bool.not_eq_true,
    decide_false, Bool.false_eq_true, false_and, if_false]
  cases hfirst : decide (op.operation.Accepts (vas.region p)) with
  | true =>
      have haccepts := of_decide_eq_true hfirst
      simp only [haccepts, not_true_eq_false, false_and, if_true, if_false]
      split
      next => rfl
      next hokay => rw [not_not.mp hokay]
  | false =>
      have hrefuses := of_decide_eq_false hfirst
      simp only [hrefuses, not_false_eq_true, true_and, if_false]
      split <;> rfl

/-- A request that is turned down changes at most the cache. -/
theorem execute_declined (alloc : NodeAllocator) (fuel : Nat) (op : OperationParameters)
    (hw : vas.Wf lo hi) (hlohi : lo < hi)
    (hnull : op.operation.isAllocation = true → op.address ≠ 0)
    (hwithin : ∀ p, vas.Around op.address p → Word.add op.address op.size ≤ (vas.region p).stop)
    (hdecl : vas.Declines op.operation op.address) :
    ∃ res vas', vas.execute alloc (fuel + 1) op = some (res, op, vas') ∧
      (vas' = vas ∨ ∃ p, vas' = vas.forget p) := by
  cases hfind : vas.findRegion op.address with
  | none =>
      refine ⟨.argumentOutOfRange, vas, ?_, Or.inl rfl⟩
      rw [execute, if_neg (hw.first_ne_none hlohi), if_neg (fun h => hnull h.1 h.2), hfind]
  | some p =>
      have hp := around_of_findRegion hfind
      rw [execute_within hw hlohi hnull hp (hwithin p hp)]
      split
      next => exact ⟨_, _, rfl, Or.inr ⟨p, rfl⟩⟩
      next htol =>
        split
        next hacc =>
          have hperm : has (vas.region p).type permanent = true :=
            (hdecl p hp).resolve_left (not_not.mpr hacc)
          rw [executeAccepted, if_pos (by rw [mem_forget]; exact hperm)]
          exact ⟨_, _, rfl, Or.inr ⟨p, rfl⟩⟩
        next => exact ⟨_, _, rfl, Or.inr ⟨p, rfl⟩⟩

/-- Cutting a region at its own start takes nothing but its low guard. -/
theorem regions_cutStart_start (hp : p ∈ vas.tree.inorder) :
    (vas.cutStart p (vas.region p).start).regions = vas.regions ↔
      has (vas.region p).type guardLow = false := by
  rw [← Region.clear_low_eq_self_iff]
  constructor
  · intro h
    have hregion := List.map_inj_left.mp h p hp
    rwa [region_cutStart] at hregion
  · intro h
    refine List.map_congr_left fun q _ => ?_
    by_cases hq : q = p
    · rw [hq, region_cutStart]
      exact h
    · exact region_cutStart_ne hq

theorem Threaded.cutStart (h : vas.Threaded) (e : Nat) : (vas.cutStart p e).Threaded := by
  have hnext : (vas.cutStart p e).next = vas.next := by
    funext q
    rw [next, next, Vas.cutStart, mem_modify]
    split <;> rfl
  have hprev : (vas.cutStart p e).prev = vas.prev := by
    funext q
    rw [prev, prev, Vas.cutStart, mem_modify]
    split <;> rfl
  exact ⟨by rw [hnext, hprev]; exact h.links, h.first⟩

/-- A pass over the beginning of a region that lacks nodes could not merge. -/
theorem not_available_start {operation : Operation} {v e : Nat}
    (h : ¬vas.NodesAvailable alloc operation v e p)
    (hl : operation.MeetsLeft v (vas.region p)) :
    ¬operation.MeetsRight e (vas.region p) ∧
      ∃ res, alloc.allocateNode vas.tree.inorder = .error res := by
  constructor
  · intro hr
    exact h ⟨fun _ hn => absurd hr hn, fun hn => absurd hl hn, fun hn => absurd hl hn⟩
  · cases hn : alloc.allocateNode vas.tree.inorder with
    | ok n => exact absurd ⟨fun _ _ _ => ⟨n, hn⟩, fun hn => absurd hl hn, fun hn => absurd hl hn⟩ h
    | error res => exact ⟨res, rfl⟩

/-- With the nodes it needs, an empty request leaves no mark only if it is merged. -/
theorem NodesAvailable.leavesNoMark_iff {operation : Operation} {v : Nat}
    (h : vas.NodesAvailable alloc operation v v p) :
    vas.LeavesNoMark alloc operation v p ↔
      (vas.region p).start = v ∧ ¬operation.MeetsRight v (vas.region p) ∧
        has (vas.region p).type guardLow = false ∧
        ∃ a ∈ vas.prev p, operation.LeftMergeable (vas.region a) := by
  refine ⟨fun hm => ⟨hm.start, hm.notRight, hm.unguarded, ?_⟩,
    fun hm => ⟨hm.1, hm.2.1, hm.2.2.1, Or.inl hm.2.2.2⟩⟩
  rcases hm.absorbed with hmerge | ⟨res, herr⟩
  · exact hmerge
  · by_contra hnone
    obtain ⟨n, hok⟩ := h.start (Operation.meetsLeft_of_start _ hm.start) hm.notRight
      fun a ha hmerge => hnone ⟨a, ha, hmerge⟩
    rw [hok] at herr
    cases herr

/-- What an empty pass does to a region that lets it. -/
theorem executeAccepted_empty {A B : List Ptr} (alloc : NodeAllocator)
    (f : vas.Focus lo hi A p B) (hhi : hi < 2 ^ 64)
    (hsize : op.size = 0) (hh : op.operation.Hits op.address op.address (vas.region p))
    (hc : op.operation.isAllocation = true → op.operation.newContent ≠ .free) :
    ∃ res vas', vas.executeAccepted alloc op p (vas.check op p) = (res, vas') ∧
      (vas'.regions = vas.regions ↔ vas.LeavesNoMark alloc op.operation op.address p) ∧
      (vas'.regions = vas.regions → vas'.Threaded) := by
  have hstop : (vas.region p).stop < 2 ^ 64 := Nat.lt_of_le_of_lt f.split.2.2.le hhi
  have hupp := hh.upper
  have hend : op.address + op.size = op.address := by omega
  have hmem : p ∈ vas.tree.inorder := by rw [f.inorder]; simp
  by_cases hn : vas.NodesAvailable alloc op.operation op.address op.address p
  · obtain ⟨vas', h1, hpass⟩ := executeAccepted_passed f hhi hh hend (by omega) (Nat.le_refl _) hn
    refine ⟨_, vas', h1, ?_, fun _ => hpass.threaded⟩
    have hstep := hpass.step
    have htiles := f.tiles
    have hprev : vas.prev p = A.getLast? := f.prev_eq
    rw [f.regions] at hstep htiles
    rw [f.regions, hstep.eq_self_iff htiles hc, hn.leavesNoMark_iff, hprev, List.getLast?_map]
    simp only [Option.mem_def, Option.map_eq_some_iff, exists_exists_and_eq_and]
  · obtain ⟨res, vas', h1, -, hsame, hdiff⟩ := executeAccepted_noNode f hhi hh hend (by omega)
      (Nat.le_refl _) hn
    refine ⟨res, vas', h1, ?_⟩
    by_cases hstart : (vas.region p).start = op.address
    · obtain rfl := hsame hstart
      obtain ⟨hr, herr⟩ := not_available_start hn (Operation.meetsLeft_of_start _ hstart)
      rw [← hstart, regions_cutStart_start hmem]
      refine ⟨⟨fun hg => ⟨rfl, ?_, hg, Or.inr herr⟩, fun hm => hm.unguarded⟩,
        fun _ => f.threaded.cutStart _⟩
      rwa [hstart]
    · exact ⟨iff_of_false (hdiff hstart) fun h => hstart h.start, fun h => absurd h (hdiff hstart)⟩

theorem leavesNoMark_forget {operation : Operation} {v : Nat} {q : Ptr} :
    (vas.forget q).LeavesNoMark alloc operation v p ↔ vas.LeavesNoMark alloc operation v p := by
  constructor
  · intro h
    exact ⟨by simpa using h.start, by simpa using h.notRight, by simpa using h.unguarded,
      by simpa using h.absorbed⟩
  · intro h
    exact ⟨by simpa using h.start, by simpa using h.notRight, by simpa using h.unguarded,
      by simpa using h.absorbed⟩

/-- An empty request leaves the regions alone exactly if it is spared. -/
theorem execute_empty (alloc : NodeAllocator) (fuel : Nat) (op : OperationParameters)
    (hinv : vas.Inv lo hi) (hlohi : lo < hi) (hhi : hi < 2 ^ 64)
    (hnull : op.operation.isAllocation = true → op.address ≠ 0) (hsize : op.size = 0)
    (hc : op.operation.isAllocation = true → op.operation.newContent ≠ .free) :
    ∃ res vas', vas.execute alloc (fuel + 1) op = some (res, op, vas') ∧
      (vas'.regions = vas.regions ↔ vas.Spares alloc op.operation op.address) ∧
      (vas'.regions = vas.regions → vas'.Inv lo hi) := by
  have hw := hinv.wf
  have hwithin : ∀ p, vas.Around op.address p →
      Word.add op.address op.size ≤ (vas.region p).stop := by
    intro p hp
    have hbounds := hw.tiles.bounds (List.mem_map_of_mem hp.mem)
    have hupp := hp.upper
    rw [hsize, Word.add_of_lt (by omega)]
    exact Nat.le_of_lt hupp
  by_cases hdecl : vas.Declines op.operation op.address
  · obtain ⟨res, vas', h1, h2⟩ := execute_declined alloc fuel op hw hlohi hnull hwithin hdecl
    refine ⟨res, vas', h1, ?_⟩
    rcases h2 with rfl | ⟨p, rfl⟩
    · exact ⟨iff_of_true rfl (Or.inl hdecl), fun _ => hinv⟩
    · exact ⟨iff_of_true (by simp) (Or.inl hdecl), fun _ => hinv.forget p⟩
  · unfold Declines at hdecl
    push Not at hdecl
    obtain ⟨p, hp, hacc, hmov⟩ := hdecl
    have hh : op.operation.Hits op.address op.address ((vas.forget p).region p) := by
      rw [region_forget]
      exact ⟨hp.lower, hp.upper, hacc, by simpa using hmov, fun _ => Nat.le_of_lt hp.upper⟩
    obtain ⟨A, B, f⟩ := (hw.forget p).focus (by simpa using hp.mem)
    obtain ⟨res, vas', h1, h2, h3⟩ := executeAccepted_empty alloc f hhi hsize hh hc
    rw [regions_forget, leavesNoMark_forget] at h2
    rw [regions_forget] at h3
    refine ⟨res, vas', ?_, h2.trans ⟨fun hm => Or.inr ⟨p, hp, hm⟩, ?_⟩, fun hsame => ?_⟩
    · rw [execute_within hw hlohi hnull hp (hwithin p hp), if_neg (fun h => h.1 hacc)]
      simp only [if_pos hacc, h1]
    · rintro (hdecl | ⟨q, hq, hm⟩)
      · rcases hdecl p hp with hn | hperm
        · exact absurd hacc hn
        · exact absurd hperm hmov
      · rwa [hw.around_unique hp hq]
    · exact ⟨h3 hsame, hsame ▸ hinv.regions⟩

end Execute

/-! ## Calls -/

/-- The address at which `Execute` is run for a request, if there is one. -/
def settled (vas : Vas) (req : Request) : Option Nat :=
  if req.operation.isAllocation ∧ req.parameters.address = 0 then
    (vas.findAnonymous req.parameters.size vas.tree.inorder.length vas.first).join
  else some req.parameters.address

/-- A request that cannot leave an empty region.  One for at least one byte gets its
nodes, one that wraps around is turned down, and an empty one is spared. -/
def Sane (alloc : NodeAllocator) (vas : Vas) (req : Request) : Prop :=
  ∀ v ∈ vas.settled req,
    (0 < req.parameters.size ∧ v + req.parameters.size < 2 ^ 64 ∧
      vas.Ready alloc req.operation req.parameters.sparse (v + req.parameters.size) v) ∨
    (2 ^ 64 ≤ v + req.parameters.size ∧ vas.Declines req.operation v) ∨
    (req.parameters.size = 0 ∧ vas.Spares alloc req.operation v)

section Calls

variable {alloc : NodeAllocator} {lo hi : Nat} {vas vas' : Vas} {req : Request}
  {res : HandleResult}

theorem perform_eq_execute (alloc : NodeAllocator) (req : Request) (hfirst : vas.first ≠ none) :
    vas.perform alloc req =
      (vas.execute alloc vas.fuel req.parameters).map fun out => (out.1, out.2.2) := by
  cases req with
  | allocate vaddr size flags content type =>
      rw [perform, allocate, if_neg hfirst, Option.map_map]
      rfl
  | free vaddr size sparse tolerant => rfl

/-- A call fails for want of memory, or runs `Execute` at the address it settles on. -/
theorem perform_settled (alloc : NodeAllocator) (req : Request) (hw : vas.Wf lo hi) (hlo : 0 < lo)
    (hlohi : lo < hi) (hhi : hi < 2 ^ 64) :
    (vas.settled req = none ∧ vas.perform alloc req = some (.outOfMemory, vas)) ∨
      ∃ v fuel, vas.settled req = some v ∧ vas.tree.inorder.length < fuel + 1 ∧
        (req.operation.isAllocation = true → v ≠ 0) ∧
        vas.perform alloc req =
          (vas.execute alloc (fuel + 1) { req.parameters with address := v }).map
            fun out => (out.1, out.2.2) := by
  have hfirst := hw.first_ne_none hlohi
  rw [perform_eq_execute alloc req hfirst]
  by_cases hanon : req.operation.isAllocation = true ∧ req.parameters.address = 0
  · have hanon' : req.parameters.operation.isAllocation = true ∧ req.parameters.address = 0 := by
      rwa [req.operation_parameters]
    obtain ⟨out, hout, hfits⟩ := findAnonymous_spec req.parameters.size
      (hw.threaded.first ▸ hw.threaded.links.chain) (Nat.le_refl vas.tree.inorder.length)
    have hstart : vas.findAnonymous req.parameters.startSize vas.tree.inorder.length vas.first =
        some out := by
      rw [req.startSize_parameters, hout]
    rw [settled, if_pos hanon, hout, fuel, execute, if_neg hfirst, if_pos hanon', hstart]
    cases out with
    | none => exact Or.inl ⟨rfl, rfl⟩
    | some address =>
        refine Or.inr ⟨address, vas.tree.inorder.length, rfl, Nat.lt_succ_self _, fun _ => ?_, rfl⟩
        obtain ⟨p, hp, -, hfit, rfl⟩ := hfits address rfl
        have hbounds := hw.tiles.bounds (List.mem_map_of_mem (f := vas.region) hp)
        have hget : (vas.region p).range.getSize = (vas.region p).stop - (vas.region p).start :=
          Word.sub_of_le (by unfold Region.stop at hbounds; omega) (Nat.le_of_lt hbounds.2.1)
        rw [Word.sub_of_le (by omega) (by omega)]
        omega
  · refine Or.inr ⟨req.parameters.address, vas.tree.inorder.length + 1, if_neg hanon, by omega, ?_,
      rfl⟩
    intro halloc hzero
    exact hanon ⟨halloc, hzero⟩

/-- A sane call returns and keeps the invariant. -/
theorem Inv.perform_sane (hinv : vas.Inv lo hi) (hlo : 0 < lo) (hlohi : lo < hi)
    (hhi : hi < 2 ^ 64) (hreq : req.Typed) (hsane : vas.Sane alloc req) :
    ∃ res vas', vas.perform alloc req = some (res, vas') ∧ vas'.Inv lo hi := by
  have hw := hinv.wf
  have hop := req.operation_parameters
  rcases perform_settled alloc req hw hlo hlohi hhi with ⟨-, h⟩ | ⟨v, fuel, hv, hfuel, hnull, h⟩
  · exact ⟨_, _, h, hinv⟩
  rw [h]
  rcases hsane v hv with ⟨hpos, hwrap, hready⟩ | ⟨hwrap, hdecl⟩ | ⟨hzero, hspares⟩
  · obtain ⟨res₁, op₁, vas₁, h1, h2, -⟩ := execute_refines alloc hhi hlohi (fuel + 1)
      { req.parameters with address := v } vas hw hpos hwrap
      (fun halloc => ⟨hnull (hop ▸ halloc), req.sparse_parameters (hop ▸ halloc)⟩)
      (Nat.lt_of_le_of_lt (countAbove_le_length v vas) hfuel)
    refine ⟨res₁, vas₁, by rw [h1]; rfl, ?_⟩
    simp only [hop] at h2
    exact h2.inv_of_ready hready req.sparse_parameters (by omega) hreq.content_ne_free hinv
  · have hwithin : ∀ p, vas.Around v p → Word.add v req.parameters.size ≤ (vas.region p).stop := by
      intro p hp
      have hbounds := hw.tiles.bounds (List.mem_map_of_mem hp.mem)
      have hupp := hp.upper
      have hsize := hreq.size_lt
      unfold Word.add
      omega
    obtain ⟨res₁, vas₁, h1, h2⟩ := execute_declined alloc fuel
      { req.parameters with address := v } hw hlohi (hop ▸ hnull) hwithin (hop ▸ hdecl)
    refine ⟨res₁, vas₁, by rw [h1]; rfl, ?_⟩
    rcases h2 with rfl | ⟨p, rfl⟩
    · exact hinv
    · exact hinv.forget p
  · obtain ⟨res₁, vas₁, h1, h2, h3⟩ := execute_empty alloc fuel
      { req.parameters with address := v } hinv hlohi hhi (hop ▸ hnull) hzero
      (hop ▸ hreq.content_ne_free)
    exact ⟨res₁, vas₁, by rw [h1]; rfl, h3 (h2.mpr (hop ▸ hspares))⟩

theorem Inv.perform_of_sane (hinv : vas.Inv lo hi) (hlo : 0 < lo) (hlohi : lo < hi)
    (hhi : hi < 2 ^ 64) (hreq : req.Typed) (hsane : vas.Sane alloc req)
    (hcall : vas.perform alloc req = some (res, vas')) : vas'.Inv lo hi := by
  obtain ⟨res₁, vas₁, h1, h2⟩ := hinv.perform_sane hlo hlohi hhi hreq hsane
  rw [h1] at hcall
  cases hcall
  exact h2

/-- An empty call returns, and leaves the regions alone exactly if it is spared. -/
theorem Inv.perform_empty (alloc : NodeAllocator) (hinv : vas.Inv lo hi) (hlo : 0 < lo)
    (hlohi : lo < hi) (hhi : hi < 2 ^ 64) (hreq : req.Typed) (hzero : req.parameters.size = 0) :
    ∃ res vas', vas.perform alloc req = some (res, vas') ∧
      (vas'.regions = vas.regions ↔
        ∀ v ∈ vas.settled req, vas.Spares alloc req.operation v) := by
  have hop := req.operation_parameters
  rcases perform_settled alloc req hinv.wf hlo hlohi hhi with
    ⟨hnone, h⟩ | ⟨v, fuel, hv, -, hnull, h⟩
  · refine ⟨_, _, h, iff_of_true rfl fun v hv => ?_⟩
    rw [hnone] at hv
    cases hv
  · obtain ⟨res, vas', h1, h2, -⟩ := execute_empty alloc fuel
      { req.parameters with address := v } hinv hlohi hhi (hop ▸ hnull) hzero
      (hop ▸ hreq.content_ne_free)
    refine ⟨res, vas', by rw [h, h1]; rfl, h2.trans ?_⟩
    rw [hv]
    simp [hop]

end Calls

/-! ## Runs -/

/-- The states that sane requests of any size reach from a fresh address space over
`[start, stop)`. -/
inductive SizedRun (start stop : Nat) : Vas → Prop
  | initialized {alloc : NodeAllocator} (mem : Ptr → MemoryRegion) : alloc.Succeeds →
      SizedRun start stop (initialized alloc mem start stop).2
  | call {alloc : NodeAllocator} {vas vas' : Vas} {req : Request} {res : HandleResult} :
      SizedRun start stop vas → req.Typed → vas.Sane alloc req →
      vas.perform alloc req = some (res, vas') → SizedRun start stop vas'

section Runs

variable {start stop : Nat} {vas : Vas}

theorem SizedRun.inv (hr : SizedRun start stop vas) (h0 : 0 < start) (h1 : start < stop)
    (h2 : stop < 2 ^ 64) : vas.Inv start stop := by
  induction hr with
  | initialized mem hs => exact initialized_inv hs mem h1
  | call _ hreq hsane hcall ih => exact ih.perform_of_sane h0 h1 h2 hreq hsane hcall

/-- In every state of a run no region is empty and no two neighbours are free, and the next
empty request leaves the regions as they are exactly if it is spared. -/
theorem SizedRun.regions_eq_iff (h0 : 0 < start) (h1 : start < stop) (h2 : stop < 2 ^ 64)
    (hr : SizedRun start stop vas) :
    (∀ r ∈ vas.regions, r.start < r.stop) ∧ vas.regions.IsChain NotBothFree ∧
      ∀ (alloc : NodeAllocator) (req : Request), req.Typed → req.Empty →
        ∃ res vas', vas.perform alloc req = some (res, vas') ∧
          (vas'.regions = vas.regions ↔
            ∀ v ∈ vas.settled req, vas.Spares alloc req.operation v) := by
  have hinv := hr.inv h0 h1 h2
  refine ⟨fun r hmem => (hinv.regions.tiles.bounds hmem).2.1, hinv.regions.merged, ?_⟩
  intro alloc req hreq hempty
  exact hinv.perform_empty alloc h0 h1 h2 hreq hempty.size_eq_zero

/-- Requests for whole pages settle where they are targeted. -/
theorem settled_eq_target {req : Request} (vas : Vas) (hreq : req.Valid) :
    req.parameters.size = req.effectiveSize ∧ vas.settled req = vas.target req := by
  cases req with
  | allocate vaddr size flags content type =>
      have hparam := allocateParameters_eq hreq
      refine ⟨congrArg OperationParameters.size hparam, ?_⟩
      rw [settled, target, Request.parameters, hparam]
  | free vaddr size sparse tolerant => exact ⟨rfl, rfl⟩

theorem typed_of_valid {req : Request} (hreq : req.Valid) : req.Typed := by
  cases req with
  | allocate vaddr size flags content type =>
      obtain ⟨-, -, hc, -, hwrap⟩ := hreq
      split at hwrap
      next hzero => exact ⟨by omega, by omega, hc⟩
      next => exact ⟨by omega, by omega, hc⟩
  | free vaddr size sparse tolerant =>
      obtain ⟨-, -, hwrap⟩ := hreq
      exact ⟨by omega, by omega⟩

/-- Runs of whole-page requests are among these runs. -/
theorem Reachable.sizedRun (hr : Reachable start stop vas) (h0 : 0 < start) (h1 : start < stop)
    (h2 : stop < 2 ^ 64) : SizedRun start stop vas := by
  induction hr with
  | initialized mem hs => exact .initialized mem hs
  | @call alloc vas vas' req res hreach hs hreq hcall ih =>
      refine .call ih (typed_of_valid hreq) (fun v hv => Or.inl ?_) hcall
      obtain ⟨hsize, htarget⟩ := settled_eq_target vas hreq
      obtain ⟨_, _, -, ⟨-, -, hnone⟩ | ⟨w, hperf⟩⟩ :=
        perform_spec alloc (hreach.inv h0 h1 h2).wf h0 h1 h2 hreq
      · rw [htarget, hnone] at hv
        cases hv
      · rw [htarget, hperf.target] at hv
        cases hv
        rw [hsize]
        exact ⟨hperf.pos, hperf.noWrap, fun _ _ _ _ => .of_succeeds hs _ _ _ _ _⟩

/-- An empty request at any address, on a fresh space. -/
theorem SizedRun.regions_eq_iff_small :
    ∃ res vas', (fresh 0x1000 0x9000).perform unlimited
        (.allocate 0 0 MemoryFlags.writable .generic MemoryAllocationOptions.used) =
          some (res, vas') ∧
      (vas'.regions = (fresh 0x1000 0x9000).regions ↔
        ∀ v ∈ (fresh 0x1000 0x9000).settled
            (.allocate 0 0 MemoryFlags.writable .generic MemoryAllocationOptions.used),
          (fresh 0x1000 0x9000).Spares unlimited
            (.allocate MemoryFlags.writable .generic MemoryAllocationOptions.used) v) :=
  (SizedRun.regions_eq_iff (by decide) (by decide) (by decide)
    (.initialized blankMemory unlimited_succeeds)).2.2 unlimited _ (by decide) (by decide)

/-- An empty allocation in the middle of a fresh space splits it and inserts a region
without any byte. -/
theorem SizedRun.empty_region_inserted :
    ∃ vas vas' : Vas, SizedRun 0x1000 0x9000 vas ∧
      (Request.allocate 0x3000 0 MemoryFlags.writable .generic
        MemoryAllocationOptions.used).Typed ∧
      (Request.allocate 0x3000 0 MemoryFlags.writable .generic
        MemoryAllocationOptions.used).Empty ∧
      vas.perform unlimited (.allocate 0x3000 0 MemoryFlags.writable .generic
        MemoryAllocationOptions.used) = some (.okay, vas') ∧
      vas'.regions ≠ vas.regions ∧ ∃ r ∈ vas'.regions, r.start = r.stop := by
  obtain ⟨⟨res, vas'⟩, hcall, hres⟩ := Option.map_eq_some_iff.mp
    (show ((fresh 0x1000 0x9000).perform unlimited (.allocate 0x3000 0 MemoryFlags.writable
        .generic MemoryAllocationOptions.used)).map (fun out => (out.1, decide
          (out.2.regions ≠ (fresh 0x1000 0x9000).regions ∧
            ∃ r ∈ out.2.regions, r.start = r.stop))) = some (.okay, true) by decide)
  rw [Prod.mk.injEq, decide_eq_true_iff] at hres
  obtain ⟨rfl, hsplit⟩ := hres
  exact ⟨_, vas', .initialized blankMemory unlimited_succeeds, by decide, by decide, hcall, hsplit⟩

end Runs

end Vas

end Beelzebub.Memory
