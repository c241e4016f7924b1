import Beelzebub.Memory.ZeroSize

/-!
# The kernel's own address space

`KernelVas` takes its region descriptors from pools in the very address space they
describe.  It must not run out of them in the middle of an operation, for the allocator
would then call back into a half-done update.  So `PostOp` acquires a new pool as soon as
fewer than four descriptors are left: enough for the worst split of one operation and the
worst split of the allocation that acquires the pool (`KernelRun.freeCount`).

`PreOp` only drops the lock when the enlarging core calls back, and locking is left out
here.  Every descriptor that is not in the tree is free, and pools are never released.
-/

namespace Beelzebub.Memory

open Utils Tiling

/-- The pools of descriptors: which free one is handed out next, and the sizes of a
descriptor and of the header of a pool.  More than four descriptors fit into a page. -/
structure DescriptorPools where
  pick : List Ptr → Ptr
  fresh : ∀ live, pick live ∉ live
  objectSize : Nat
  headerSize : Nat
  objectSize_pos : 0 < objectSize
  ample : objectSize * 5 + headerSize ≤ pageSize

namespace DescriptorPools

/-- `AllocateObject` with this many objects in all pools.  If none is free, it would acquire
a pool; callers tell that case by its result. -/
def allocator (pools : DescriptorPools) (capacity : Nat) : NodeAllocator where
  allocateNode live :=
    if live.length < capacity then .ok (pools.pick live) else .error .objaPoolsExhausted
  fresh live p h := by
    split at h
    next =>
      cases h
      exact pools.fresh live
    next => cases h
  error_ne_okay live e h := by
    split at h
    next => cases h
    next =>
      cases h
      decide

/-- The size of a pool with room for this many objects. -/
def poolSize (pools : DescriptorPools) (minimumObjects : Nat) : Nat :=
  (pools.objectSize * minimumObjects + pools.headerSize + (pageSize - 1)) / pageSize * pageSize

/-- The number of objects that fit into such a pool. -/
def poolCapacity (pools : DescriptorPools) (minimumObjects : Nat) : Nat :=
  (pools.poolSize minimumObjects - pools.headerSize) / pools.objectSize

theorem poolSize_one (pools : DescriptorPools) : pools.poolSize 1 = pageSize := by
  have hpos := pools.objectSize_pos
  have hample := pools.ample
  unfold poolSize
  rw [Nat.mul_one, Nat.div_eq_of_lt_le (k := 1)] <;> unfold pageSize at * <;> omega

theorem lt_poolCapacity_one (pools : DescriptorPools) : 4 < pools.poolCapacity 1 := by
  have hample := pools.ample
  rw [poolCapacity, pools.poolSize_one]
  refine (Nat.le_div_iff_mul_le pools.objectSize_pos).mpr ?_
  rw [Nat.mul_comm]
  omega

end DescriptorPools

/-- The address space, the number of descriptors in its pools and the core that enlarges
them, if any. -/
structure KernelVas where
  vas : Vas
  capacity : Nat
  enlargingCore : Option Nat

namespace KernelVas

def freeDescriptorsThreshold : Nat := 4

/-- `Alloc.GetFreeCount()`. -/
def getFreeCount (k : KernelVas) : Nat := k.capacity - k.vas.tree.inorder.length

/-- Where the model ends. -/
inductive Stop where
  /-- A walk or a recursion does not come to its end. -/
  | fuel
  /-- `AllocateNode` finds no free descriptor. -/
  | starved
  /-- `ForceExpand` fails. -/
  | refused
deriving DecidableEq, Repr

/-- `KernelVas::PostOp` on the given core. -/
def postOp (core : Nat) (forceExpand : Nat → KernelVas → Except Stop (HandleResult × KernelVas))
    (oRes : HandleResult) (k : KernelVas) : Except Stop (HandleResult × KernelVas) :=
  if k.getFreeCount ≥ freeDescriptorsThreshold then .ok (oRes, k)
  else if k.enlargingCore = none then
    (forceExpand (freeDescriptorsThreshold - k.getFreeCount)
        { k with enlargingCore := some core }).map fun (res, k) =>
      (if oRes = .okay then res else oRes, { k with enlargingCore := none })
  else .ok (oRes, k)

/-- What one level of `Execute` comes to before its hook runs: a result, or another level
below it. -/
inductive Level where
  | ends (res : HandleResult) (k : KernelVas)
  | enters (op : OperationParameters) (k : KernelVas)

/-- The part of `Execute` that works on the region it has found. -/
def pass (pools : DescriptorPools) (op : OperationParameters) (reg : Ptr) (k : KernelVas) :
    Except Stop Level :=
  let vas := k.vas.forget reg
  let stop := (vas.mem reg).range.stop
  let beyond := decide (Word.add op.address op.size > stop)
  if beyond ∧ ¬op.sparse then .ok (.ends .argumentOutOfRange { k with vas })
  else
    let dcr := vas.check op reg
    if ¬dcr.accepted ∧ ¬op.tolerant then .ok (.ends dcr.failureResult { k with vas })
    else
      let out : HandleResult × Vas :=
        if dcr.accepted then vas.executeAccepted (pools.allocator k.capacity) op reg dcr
        else (.okay, vas)
      let k := { k with vas := out.2 }
      if out.1 = .objaPoolsExhausted then .error .starved
      else if out.1 ≠ .okay then .ok (.ends out.1 k)
      else if beyond ∧ stop ≠ 0 then
        .ok (.enters { op with
          address := stop
          size := Word.sub op.size (Word.sub stop op.address) } k)
      else .ok (.ends out.1 k)

/-- One level of `Execute` on a space that is not disposed of. -/
def level (pools : DescriptorPools) (op : OperationParameters) (k : KernelVas) :
    Except Stop Level :=
  if op.operation.isAllocation ∧ op.address = 0 then
    match k.vas.findAnonymous op.startSize k.vas.tree.inorder.length k.vas.first with
    | none => .error .fuel
    | some none => .ok (.ends .outOfMemory k)
    | some (some address) => .ok (.enters { op with address } k)
  else
    match k.vas.findRegion op.address with
    | none => .ok (.ends .argumentOutOfRange k)
    | some reg => pass pools op reg k

/-- `OperationParameters::Execute`, with the hook at the end of every level. -/
def executeWith (pools : DescriptorPools)
    (postOp : HandleResult → KernelVas → Except Stop (HandleResult × KernelVas)) :
    Nat → OperationParameters → KernelVas → Except Stop (HandleResult × KernelVas)
  | 0, _, _ => .error .fuel
  | fuel + 1, op, k =>
      if k.vas.first = none then .ok (.objectDisposed, k)
      else
        match level pools op k with
        | .error stop => .error stop
        | .ok (.ends res k) => postOp res k
        | .ok (.enters op k) =>
            match executeWith pools postOp fuel op k with
            | .error stop => .error stop
            | .ok (res, k) => postOp res k

/-- `ForceExpand` by way of `AcquirePoolForVas`: an anonymous allocation on the same core,
whose pages are then committed, with the given result. -/
def forceExpand (pools : DescriptorPools) (commit : HandleResult)
    (execute : OperationParameters → KernelVas → Except Stop (HandleResult × KernelVas))
    (estimate : Nat) (k : KernelVas) : Except Stop (HandleResult × KernelVas) :=
  let minimumObjects := min estimate 1
  match execute (Vas.allocateParameters 0 (pools.poolSize minimumObjects)
      (MemoryFlags.global ||| MemoryFlags.writable) .vasDescriptors
      MemoryAllocationOptions.commit) k with
  | .error stop => .error stop
  | .ok (res, k) =>
      if res ≠ .okay ∨ commit ≠ .okay then .error .refused
      else .ok (.okay, { k with capacity := k.capacity + pools.poolCapacity minimumObjects })

/-- An operation of the kernel's address space.  `depth` bounds how often the hook may enter
another operation. -/
def executeAt (pools : DescriptorPools) (core : Nat) (commit : HandleResult) :
    Nat → OperationParameters → KernelVas → Except Stop (HandleResult × KernelVas)
  | 0, op, k => executeWith pools (postOp core fun _ _ => .error .fuel) k.vas.fuel op k
  | depth + 1, op, k =>
      executeWith pools (postOp core (forceExpand pools commit (executeAt pools core commit depth)))
        k.vas.fuel op k

/-! ## What a pass takes from the pools -/

section Pools

variable {pools : DescriptorPools} {capacity : Nat} {vas vas' : Vas} {op : OperationParameters}
  {p : Ptr} {dcr : DescriptorCheckResults}

/-- An outcome that took at most `n` descriptors and never found the pools empty. -/
structure Spends (n : Nat) (vas : Vas) (res : HandleResult) (vas' : Vas) : Prop where
  fed : res ≠ .objaPoolsExhausted
  length : vas'.tree.inorder.length ≤ vas.tree.inorder.length + n

theorem insert_fed {payload : MemoryRegion} {e : HandleResult}
    (he : vas.insert (pools.allocator capacity) payload = .error e)
    (h : vas.tree.inorder.length < capacity) : e ≠ .objaPoolsExhausted := by
  have hcreate : (pools.allocator capacity).allocateNode vas.tree.inorder =
      .ok (pools.pick vas.tree.inorder) := if_pos h
  unfold Vas.insert at he
  rw [hcreate] at he
  cases hins : vas.tree.insert (fun p => (vas.mem p).range.compare payload.range)
      (.ok (pools.pick vas.tree.inorder)) with
  | error e' =>
      rw [hins] at he
      cases he
      rcases AvlTree.error_insert hins with rfl | he
      · decide
      · cases he
  | ok out =>
      rw [hins] at he
      cases he

theorem length_insert {alloc : NodeAllocator} {payload : MemoryRegion} {n : Ptr}
    (h : vas.insert alloc payload = .ok (n, vas')) :
    vas'.tree.inorder.length = vas.tree.inorder.length + 1 := by
  unfold Vas.insert at h
  cases hins : vas.tree.insert (fun p => (vas.mem p).range.compare payload.range)
      (alloc.allocateNode vas.tree.inorder) with
  | error e =>
      rw [hins] at h
      cases h
  | ok out =>
      rw [hins] at h
      cases h
      exact (AvlTree.length_insert hins).2

theorem remove_spends (key : Nat) (vas : Vas) :
    Spends 0 vas (vas.remove key).1 (vas.remove key).2 := by
  have hlength := AvlTree.length_remove_le (fun p => (vas.mem p).range.compareAddress key) vas.tree
  unfold Vas.remove
  split
  next heq =>
    rw [heq] at hlength
    exact ⟨by simp, hlength⟩
  next heq =>
    rw [heq] at hlength
    exact ⟨by simp, hlength⟩

theorem Spends.trans {m n : Nat} {vas'' : Vas} {res res' : HandleResult}
    (h : Spends m vas res vas') (h' : Spends n vas' res' vas'') : Spends (m + n) vas res' vas'' :=
  ⟨h'.fed, by have := h.length; have := h'.length; omega⟩

theorem executeWhole_spends (vas : Vas) (op : OperationParameters) (p : Ptr)
    (dcr : DescriptorCheckResults) :
    Spends 0 vas (vas.executeWhole op p dcr).1 (vas.executeWhole op p dcr).2 := by
  unfold Vas.executeWhole
  cases dcr.leftMergeable with
  | true =>
      cases dcr.rightMergeable with
      | true =>
          simp only [if_true]
          have h1 := remove_spends (Word.sub (vas.deref (vas.mem p).next).range.stop 1) vas
          split
          next => exact h1
          next =>
            have h2 := h1.trans (remove_spends op.address _)
            split
            next => exact h2
            next => exact ⟨by simp, by simpa using h2.length⟩
      | false =>
          simp only [if_true, Bool.false_eq_true, if_false, ne_eq, not_true_eq_false]
          have h1 := remove_spends op.address vas
          split
          next => exact h1
          next => exact ⟨by simp, by simpa using h1.length⟩
  | false =>
      cases dcr.rightMergeable with
      | true =>
          simp only [if_true, Bool.false_eq_true, if_false]
          have h1 := remove_spends op.address vas
          split
          next => exact h1
          next =>
            split
            next => exact ⟨by simp, by simpa using h1.length⟩
            next => exact ⟨by simp, by simpa using h1.length⟩
      | false => exact ⟨by simp, by simp⟩

theorem executeStart_spends (pools : DescriptorPools) (op : OperationParameters) (p : Ptr)
    (dcr : DescriptorCheckResults) (h : vas.tree.inorder.length < capacity) :
    Spends 1 vas (vas.executeStart (pools.allocator capacity) op p dcr).1
      (vas.executeStart (pools.allocator capacity) op p dcr).2 := by
  simp only [Vas.executeStart, Vas.spawn]
  split
  next => exact ⟨by simp, by simp⟩
  next =>
    split
    next e he => exact ⟨insert_fed he h, by simp⟩
    next n vas' hn =>
      have hlength := length_insert hn
      rw [Vas.tree_modify] at hlength
      refine ⟨by simp, ?_⟩
      simp only [Vas.tree_modify]
      split
      next => simp [hlength]
      next => simp [hlength]

theorem executeEnd_spends (pools : DescriptorPools) (op : OperationParameters) (p : Ptr)
    (dcr : DescriptorCheckResults) (h : vas.tree.inorder.length < capacity) :
    Spends 1 vas (vas.executeEnd (pools.allocator capacity) op p dcr).1
      (vas.executeEnd (pools.allocator capacity) op p dcr).2 := by
  simp only [Vas.executeEnd, Vas.spawn]
  split
  next => exact ⟨by simp, by simp⟩
  next =>
    split
    next e he => exact ⟨insert_fed he h, by simp⟩
    next n vas' hn => exact ⟨by simp, by simpa using Nat.le_of_eq (length_insert hn)⟩

theorem executeMiddle_spends (pools : DescriptorPools) (op : OperationParameters) (p : Ptr)
    (h : vas.tree.inorder.length + 1 < capacity) :
    Spends 2 vas (vas.executeMiddle (pools.allocator capacity) op p).1
      (vas.executeMiddle (pools.allocator capacity) op p).2 := by
  simp only [Vas.executeMiddle, Vas.spawn]
  split
  next e he => exact ⟨insert_fed he (Nat.lt_of_succ_lt h), by simp⟩
  next m vas' hm =>
    have hlength := length_insert hm
    rw [Vas.tree_modify] at hlength
    split
    next e he => exact ⟨insert_fed he (hlength ▸ h), by simp only; omega⟩
    next n vas'' hn =>
      have hlength' := length_insert hn
      exact ⟨by simp, by simp; omega⟩

/-- One pass takes at most two descriptors. -/
theorem executeAccepted_spends (pools : DescriptorPools) (op : OperationParameters) (p : Ptr)
    (dcr : DescriptorCheckResults) (h : vas.tree.inorder.length + 2 ≤ capacity) :
    Spends 2 vas (vas.executeAccepted (pools.allocator capacity) op p dcr).1
      (vas.executeAccepted (pools.allocator capacity) op p dcr).2 := by
  have hmono : ∀ {n res vas'}, n ≤ 2 → Spends n vas res vas' → Spends 2 vas res vas' :=
    fun hn hs => ⟨hs.fed, by have := hs.length; omega⟩
  unfold Vas.executeAccepted
  split_ifs
  · exact ⟨by simp, by simp⟩
  · exact hmono (by omega) (executeWhole_spends vas op p dcr)
  · exact hmono (by omega) (executeStart_spends pools op p dcr (by omega))
  · exact hmono (by omega) (executeEnd_spends pools op p dcr (by omega))
  · exact executeMiddle_spends pools op p (by omega)

end Pools

/-! ## Levels and hooks -/

/-- The levels of an operation without their hooks: how many hooks are left to run, and on
what. -/
def levels (pools : DescriptorPools) :
    Nat → OperationParameters → KernelVas → Except Stop (Nat × HandleResult × KernelVas)
  | 0, _, _ => .error .fuel
  | fuel + 1, op, k =>
      if k.vas.first = none then .ok (0, .objectDisposed, k)
      else
        match level pools op k with
        | .error stop => .error stop
        | .ok (.ends res k) => .ok (1, res, k)
        | .ok (.enters op k) =>
            match levels pools fuel op k with
            | .error stop => .error stop
            | .ok (n, res, k) => .ok (n + 1, res, k)

/-- What is left to do after the first level. -/
def finish (pools : DescriptorPools) (fuel : Nat) :
    Except Stop Level → Except Stop (Nat × HandleResult × KernelVas)
  | .error stop => .error stop
  | .ok (.ends res k) => .ok (1, res, k)
  | .ok (.enters op k) =>
      match levels pools fuel op k with
      | .error stop => .error stop
      | .ok (n, res, k) => .ok (n + 1, res, k)

theorem levels_succ (pools : DescriptorPools) (fuel : Nat) (op : OperationParameters)
    (k : KernelVas) :
    levels pools (fuel + 1) op k =
      if k.vas.first = none then .ok (0, .objectDisposed, k)
      else finish pools fuel (level pools op k) := by
  rw [levels]
  split
  next => rfl
  next =>
    cases level pools op k with
    | error stop => rfl
    | ok l => cases l <;> rfl

/-- The hooks of that many levels, from the innermost to the outermost. -/
def hooks (postOp : HandleResult → KernelVas → Except Stop (HandleResult × KernelVas)) :
    Nat → HandleResult → KernelVas → Except Stop (HandleResult × KernelVas)
  | 0, res, k => .ok (res, k)
  | n + 1, res, k =>
      match hooks postOp n res k with
      | .error stop => .error stop
      | .ok (res, k) => postOp res k

/-- No level does anything after its hook but return. -/
theorem executeWith_eq_hooks (pools : DescriptorPools)
    (postOp : HandleResult → KernelVas → Except Stop (HandleResult × KernelVas)) (fuel : Nat)
    (op : OperationParameters) (k : KernelVas) :
    executeWith pools postOp fuel op k =
      match levels pools fuel op k with
      | .error stop => .error stop
      | .ok (n, res, k) => hooks postOp n res k := by
  induction fuel generalizing op k with
  | zero => rfl
  | succ fuel ih =>
      rw [executeWith, levels]
      split
      next => rfl
      next =>
        cases hlevel : level pools op k with
        | error stop => rfl
        | ok l =>
            cases l with
            | ends res k => rfl
            | enters op k =>
                simp only [ih]
                cases levels pools fuel op k with
                | error stop => rfl
                | ok out => rfl

/-- The state of an operation that took at most `n` descriptors from pools it left alone. -/
structure Kept (n : Nat) (k k' : KernelVas) : Prop where
  capacity : k'.capacity = k.capacity
  enlargingCore : k'.enlargingCore = k.enlargingCore
  length : k'.vas.tree.inorder.length ≤ k.vas.tree.inorder.length + n

section Levels

variable {pools : DescriptorPools} {k k' : KernelVas} {op : OperationParameters}

theorem pass_spends (pools : DescriptorPools) (op : OperationParameters) (reg : Ptr)
    (h : k.vas.tree.inorder.length + 2 ≤ k.capacity) :
    pass pools op reg k ≠ .error .starved ∧
      (∀ res k', pass pools op reg k = .ok (.ends res k') → Kept 2 k k') ∧
      ∀ op' k', pass pools op reg k = .ok (.enters op' k') →
        op'.sparse = op.sparse ∧ op.sparse = true := by
  have htree : (k.vas.forget reg).tree = k.vas.tree := Vas.tree_forget _ _
  have hout : Spends 2 k.vas
      (if ((k.vas.forget reg).check op reg).accepted then
        (k.vas.forget reg).executeAccepted (pools.allocator k.capacity) op reg
          ((k.vas.forget reg).check op reg) else (.okay, k.vas.forget reg)).1
      (if ((k.vas.forget reg).check op reg).accepted then
        (k.vas.forget reg).executeAccepted (pools.allocator k.capacity) op reg
          ((k.vas.forget reg).check op reg) else (.okay, k.vas.forget reg)).2 := by
    split
    next =>
      have hs := executeAccepted_spends pools op reg ((k.vas.forget reg).check op reg)
        (htree ▸ h : (k.vas.forget reg).tree.inorder.length + 2 ≤ k.capacity)
      exact ⟨hs.fed, by rw [← htree]; exact hs.length⟩
    next => exact ⟨by simp, by simp⟩
  unfold pass
  dsimp only
  generalize (if ((k.vas.forget reg).check op reg).accepted = true then
    (k.vas.forget reg).executeAccepted (pools.allocator k.capacity) op reg
      ((k.vas.forget reg).check op reg) else (HandleResult.okay, k.vas.forget reg)) = out at hout ⊢
  rw [if_neg hout.fed]
  split
  next =>
    refine ⟨by simp, fun res k' heq => ?_, by simp⟩
    cases heq
    exact ⟨rfl, rfl, by simp⟩
  next hsparse =>
    split
    next =>
      refine ⟨by simp, fun res k' heq => ?_, by simp⟩
      cases heq
      exact ⟨rfl, rfl, by simp⟩
    next =>
      split
      next =>
        refine ⟨by simp, fun res k' heq => ?_, by simp⟩
        cases heq
        exact ⟨rfl, rfl, hout.length⟩
      next =>
        split
        next hbeyond =>
          refine ⟨by simp, by simp, fun op' k' heq => ?_⟩
          cases heq
          exact ⟨rfl, not_not.mp fun h => hsparse ⟨hbeyond.1, h⟩⟩
        next =>
          refine ⟨by simp, fun res k' heq => ?_, by simp⟩
          cases heq
          exact ⟨rfl, rfl, hout.length⟩

/-- A level takes at most two descriptors.  It enters another one with the state untouched
or for a sparse operation. -/
theorem level_spends (pools : DescriptorPools) (op : OperationParameters)
    (h : k.vas.tree.inorder.length + 2 ≤ k.capacity) :
    level pools op k ≠ .error .starved ∧
      (∀ res k', level pools op k = .ok (.ends res k') → Kept 2 k k') ∧
      ∀ op' k', level pools op k = .ok (.enters op' k') →
        op'.sparse = op.sparse ∧ (k' = k ∨ op.sparse = true) := by
  unfold level
  split
  next =>
    split
    next => exact ⟨by simp, by simp, by simp⟩
    next =>
      refine ⟨by simp, fun res k' heq => ?_, by simp⟩
      cases heq
      exact ⟨rfl, rfl, by omega⟩
    next =>
      refine ⟨by simp, by simp, fun op' k' heq => ?_⟩
      cases heq
      exact ⟨rfl, Or.inl rfl⟩
  next =>
    split
    next =>
      refine ⟨by simp, fun res k' heq => ?_, by simp⟩
      cases heq
      exact ⟨rfl, rfl, by omega⟩
    next reg hreg =>
      obtain ⟨h1, h2, h3⟩ := pass_spends pools op reg h
      exact ⟨h1, h2, fun op' k' heq => ⟨(h3 op' k' heq).1, Or.inr (h3 op' k' heq).2⟩⟩

/-- The levels of an operation took at most two descriptors and never found the pools
empty. -/
def Frugal (pools : DescriptorPools) (fuel : Nat) (op : OperationParameters) (k : KernelVas) :
    Prop :=
  levels pools fuel op k ≠ .error .starved ∧
    ∀ n res k', levels pools fuel op k = .ok (n, res, k') → Kept 2 k k'

/-- An operation that is not sparse is frugal on whatever state. -/
theorem frugal_of_not_sparse (pools : DescriptorPools) (fuel : Nat)
    (hsparse : op.sparse = false) (h : k.vas.tree.inorder.length + 2 ≤ k.capacity) :
    Frugal pools fuel op k := by
  unfold Frugal
  induction fuel generalizing op with
  | zero => exact ⟨by simp [levels], by simp [levels]⟩
  | succ fuel ih =>
      obtain ⟨h1, h2, h3⟩ := level_spends pools op h
      rw [levels]
      split
      next =>
        refine ⟨by simp, fun n res k' heq => ?_⟩
        cases heq
        exact ⟨rfl, rfl, by omega⟩
      next =>
        cases hlevel : level pools op k with
        | error stop =>
            rw [hlevel] at h1
            exact ⟨by simpa using h1, by simp⟩
        | ok l =>
            cases l with
            | ends res k₁ =>
                refine ⟨by simp, fun n res' k' heq => ?_⟩
                cases heq
                exact h2 _ _ hlevel
            | enters op' k₁ =>
                obtain ⟨hop, rfl | htrue⟩ := h3 _ _ hlevel
                · obtain ⟨ih1, ih2⟩ := ih (hop.trans hsparse)
                  dsimp only
                  generalize levels pools fuel op' k₁ = out at ih1 ih2
                  cases out with
                  | error stop => exact ⟨by simpa using ih1, by simp⟩
                  | ok out =>
                      refine ⟨by simp, fun n res' k' heq => ?_⟩
                      cases heq
                      exact ih2 _ _ _ rfl
                · rw [hsparse] at htrue
                  cases htrue

end Levels

/-! ## Sparse releases -/

/-- An allocator that has nothing to give. -/
def never : NodeAllocator where
  allocateNode _ := .error .outOfMemory
  fresh live p h := by cases h
  error_ne_okay live e h := by
    cases h
    decide

section Sparse

open Vas

variable {alloc : NodeAllocator} {operation : Operation} {sparse tolerant : Bool} {v e lo hi : Nat}
  {p : Ptr} {A B : List Ptr} {vas vas' : Vas} {res : HandleResult}

theorem length_regions (vas : Vas) : vas.regions.length = vas.tree.inorder.length :=
  List.length_map _

theorem length_step_le {r : Region} {L L' : List Region} (h : RegionStep operation v e r L L') :
    L'.length ≤ L.length + 2 := by
  cases h <;> simp only [List.length_append, List.length_cons] <;> omega

/-- A pass that needs no node leaves at most as many regions. -/
theorem length_le_of_never (f : vas.Focus lo hi A p B) (h : Passed operation v e p vas vas')
    (hn : vas.NodesAvailable never operation v e p) :
    vas'.regions.length ≤ vas.regions.length := by
  have hnd := f.tiles.nodup
  have hstep := h.step
  rw [f.regions] at hstep hnd ⊢
  rw [List.nodup_append] at hnd
  have hA : vas.region p ∉ A.map vas.region := fun hr => hnd.2.2 _ hr _ (by simp) rfl
  have hB : vas.region p ∉ B.map vas.region := (List.nodup_cons.mp hnd.2.1).1
  generalize hL : A.map vas.region ++ vas.region p :: B.map vas.region = L at hstep ⊢
  generalize vas'.regions = L' at hstep ⊢
  cases hstep with
  | mergeBoth => simp
  | mergeLeft => simp
  | mergeRight => simp
  | repurpose => simp
  | startMerge => simp
  | startSpawn _ hl hr hnone =>
      obtain ⟨rfl, -, -⟩ := (List.append_cons_inj_of_notMem hA hB).mp hL
      obtain ⟨n, hok⟩ := hn.start hl hr fun a ha => hnone _ (by
        rw [List.getLast?_map, ← show vas.prev p = A.getLast? from f.prev_eq]
        exact Option.mem_map_of_mem _ ha)
      cases hok
  | endMerge => simp
  | endSpawn _ hl hr hnone =>
      obtain ⟨-, -, rfl⟩ := (List.append_cons_inj_of_notMem hA hB).mp hL
      obtain ⟨n, hok⟩ := hn.stop hl hr fun b hb => hnone _ (by
        rw [List.head?_map, ← show vas.next p = B.head? from f.next_eq]
        exact Option.mem_map_of_mem _ hb)
      cases hok
  | middle _ hl hr =>
      obtain ⟨m, n, hok, -⟩ := hn.middle hl hr A B f.inorder
      cases hok

/-- A release that resumes behind a free page leaves at most as many regions. -/
theorem length_le_of_ready (h : Executes alloc .free sparse tolerant e v vas res vas')
    (hfed : vas.Ready alloc .free sparse e v) (hready : vas.Ready never .free sparse e v)
    (hve : v < e) (hinv : vas.Inv lo hi) : vas'.regions.length ≤ vas.regions.length := by
  have hpass : ∀ {vas vas' : Vas} {v : Nat} {p : Ptr}, vas.Inv lo hi → vas.Around v p →
      (e ≤ (vas.region p).stop ∨ sparse = true) → vas.Ready never .free sparse e v →
      Passes alloc .free tolerant v e p vas vas' → vas'.regions.length ≤ vas.regions.length := by
    intro vas vas' v p hinv hp hspan hready hpass
    cases hpass with
    | tolerated => simp
    | accepted _ hpassed =>
        obtain ⟨A, B, f⟩ := (hinv.wf.forget p).focus (by simpa using hp.mem)
        have hstep := hpassed.step
        have hn := hready p hp hspan (by
          rw [region_forget] at hstep
          exact hstep.hits)
        have hle := length_le_of_never f hpassed hn.forget
        rwa [regions_forget] at hle
  induction h with
  | outOfRange => exact Nat.le_refl _
  | beyond => simp
  | refused => simp
  | permanent => simp
  | noNode hp hspan hh hn => exact absurd (hfed _ hp hspan hh) hn
  | last hp hstop hpass' => exact hpass hinv hp (Or.inl hstop) hready hpass'
  | more hp hstop htrue hpass' _ ih =>
      have hinv' := hpass'.inv hve (fun h => by cases h) hinv
      have hle := hpass hinv hp (Or.inr htrue) hready hpass'
      exact (ih (hpass'.ready hinv hp hstop _) (hpass'.ready hinv hp hstop _) hstop hinv').trans hle

/-- A release that gets its nodes does not fail for want of them. -/
theorem fed_of_ready (h : Executes alloc .free sparse tolerant e v vas res vas')
    (hfed : vas.Ready alloc .free sparse e v) (hve : v < e) (hinv : vas.Inv lo hi) :
    res ≠ .objaPoolsExhausted := by
  induction h with
  | outOfRange => decide
  | beyond => decide
  | refused => decide
  | permanent => decide
  | noNode hp hspan hh hn => exact absurd (hfed _ hp hspan hh) hn
  | last => decide
  | more hp hstop _ hpass _ ih =>
      exact ih (hpass.ready hinv hp hstop _) hstop (hpass.inv hve (fun h => by cases h) hinv)

/-- A release leaves at most two more regions. -/
theorem length_le_of_executes (h : Executes alloc .free sparse tolerant e v vas res vas')
    (hfed : vas.Ready alloc .free sparse e v) (hve : v < e) (hinv : vas.Inv lo hi) :
    vas'.regions.length ≤ vas.regions.length + 2 := by
  have hpass : ∀ {vas vas' : Vas} {v : Nat} {p : Ptr},
      Passes alloc .free tolerant v e p vas vas' →
      vas'.regions.length ≤ vas.regions.length + 2 := by
    intro vas vas' v p hpass
    cases hpass with
    | tolerated => simp
    | accepted _ hpassed =>
        have hle := length_step_le hpassed.step
        rwa [regions_forget] at hle
  cases h with
  | outOfRange => omega
  | beyond => simp
  | refused => simp
  | permanent => simp
  | noNode hp hspan hh hn => exact absurd (hfed _ hp hspan hh) hn
  | last hp hstop hpass' => exact hpass hpass'
  | more hp hstop htrue hpass' hrest =>
      have hinv' := hpass'.inv hve (fun h => by cases h) hinv
      exact (length_le_of_ready hrest (hpass'.ready hinv hp hstop _)
        (hpass'.ready hinv hp hstop _) hstop hinv').trans (hpass hpass')

/-- Two free descriptors are enough for the first pass. -/
theorem ready_of_length (pools : DescriptorPools) {capacity : Nat}
    (h : vas.tree.inorder.length + 2 ≤ capacity) (operation : Operation) (sparse : Bool)
    (e v : Nat) : vas.Ready (pools.allocator capacity) operation sparse e v := by
  have hone : ∃ n, (pools.allocator capacity).allocateNode vas.tree.inorder = .ok n :=
    ⟨_, if_pos (by omega)⟩
  intro p _ _ _
  refine ⟨fun _ _ _ => hone, fun _ _ _ => hone, fun _ _ A B hin => ?_⟩
  obtain ⟨m, hm⟩ := hone
  refine ⟨m, pools.pick (A ++ p :: m :: B), hm, if_pos ?_⟩
  have hlength := congrArg List.length hin
  simp only [List.length_append, List.length_cons] at hlength ⊢
  omega

/-- A level whose region is found does what `execute` does from there on. -/
theorem levels_of_pass (pools : DescriptorPools) {fuel : Nat} {op op' : OperationParameters}
    {k : KernelVas} (reg : Ptr)
    (ih : ∀ {op : OperationParameters} {k : KernelVas},
      k.vas.execute (pools.allocator k.capacity) fuel op = some (res, op', vas') →
      (∃ n, levels pools fuel op k = .ok (n, res, { k with vas := vas' })) ∨
        res = .objaPoolsExhausted ∧ levels pools fuel op k = .error .starved)
    (h : (let vas := k.vas.forget reg
      let stop := (vas.mem reg).range.stop
      let beyond := decide (Word.add op.address op.size > stop)
      if beyond ∧ ¬op.sparse then some (.argumentOutOfRange, op, vas)
      else
        let dcr := vas.check op reg
        if ¬dcr.accepted ∧ ¬op.tolerant then some (dcr.failureResult, op, vas)
        else
          let (res, vas) :=
            if dcr.accepted then vas.executeAccepted (pools.allocator k.capacity) op reg dcr
            else (.okay, vas)
          if res ≠ .okay then some (res, op, vas)
          else if beyond ∧ stop ≠ 0 then
            execute (pools.allocator k.capacity) fuel
              { op with address := stop,
                        size := Word.sub op.size (Word.sub stop op.address) } vas
          else some (res, op, vas)) = some (res, op', vas')) :
    (∃ n, finish pools fuel (pass pools op reg k) = .ok (n, res, { k with vas := vas' })) ∨
      res = .objaPoolsExhausted ∧ finish pools fuel (pass pools op reg k) = .error .starved := by
  unfold pass
  dsimp only at h ⊢
  generalize (if ((k.vas.forget reg).check op reg).accepted = true then
    (k.vas.forget reg).executeAccepted (pools.allocator k.capacity) op reg
      ((k.vas.forget reg).check op reg) else (HandleResult.okay, k.vas.forget reg)) = out at h ⊢
  split at h
  next hbeyond =>
    cases h
    exact Or.inl ⟨1, by rw [if_pos hbeyond]; rfl⟩
  next hbeyond =>
    rw [if_neg hbeyond]
    split at h
    next hrefused =>
      cases h
      exact Or.inl ⟨1, by rw [if_pos hrefused]; rfl⟩
    next hrefused =>
      rw [if_neg hrefused]
      split at h
      next hfailed =>
        cases h
        by_cases hstarved : out.1 = .objaPoolsExhausted
        · exact Or.inr ⟨hstarved, by rw [if_pos hstarved]; rfl⟩
        · exact Or.inl ⟨1, by rw [if_neg hstarved, if_pos hfailed]; rfl⟩
      next hokay =>
        rw [if_neg (by rw [not_not.mp hokay]; decide), if_neg hokay]
        split at h
        next hmore =>
          rw [if_pos hmore]
          rcases ih (k := { k with vas := out.2 }) h with ⟨n, hn⟩ | ⟨hres, hn⟩
          · exact Or.inl ⟨n + 1, by simp only [finish, hn]⟩
          · exact Or.inr ⟨hres, by simp only [finish, hn]⟩
        next hdone =>
          cases h
          exact Or.inl ⟨1, by rw [if_neg hdone]; rfl⟩

/-- The levels of an operation do what `execute` does, unless they run out of descriptors. -/
theorem levels_of_execute (pools : DescriptorPools) {fuel : Nat} {op op' : OperationParameters}
    {k : KernelVas}
    (h : k.vas.execute (pools.allocator k.capacity) fuel op = some (res, op', vas')) :
    (∃ n, levels pools fuel op k = .ok (n, res, { k with vas := vas' })) ∨
      res = .objaPoolsExhausted ∧ levels pools fuel op k = .error .starved := by
  induction fuel generalizing op k with
  | zero => cases h
  | succ fuel ih =>
      rw [execute] at h
      rw [levels_succ]
      split at h
      next hfirst =>
        cases h
        exact Or.inl ⟨0, by rw [if_pos hfirst]⟩
      next hfirst =>
        rw [if_neg hfirst, level]
        split at h
        next hanon =>
          rw [if_pos hanon]
          cases hfind : k.vas.findAnonymous op.startSize k.vas.tree.inorder.length k.vas.first with
          | none =>
              rw [hfind] at h
              cases h
          | some out =>
              rw [hfind] at h
              cases out with
              | none =>
                  cases h
                  exact Or.inl ⟨1, rfl⟩
              | some address =>
                  rcases ih h with ⟨n, hn⟩ | ⟨hres, hn⟩
                  · exact Or.inl ⟨n + 1, by simp only [finish, hn]⟩
                  · exact Or.inr ⟨hres, by simp only [finish, hn]⟩
        next hanon =>
          rw [if_neg hanon]
          cases hfind : k.vas.findRegion op.address with
          | none =>
              rw [hfind] at h
              cases h
              exact Or.inl ⟨1, rfl⟩
          | some reg =>
              rw [hfind] at h
              exact levels_of_pass pools reg (fun h' => ih h') h

/-- An operation that is over after its first level is frugal. -/
theorem frugal_of_ends {op : OperationParameters} {k : KernelVas} (pools : DescriptorPools)
    (fuel : Nat) (h : k.vas.tree.inorder.length + 2 ≤ k.capacity)
    (hends : ∀ op' k', level pools op k ≠ .ok (.enters op' k')) : Frugal pools fuel op k := by
  unfold Frugal
  cases fuel with
  | zero => exact ⟨by simp [levels], by simp [levels]⟩
  | succ fuel =>
      obtain ⟨h1, h2, -⟩ := level_spends pools op h
      rw [levels_succ]
      split
      next =>
        refine ⟨by simp, fun n res k' heq => ?_⟩
        cases heq
        exact ⟨rfl, rfl, by omega⟩
      next =>
        generalize level pools op k = l at h1 h2 hends
        cases l with
        | error stop => exact ⟨by simpa [finish] using h1, by simp [finish]⟩
        | ok l =>
            cases l with
            | ends res k₁ =>
                refine ⟨by simp [finish], fun n res' k' heq => ?_⟩
                cases heq
                exact h2 _ _ rfl
            | enters op' k₁ => exact absurd rfl (hends op' k₁)

theorem pass_ends {op : OperationParameters} {k : KernelVas} (pools : DescriptorPools) (reg : Ptr)
    (hwithin : Word.add op.address op.size ≤ (k.vas.region reg).stop) (op' : OperationParameters)
    (k' : KernelVas) : pass pools op reg k ≠ .ok (.enters op' k') := by
  have hbeyond : ¬Word.add op.address op.size > ((k.vas.forget reg).mem reg).range.stop := by
    rw [mem_forget]
    exact Nat.not_lt.mpr hwithin
  unfold pass
  simp only [decide_eq_false hbeyond, Bool.false_eq_true, false_and, if_false]
  split_ifs <;> simp

/-- A release, sparse or not, is frugal on a well-formed address space. -/
theorem frugal_of_inv {op : OperationParameters} {k : KernelVas} (pools : DescriptorPools)
    {fuel : Nat} (hinv : k.vas.Inv lo hi) (hlohi : lo < hi) (hhi : hi < 2 ^ 64)
    (hfree : op.operation = .free) (hsize : op.size < 2 ^ 64)
    (hfuel : k.vas.tree.inorder.length < fuel)
    (h : k.vas.tree.inorder.length + 2 ≤ k.capacity) : Frugal pools fuel op k := by
  have hw := hinv.wf
  by_cases hregular : 0 < op.size ∧ op.address + op.size < 2 ^ 64
  · obtain ⟨hpos, hwrap⟩ := hregular
    obtain ⟨res, op', vas', hexec, hrun, -⟩ := execute_refines (pools.allocator k.capacity) hhi
      hlohi fuel op k.vas hw hpos hwrap (fun halloc => by rw [hfree] at halloc; cases halloc)
      (Nat.lt_of_le_of_lt (countAbove_le_length op.address k.vas) hfuel)
    rw [hfree] at hrun
    have hready := ready_of_length pools h .free op.sparse (op.address + op.size) op.address
    have hlength := length_le_of_executes hrun hready (by omega) hinv
    rw [length_regions, length_regions] at hlength
    rcases levels_of_execute pools hexec with ⟨n, hn⟩ | ⟨hres, -⟩
    · refine ⟨by simp [hn], fun n' res' k' heq => ?_⟩
      rw [hn] at heq
      cases heq
      exact ⟨rfl, rfl, hlength⟩
    · exact absurd hres (fed_of_ready hrun hready (by omega) hinv)
  · refine frugal_of_ends pools fuel h fun op' k' => ?_
    unfold level
    rw [if_neg (by rw [hfree]; simp [Operation.isAllocation])]
    cases hfind : k.vas.findRegion op.address with
    | none => simp
    | some reg =>
        refine pass_ends pools reg ?_ op' k'
        have hp := around_of_findRegion hfind
        have hbounds := hw.tiles.bounds (List.mem_map_of_mem hp.mem)
        have hupp := hp.upper
        unfold Word.add
        omega

end Sparse

/-! ## The hook -/

section Hook

variable {pools : DescriptorPools} {core n depth : Nat} {commit oRes res : HandleResult}
  {op : OperationParameters} {k k' : KernelVas}

/-- The hook does nothing while a core is enlarging the pools, or with enough free
descriptors. -/
theorem postOp_idle {forceExpand : Nat → KernelVas → Except Stop (HandleResult × KernelVas)}
    (h : k.enlargingCore ≠ none ∨ freeDescriptorsThreshold ≤ k.getFreeCount) :
    postOp core forceExpand oRes k = .ok (oRes, k) := by
  unfold postOp
  split
  next => rfl
  next hlow =>
    rcases h with hcore | hfree
    · rw [if_neg hcore]
    · exact absurd hfree hlow

theorem hooks_idle (core : Nat)
    (forceExpand : Nat → KernelVas → Except Stop (HandleResult × KernelVas)) (n : Nat)
    (oRes : HandleResult)
    (h : k.enlargingCore ≠ none ∨ freeDescriptorsThreshold ≤ k.getFreeCount) :
    hooks (postOp core forceExpand) n oRes k = .ok (oRes, k) := by
  induction n with
  | zero => rfl
  | succ n ih =>
      rw [hooks, ih]
      exact postOp_idle h

/-- Only the innermost hook has anything to do, if it refills the pools. -/
theorem hooks_refilled {forceExpand : Nat → KernelVas → Except Stop (HandleResult × KernelVas)}
    (n : Nat) (h : ∀ res k', postOp core forceExpand oRes k = .ok (res, k') →
      freeDescriptorsThreshold ≤ k'.getFreeCount) :
    hooks (postOp core forceExpand) (n + 1) oRes k = postOp core forceExpand oRes k := by
  induction n with
  | zero => rfl
  | succ n ih =>
      rw [hooks, ih]
      cases hpost : postOp core forceExpand oRes k with
      | error stop => rfl
      | ok out => exact postOp_idle (Or.inr (h out.1 out.2 hpost))

/-- An operation that the enlarging core enters from the hook takes at most two
descriptors. -/
theorem executeAt_nested (pools : DescriptorPools) (core : Nat) (commit : HandleResult)
    (depth : Nat) (op : OperationParameters) (hcore : k.enlargingCore ≠ none)
    (hsparse : op.sparse = false) (h : k.vas.tree.inorder.length + 2 ≤ k.capacity) :
    executeAt pools core commit depth op k ≠ .error .starved ∧
      ∀ res k', executeAt pools core commit depth op k = .ok (res, k') → Kept 2 k k' := by
  have hwith : ∀ forceExpand,
      executeWith pools (postOp core forceExpand) k.vas.fuel op k ≠ .error .starved ∧
      ∀ res k', executeWith pools (postOp core forceExpand) k.vas.fuel op k = .ok (res, k') →
        Kept 2 k k' := by
    intro forceExpand
    obtain ⟨h1, h2⟩ := frugal_of_not_sparse pools k.vas.fuel hsparse h
    rw [executeWith_eq_hooks]
    generalize levels pools k.vas.fuel op k = out at h1 h2
    cases out with
    | error stop => exact ⟨by simpa using h1, by simp⟩
    | ok out =>
        obtain ⟨n, res, k₁⟩ := out
        have hkept := h2 n res k₁ rfl
        dsimp only
        rw [hooks_idle core forceExpand n res (Or.inl (hkept.enlargingCore ▸ hcore))]
        refine ⟨by simp, fun res' k' heq => ?_⟩
        cases heq
        exact hkept
  cases depth with
  | zero => exact hwith _
  | succ depth => exact hwith _

/-- An expansion adds a pool to descriptors that were enough for acquiring it. -/
theorem forceExpand_spends (pools : DescriptorPools) (core : Nat) (commit : HandleResult)
    (depth estimate : Nat) (hestimate : 0 < estimate) (hcore : k.enlargingCore ≠ none)
    (h : k.vas.tree.inorder.length + 2 ≤ k.capacity) :
    forceExpand pools commit (executeAt pools core commit depth) estimate k ≠ .error .starved ∧
      ∀ res k', forceExpand pools commit (executeAt pools core commit depth) estimate k =
        .ok (res, k') → freeDescriptorsThreshold ≤ k'.getFreeCount := by
  obtain ⟨h1, h2⟩ := executeAt_nested pools core commit depth
    (Vas.allocateParameters 0 (pools.poolSize 1) (MemoryFlags.global ||| MemoryFlags.writable)
      .vasDescriptors MemoryAllocationOptions.commit) hcore rfl h
  have hmin : min estimate 1 = 1 := by omega
  unfold forceExpand
  dsimp only
  rw [hmin]
  generalize executeAt pools core commit depth _ k = out at h1 h2
  cases out with
  | error stop => exact ⟨by simpa using h1, by simp⟩
  | ok out =>
      obtain ⟨res, k₁⟩ := out
      have hkept := h2 res k₁ rfl
      dsimp only
      split
      next => exact ⟨by simp, by simp⟩
      next =>
        refine ⟨by simp, fun res' k' heq => ?_⟩
        cases heq
        have hlength := hkept.length
        have hcapacity := hkept.capacity
        have hpool := pools.lt_poolCapacity_one
        show 4 ≤ k₁.capacity + pools.poolCapacity 1 - k₁.vas.tree.inorder.length
        omega

/-- The hooks that a call runs with what it allows them to use. -/
def expansion (pools : DescriptorPools) (core : Nat) (commit : HandleResult) :
    Nat → Nat → KernelVas → Except Stop (HandleResult × KernelVas)
  | 0 => fun _ _ => .error .fuel
  | depth + 1 => forceExpand pools commit (executeAt pools core commit depth)

theorem executeAt_eq (pools : DescriptorPools) (core : Nat) (commit : HandleResult) (depth : Nat)
    (op : OperationParameters) (k : KernelVas) :
    executeAt pools core commit depth op k =
      executeWith pools (postOp core (expansion pools core commit depth)) k.vas.fuel op k := by
  cases depth <;> rfl

/-- The hook refills the pools as long as two descriptors are left. -/
theorem postOp_refills (pools : DescriptorPools) (core : Nat) (commit : HandleResult)
    (depth : Nat) (oRes : HandleResult) (hcore : k.enlargingCore = none)
    (h : k.vas.tree.inorder.length + 2 ≤ k.capacity) :
    postOp core (expansion pools core commit depth) oRes k ≠ .error .starved ∧
      ∀ res k', postOp core (expansion pools core commit depth) oRes k = .ok (res, k') →
        freeDescriptorsThreshold ≤ k'.getFreeCount ∧ k'.enlargingCore = none := by
  unfold postOp
  split
  next hfree =>
    refine ⟨by simp, fun res k' heq => ?_⟩
    cases heq
    exact ⟨hfree, hcore⟩
  next hlow =>
    cases depth with
    | zero => exact ⟨by simp [expansion, Except.map], by simp [expansion, Except.map]⟩
    | succ depth =>
        obtain ⟨h1, h2⟩ := forceExpand_spends pools core commit depth
          (freeDescriptorsThreshold - k.getFreeCount) (by omega)
          (k := { k with enlargingCore := some core }) (by simp) h
        rw [expansion]
        generalize forceExpand pools commit (executeAt pools core commit depth)
          (freeDescriptorsThreshold - k.getFreeCount) { k with enlargingCore := some core } = out
          at h1 h2 ⊢
        cases out with
        | error stop => exact ⟨by simpa [Except.map] using h1, by simp [Except.map]⟩
        | ok out =>
            refine ⟨by simp [Except.map], fun res k' heq => ?_⟩
            cases heq
            exact ⟨h2 out.1 out.2 rfl, rfl⟩

/-- Only a disposed space has no level to run a hook for. -/
theorem levels_zero {fuel : Nat} (h : levels pools fuel op k = .ok (0, res, k')) : k' = k := by
  cases fuel with
  | zero => cases h
  | succ fuel =>
      rw [levels_succ] at h
      split at h
      next =>
        cases h
        rfl
      next =>
        cases hl : level pools op k with
        | error stop => rw [hl] at h; cases h
        | ok l =>
            rw [hl] at h
            cases l with
            | ends res k => cases h
            | enters op k =>
                simp only [finish] at h
                split at h <;> cases h

/-- A call with four free descriptors that is frugal leaves four free descriptors. -/
theorem executeAt_refills (core : Nat) (commit : HandleResult) (depth : Nat)
    (hfree : freeDescriptorsThreshold ≤ k.getFreeCount) (hcore : k.enlargingCore = none)
    (hfrugal : Frugal pools k.vas.fuel op k) :
    executeAt pools core commit depth op k ≠ .error .starved ∧
      ∀ res k', executeAt pools core commit depth op k = .ok (res, k') →
        freeDescriptorsThreshold ≤ k'.getFreeCount ∧ k'.enlargingCore = none := by
  obtain ⟨h1, h2⟩ := hfrugal
  rw [executeAt_eq, executeWith_eq_hooks]
  cases hlevels : levels pools k.vas.fuel op k with
  | error stop =>
      rw [hlevels] at h1
      exact ⟨by simpa using h1, by simp⟩
  | ok out =>
      obtain ⟨n, res, k₁⟩ := out
      have hkept := h2 n res k₁ hlevels
      dsimp only
      cases n with
      | zero =>
          obtain rfl := levels_zero hlevels
          refine ⟨by simp [hooks], fun res' k' heq => ?_⟩
          cases heq
          exact ⟨hfree, hcore⟩
      | succ n =>
          have hlength := hkept.length
          have hcapacity := hkept.capacity
          unfold freeDescriptorsThreshold getFreeCount at hfree
          have hroom : k₁.vas.tree.inorder.length + 2 ≤ k₁.capacity := by omega
          have hrefills := postOp_refills pools core commit depth res
            (hkept.enlargingCore.trans hcore) hroom
          rw [hooks_refilled n fun res' k' heq => (hrefills.2 res' k' heq).1]
          exact hrefills

end Hook

/-! ## Well-formed spaces -/

section WellFormed

variable {pools : DescriptorPools} {lo hi : Nat} {k : KernelVas} {req : Request}

/-- The levels of a sane call come to an end and keep the space well formed. -/
theorem levels_of_sane (hinv : k.vas.Inv lo hi) (hlo : 0 < lo) (hlohi : lo < hi)
    (hhi : hi < 2 ^ 64) (hreq : req.Typed) (hsane : k.vas.Sane (pools.allocator k.capacity) req) :
    levels pools k.vas.fuel req.parameters k = .error .starved ∨
      ∃ n res vas', levels pools k.vas.fuel req.parameters k = .ok (n, res, { k with vas := vas' }) ∧
        vas'.Inv lo hi := by
  obtain ⟨res, vas', hcall, hinv'⟩ := hinv.perform_sane hlo hlohi hhi hreq hsane
  rw [Vas.perform_eq_execute _ _ (hinv.wf.first_ne_none hlohi)] at hcall
  obtain ⟨⟨res', op', vas''⟩, hexec, hout⟩ := Option.map_eq_some_iff.mp hcall
  cases hout
  rcases levels_of_execute pools hexec with ⟨n, hn⟩ | ⟨-, hn⟩
  · exact Or.inr ⟨n, _, _, hn, hinv'⟩
  · exact Or.inl hn

/-- The allocation that acquires a pool, as a request. -/
def poolRequest (pools : DescriptorPools) : Request :=
  .allocate 0 (pools.poolSize 1) (MemoryFlags.global ||| MemoryFlags.writable) .vasDescriptors
    MemoryAllocationOptions.commit

theorem poolRequest_typed (pools : DescriptorPools) : (poolRequest pools).Typed := by
  rw [poolRequest, pools.poolSize_one]
  exact ⟨by decide, by decide, by decide⟩

theorem size_poolRequest (pools : DescriptorPools) :
    (poolRequest pools).parameters.size = pageSize := by
  rw [poolRequest, pools.poolSize_one]
  decide

theorem poolRequest_sane (hinv : k.vas.Inv lo hi) (hhi : hi < 2 ^ 64)
    (h : k.vas.tree.inorder.length + 2 ≤ k.capacity) :
    k.vas.Sane (pools.allocator k.capacity) (poolRequest pools) := by
  have hw := hinv.wf
  intro v hv
  left
  have hsettled : k.vas.settled (poolRequest pools) =
      (k.vas.findAnonymous pageSize k.vas.tree.inorder.length k.vas.first).join := by
    rw [Vas.settled, if_pos ⟨rfl, rfl⟩, size_poolRequest]
  rw [hsettled] at hv
  rw [size_poolRequest]
  refine ⟨by decide, ?_, ready_of_length pools h _ _ _ _⟩
  obtain ⟨out, hout, hfits⟩ := Vas.findAnonymous_spec pageSize
    (hw.threaded.first ▸ hw.threaded.links.chain) (Nat.le_refl k.vas.tree.inorder.length)
  rw [hout] at hv
  obtain ⟨p, hp, -, hfit, hsub⟩ := hfits v hv
  have hbounds := hw.tiles.bounds (List.mem_map_of_mem (f := k.vas.region) hp)
  have hget : (k.vas.region p).range.getSize = (k.vas.region p).stop - (k.vas.region p).start :=
    Word.sub_of_le (by unfold Region.stop at hbounds; omega) (Nat.le_of_lt hbounds.2.1)
  rw [Word.sub_of_le (by omega) (by omega)] at hsub
  omega

/-- A call within an expansion comes to an end and keeps the space well formed. -/
theorem executeAt_nested_inv (pools : DescriptorPools) (core : Nat) (commit : HandleResult)
    (depth : Nat) (hcore : k.enlargingCore ≠ none) (hinv : k.vas.Inv lo hi) (hlo : 0 < lo)
    (hlohi : lo < hi) (hhi : hi < 2 ^ 64) (h : k.vas.tree.inorder.length + 2 ≤ k.capacity) :
    ∃ res vas', executeAt pools core commit depth (poolRequest pools).parameters k =
      .ok (res, { k with vas := vas' }) ∧ vas'.Inv lo hi := by
  have hsparse : (poolRequest pools).parameters.sparse = false := rfl
  obtain ⟨hfed, -⟩ := frugal_of_not_sparse pools k.vas.fuel hsparse h
  rcases levels_of_sane hinv hlo hlohi hhi (poolRequest_typed pools) (poolRequest_sane hinv hhi h)
    with hstarved | ⟨n, res, vas', hlevels, hinv'⟩
  · exact absurd hstarved hfed
  · refine ⟨res, vas', ?_, hinv'⟩
    rw [executeAt_eq, executeWith_eq_hooks, hlevels]
    exact hooks_idle core _ n res (Or.inl hcore)

/-- An expansion comes to an end and keeps the space well formed. -/
theorem forceExpand_inv (pools : DescriptorPools) (core : Nat) (commit : HandleResult)
    (depth estimate : Nat) (hestimate : 0 < estimate) (hcore : k.enlargingCore ≠ none)
    (hinv : k.vas.Inv lo hi) (hlo : 0 < lo) (hlohi : lo < hi) (hhi : hi < 2 ^ 64)
    (h : k.vas.tree.inorder.length + 2 ≤ k.capacity) :
    forceExpand pools commit (executeAt pools core commit depth) estimate k ≠ .error .fuel ∧
      ∀ res k', forceExpand pools commit (executeAt pools core commit depth) estimate k =
        .ok (res, k') → k'.vas.Inv lo hi := by
  have hmin : min estimate 1 = 1 := by omega
  obtain ⟨res, vas', hnested, hinv'⟩ :=
    executeAt_nested_inv pools core commit depth hcore hinv hlo hlohi hhi h
  have hparams : (poolRequest pools).parameters = Vas.allocateParameters 0 (pools.poolSize 1)
      (MemoryFlags.global ||| MemoryFlags.writable) .vasDescriptors
      MemoryAllocationOptions.commit := rfl
  rw [hparams] at hnested
  unfold forceExpand
  dsimp only
  rw [hmin, hnested]
  dsimp only
  split
  next => exact ⟨by simp, by simp⟩
  next =>
    refine ⟨by simp, fun res' k' heq => ?_⟩
    cases heq
    exact hinv'

/-- The hook comes to an end and keeps the space well formed. -/
theorem postOp_inv (pools : DescriptorPools) (core : Nat) (commit : HandleResult) (depth : Nat)
    (oRes : HandleResult) (hinv : k.vas.Inv lo hi) (hlo : 0 < lo) (hlohi : lo < hi)
    (hhi : hi < 2 ^ 64) (h : k.vas.tree.inorder.length + 2 ≤ k.capacity) :
    postOp core (expansion pools core commit (depth + 1)) oRes k ≠ .error .fuel ∧
      ∀ res k', postOp core (expansion pools core commit (depth + 1)) oRes k = .ok (res, k') →
        k'.vas.Inv lo hi := by
  by_cases hidle : k.enlargingCore ≠ none ∨ freeDescriptorsThreshold ≤ k.getFreeCount
  · rw [postOp_idle hidle]
    refine ⟨by simp, fun res k' heq => ?_⟩
    cases heq
    exact hinv
  · obtain ⟨hcore, hlow⟩ := not_or.mp hidle
    obtain ⟨h1, h2⟩ := forceExpand_inv pools core commit depth
      (freeDescriptorsThreshold - k.getFreeCount) (by omega)
      (k := { k with enlargingCore := some core }) (by simp) hinv hlo hlohi hhi h
    rw [postOp, if_neg hlow, if_pos (not_not.mp hcore), expansion]
    generalize forceExpand pools commit (executeAt pools core commit depth)
      (freeDescriptorsThreshold - k.getFreeCount) { k with enlargingCore := some core } = out
      at h1 h2 ⊢
    cases out with
    | error stop => exact ⟨by simpa [Except.map] using h1, by simp [Except.map]⟩
    | ok out =>
        refine ⟨by simp [Except.map], fun res k' heq => ?_⟩
        cases heq
        exact h2 out.1 out.2 rfl

/-- A sane call comes to an end, unless a pool is refused, and keeps the space well
formed. -/
theorem executeAt_inv (core : Nat) (commit : HandleResult) (depth : Nat)
    (hfree : freeDescriptorsThreshold ≤ k.getFreeCount) (hcore : k.enlargingCore = none)
    (hfrugal : Frugal pools k.vas.fuel req.parameters k) (hinv : k.vas.Inv lo hi) (hlo : 0 < lo)
    (hlohi : lo < hi) (hhi : hi < 2 ^ 64) (hreq : req.Typed)
    (hsane : k.vas.Sane (pools.allocator k.capacity) req) :
    executeAt pools core commit (depth + 1) req.parameters k ≠ .error .fuel ∧
      ∀ res k', executeAt pools core commit (depth + 1) req.parameters k = .ok (res, k') →
        k'.vas.Inv lo hi := by
  obtain ⟨hfed, hkept⟩ := hfrugal
  rcases levels_of_sane hinv hlo hlohi hhi hreq hsane with hstarved | ⟨n, res, vas', hlevels, hinv'⟩
  · exact absurd hstarved hfed
  obtain ⟨-, -, hlength⟩ := hkept n res _ hlevels
  unfold freeDescriptorsThreshold getFreeCount at hfree
  have hroom : vas'.tree.inorder.length + 2 ≤ k.capacity := by
    have hlength' : vas'.tree.inorder.length ≤ k.vas.tree.inorder.length + 2 := hlength
    omega
  rw [executeAt_eq, executeWith_eq_hooks, hlevels]
  dsimp only
  clear hlevels hlength hkept hfed
  cases n with
  | zero =>
      refine ⟨by simp [hooks], fun res' k' heq => ?_⟩
      cases heq
      exact hinv'
  | succ n =>
      have hfirst := postOp_inv pools core commit depth res (k := { k with vas := vas' }) hinv' hlo
        hlohi hhi hroom
      have hrefill := postOp_refills pools core commit (depth + 1) res
        (k := { k with vas := vas' }) hcore hroom
      rw [hooks_refilled n fun res' k' heq => (hrefill.2 res' k' heq).1]
      exact hfirst

end WellFormed

end KernelVas

/-! ## Runs -/

/-- The states that operations of the kernel's address space reach from one with enough free
descriptors, if every pool that is asked for is acquired.  A sparse release is made on a
well-formed space only. -/
inductive KernelRun (pools : DescriptorPools) (lo hi : Nat) : KernelVas → Prop
  | start {k : KernelVas} : KernelVas.freeDescriptorsThreshold ≤ k.getFreeCount →
      k.enlargingCore = none → KernelRun pools lo hi k
  | call {k k' : KernelVas} {req : Request} {res : HandleResult} (core : Nat)
      (commit : HandleResult) (depth : Nat) : KernelRun pools lo hi k →
      (req.parameters.sparse = true → req.Typed ∧ k.vas.Inv lo hi) →
      k.executeAt pools core commit depth req.parameters = .ok (res, k') →
      KernelRun pools lo hi k'

namespace KernelRun

open KernelVas

variable {pools : DescriptorPools} {lo hi : Nat} {k : KernelVas} {req : Request}

theorem frugal (hlohi : lo < hi) (hhi : hi < 2 ^ 64)
    (hfree : freeDescriptorsThreshold ≤ k.getFreeCount)
    (hreq : req.parameters.sparse = true → req.Typed ∧ k.vas.Inv lo hi) :
    Frugal pools k.vas.fuel req.parameters k := by
  unfold freeDescriptorsThreshold getFreeCount at hfree
  cases hsparse : req.parameters.sparse with
  | false => exact frugal_of_not_sparse pools _ hsparse (by omega)
  | true =>
      obtain ⟨htyped, hinv⟩ := hreq hsparse
      refine frugal_of_inv pools hinv hlohi hhi ?_ htyped.size_lt
        (by unfold Vas.fuel; omega) (by omega)
      cases req with
      | allocate vaddr size flags content type => cases hsparse
      | free vaddr size sparse tolerant => rfl

/-- After every operation four descriptors are free again and no core enlarges the pools. -/
theorem refilled (hlohi : lo < hi) (hhi : hi < 2 ^ 64) (hr : KernelRun pools lo hi k) :
    freeDescriptorsThreshold ≤ k.getFreeCount ∧ k.enlargingCore = none := by
  induction hr with
  | start hfree hcore => exact ⟨hfree, hcore⟩
  | call core commit depth _ hreq hcall ih =>
      exact (executeAt_refills core commit depth ih.1 ih.2
        (frugal hlohi hhi ih.1 hreq)).2 _ _ hcall

/-- In every state of a run four descriptors are free, and the next operation never finds
the pools empty.  On a well-formed space a sane operation comes to an end, unless a pool is
refused, and leaves a well-formed space. -/
theorem freeCount (hlo : 0 < lo) (hlohi : lo < hi) (hhi : hi < 2 ^ 64)
    (hr : KernelRun pools lo hi k) :
    freeDescriptorsThreshold ≤ k.getFreeCount ∧
      ∀ (req : Request) (core : Nat) (commit : HandleResult) (depth : Nat),
        (req.parameters.sparse = true → req.Typed ∧ k.vas.Inv lo hi) →
        k.executeAt pools core commit depth req.parameters ≠ .error .starved ∧
        (req.Typed → k.vas.Inv lo hi → k.vas.Sane (pools.allocator k.capacity) req →
          k.executeAt pools core commit (depth + 1) req.parameters ≠ .error .fuel ∧
          ∀ res k', k.executeAt pools core commit (depth + 1) req.parameters = .ok (res, k') →
            k'.vas.Inv lo hi) := by
  obtain ⟨hfree, hcore⟩ := hr.refilled hlohi hhi
  refine ⟨hfree, fun req core commit depth hreq => ?_⟩
  have hfrugal : Frugal pools k.vas.fuel req.parameters k := frugal hlohi hhi hfree hreq
  refine ⟨(executeAt_refills core commit depth hfree hcore hfrugal).1, fun htyped hinv hsane => ?_⟩
  exact executeAt_inv core commit depth hfree hcore hfrugal hinv hlo hlohi hhi htyped hsane

/-- Pools of descriptors of 96 bytes behind a header of 64 bytes. -/
def pagePools : DescriptorPools where
  pick live := live.foldr max 0 + 1
  fresh live := Vas.unlimited.fresh live _ rfl
  objectSize := 96
  headerSize := 64
  objectSize_pos := by decide
  ample := by decide

/-- A fresh space with five descriptors, one of which is in use. -/
def freshKernel : KernelVas where
  vas := Vas.fresh 0x1000 0x9000
  capacity := 5
  enlargingCore := none

/-- An allocation in the middle takes two of the four free descriptors. -/
theorem freeCount_middle :
    freeDescriptorsThreshold ≤ freshKernel.getFreeCount ∧
      freshKernel.executeAt pagePools 0 .okay 1 (Request.allocate 0x3000 0x1000
        MemoryFlags.writable .generic MemoryAllocationOptions.used).parameters ≠
        .error .starved := by
  have hstart : KernelRun pagePools 0x1000 0x9000 freshKernel := .start (by decide) rfl
  obtain ⟨hfree, hcalls⟩ := freeCount (by decide) (by decide) (by decide) hstart
  exact ⟨hfree, (hcalls _ 0 .okay 1 fun h => by cases h).1⟩

end KernelRun

end Beelzebub.Memory
