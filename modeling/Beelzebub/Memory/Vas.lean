import Beelzebub.Utils.AvlTree
import Beelzebub.Memory.Regions
import Mathlib.Logic.Function.Basic

/-!
# The virtual address space

The operations of `vas.cpp`.  A `Vas` holds its region descriptors in the nodes of
an AVL tree; the descriptors are also linked into a list that starts at `first`.
`execute` is the common body of `allocate` and `free`: it finds the region around
the requested address, lets the operation check it, and splits it, repurposes it
or merges it with its neighbours.

Locking is left out, since every operation runs under the writer lock, and so are
the two hooks, which only the kernel's own address space overrides.  A null
pointer that is dereferenced reads address `0`.
-/

namespace Beelzebub.Memory

open Utils
open MemoryAllocationOptions (permanent guardLow guardHigh guardFull)

/-! ## Node allocation -/

/-- The allocator of tree nodes during one call.  It is asked with the nodes in
use, answers with a node that is not one of them, or fails. -/
structure NodeAllocator where
  allocateNode : List Ptr → Except HandleResult Ptr
  fresh : ∀ live p, allocateNode live = .ok p → p ∉ live
  error_ne_okay : ∀ live e, allocateNode live = .error e → e ≠ .okay

/-- Every allocation succeeds. -/
def NodeAllocator.Succeeds (alloc : NodeAllocator) : Prop :=
  ∀ live, ∃ p, alloc.allocateNode live = .ok p

/-! ## The state -/

/-- A virtual address space.  `mem` is the memory of the tree nodes' payloads. -/
structure Vas where
  mem : Ptr → MemoryRegion
  tree : AvlTree Ptr
  first : Option Ptr
  lastSearched : Option Ptr

namespace Vas

/-- The descriptor behind a pointer. -/
def deref (vas : Vas) (p : Option Ptr) : MemoryRegion := vas.mem (p.getD 0)

/-- A store through a pointer. -/
def modify (p : Ptr) (f : MemoryRegion → MemoryRegion) (vas : Vas) : Vas :=
  { vas with mem := Function.update vas.mem p (f (vas.mem p)) }

/-- A store through a pointer that was compared with null before. -/
def modifyNonNull (p : Option Ptr) (f : MemoryRegion → MemoryRegion) (vas : Vas) : Vas :=
  match p with
  | some p => vas.modify p f
  | none => vas

/-- `Tree.Find<vaddr_t>(vaddr)`. -/
def findRegion (vas : Vas) (vaddr : Nat) : Option Ptr :=
  vas.tree.find fun p => (vas.mem p).range.compareAddress vaddr

/-- `Tree.Insert(payload, pl)`. -/
def insert (alloc : NodeAllocator) (payload : MemoryRegion) (vas : Vas) :
    Except HandleResult (Ptr × Vas) :=
  (vas.tree.insert (fun p => (vas.mem p).range.compare payload.range)
      (alloc.allocateNode vas.tree.inorder)).map fun (p, tree) =>
    (p, { vas with tree := tree, mem := Function.update vas.mem p payload })

/-- `Tree.Remove<vaddr_t>(key)`.  Returning a node that was allocated from the
pools of the object allocator always succeeds. -/
def remove (key : Nat) (vas : Vas) : HandleResult × Vas :=
  match vas.tree.remove fun p => (vas.mem p).range.compareAddress key with
  | (none, tree) => (.notFound, { vas with tree := tree })
  | (some _, tree) => (.okay, { vas with tree := tree })

end Vas

/-! ## The two operations -/

/-- What is asked of the regions. -/
inductive Operation where
  | allocate (flags : MemoryFlags) (content : MemoryContent) (type : MemoryAllocationOptions)
  | free
deriving DecidableEq, Repr

structure OperationParameters where
  operation : Operation
  startSize : Nat
  address : Nat
  size : Nat
  sparse : Bool
  tolerant : Bool
deriving DecidableEq, Repr

structure DescriptorCheckResults where
  accepted : Bool
  meetsLeft : Bool
  meetsRight : Bool
  leftMergeable : Bool
  rightMergeable : Bool
  failureResult : HandleResult
deriving DecidableEq, Repr

namespace Operation

def isAllocation : Operation → Bool
  | allocate .. => true
  | free => false

/-- `AllocateOperation::Check`.  The fields after `accepted` are not set for a
region that is not accepted. -/
def checkAllocate (flags : MemoryFlags) (content : MemoryContent)
    (type : MemoryAllocationOptions) (address size : Nat)
    (prev : Option Region) (reg : Region) (next : Option Region) : DescriptorCheckResults :=
  if reg.content = .free then
    let meetsLeft := reg.range.start == address
    let meetsRight := reg.range.stop == Word.add address size
    { accepted := true
      meetsLeft
      meetsRight
      leftMergeable := meetsLeft && prev.any fun prev =>
        !has prev.type guardHigh
          && !has type guardLow
          && prev.flags == flags
          && memoryContentsMergeable prev.content content
          && prev.type &&& ~~~guardFull == type &&& ~~~guardFull
      rightMergeable := meetsRight && next.any fun next =>
        !has next.type guardLow
          && !has type guardHigh
          && next.flags == flags
          && memoryContentsMergeable next.content content
          && next.type &&& ~~~guardFull == type &&& ~~~guardFull
      failureResult := .pageFree }
  else ⟨false, false, false, false, false, .pageFree⟩

/-- `FreeOperation::Check`.  The end is met even if the requested range goes
beyond the descriptor. -/
def checkFree (address size : Nat) (prev : Option Region) (reg : Region)
    (next : Option Region) : DescriptorCheckResults :=
  if reg.content ≠ .free then
    let meetsLeft := reg.range.start == address
      || has reg.type guardLow && reg.range.start == Word.sub address pageSize
    let meetsRight := decide (reg.range.stop ≤ Word.add address size)
      || has reg.type guardHigh
        && reg.range.stop == Word.add (Word.add address size) pageSize
    { accepted := true
      meetsLeft
      meetsRight
      leftMergeable := meetsLeft && prev.any fun prev => prev.content == .free
      rightMergeable := meetsRight && next.any fun next => next.content == .free
      failureResult := .pageFree }
  else ⟨false, false, false, false, false, .pageFree⟩

def check : Operation → Nat → Nat → Option Region → Region → Option Region →
    DescriptorCheckResults
  | allocate flags content type => checkAllocate flags content type
  | free => checkFree

def repurpose : Operation → Region → Region
  | allocate flags content type, reg => { reg with flags, content, type }
  | free, reg =>
      { reg with flags := MemoryFlags.none, content := .free, type := MemoryAllocationOptions.none }

/-- The region that `Spawn` inserts. -/
def spawned : Operation → Nat → Nat → Region
  | allocate flags content type, start, stop => ⟨⟨start, stop⟩, flags, type, content⟩
  | free, start, stop => .blank start stop

end Operation

/-! ## The body of an operation -/

namespace Vas

/-- `Spawn(start, end, reg)`. -/
def spawn (alloc : NodeAllocator) (op : Operation) (start stop : Nat) (vas : Vas) :
    Except HandleResult (Ptr × Vas) :=
  vas.insert alloc { op.spawned start stop with next := none, prev := none }

/-- The operation spans an entire descriptor: it is removed in favour of its
mergeable neighbours, or repurposed. -/
def executeWhole (op : OperationParameters) (reg : Ptr) (dcr : DescriptorCheckResults)
    (vas : Vas) : HandleResult × Vas :=
  let r := vas.mem reg
  if dcr.leftMergeable then
    let next := if dcr.rightMergeable then (vas.deref r.next).next else r.next
    let newEnd := if dcr.rightMergeable then (vas.deref r.next).range.stop else r.range.stop
    let (res, vas) :=
      if dcr.rightMergeable then vas.remove (Word.sub newEnd 1) else (.okay, vas)
    if res ≠ .okay then (res, vas) else
    let prev := r.prev.getD 0
    let (res, vas) := vas.remove op.address
    if res ≠ .okay then (res, vas) else
    let vas := vas.modify prev fun p => { p with range.stop := newEnd }
    let vas := vas.modify prev fun p => { p with next := next }
    (.okay, vas.modifyNonNull next fun n => { n with prev := some prev })
  else if dcr.rightMergeable then
    let newStart := r.range.start
    let prev := r.prev
    let next := r.next.getD 0
    let (res, vas) := vas.remove op.address
    if res ≠ .okay then (res, vas) else
    let vas := vas.modify next fun n => { n with range.start := newStart }
    let vas := vas.modify next fun n => { n with prev := prev }
    match prev with
    | some p => (.okay, vas.modify p fun p => { p with next := some next })
    | none => (.okay, { vas with first := some next })
  else
    (.okay, vas.modify reg fun r => { r with toRegion := op.operation.repurpose r.toRegion })

/-- The operation starts at the beginning of the descriptor but stops before its
end. -/
def executeStart (alloc : NodeAllocator) (op : OperationParameters) (reg : Ptr)
    (dcr : DescriptorCheckResults) (vas : Vas) : HandleResult × Vas :=
  let endAddr := Word.add op.address op.size
  let oldStart := (vas.mem reg).range.start
  let vas := vas.modify reg fun r =>
    { r with range.start := endAddr, type := r.type &&& ~~~guardLow }
  if dcr.leftMergeable then
    (.okay, vas.modify ((vas.mem reg).prev.getD 0) fun p => { p with range.stop := endAddr })
  else
    match vas.spawn alloc op.operation oldStart endAddr with
    | .error res => (res, vas)
    | .ok (newReg, vas) =>
        let prev := (vas.mem reg).prev
        let vas := vas.modify newReg fun n => { n with next := some reg }
        let vas := vas.modify newReg fun n => { n with prev := prev }
        let vas :=
          match prev with
          | some p => vas.modify p fun p => { p with next := some newReg }
          | none => { vas with first := some newReg }
        (.okay, vas.modify reg fun r => { r with prev := some newReg })

/-- The operation starts after the beginning of the descriptor but stops at its
end. -/
def executeEnd (alloc : NodeAllocator) (op : OperationParameters) (reg : Ptr)
    (dcr : DescriptorCheckResults) (vas : Vas) : HandleResult × Vas :=
  let oldEnd := (vas.mem reg).range.stop
  let vas := vas.modify reg fun r =>
    { r with range.stop := op.address, type := r.type &&& ~~~guardHigh }
  if dcr.rightMergeable then
    (.okay, vas.modify ((vas.mem reg).next.getD 0) fun n => { n with range.start := op.address })
  else
    match vas.spawn alloc op.operation op.address oldEnd with
    | .error res => (res, vas)
    | .ok (newReg, vas) =>
        let next := (vas.mem reg).next
        let vas := vas.modify newReg fun n => { n with prev := some reg }
        let vas := vas.modify newReg fun n => { n with next := next }
        let vas := vas.modifyNonNull next fun n => { n with prev := some newReg }
        (.okay, vas.modify reg fun r => { r with next := some newReg })

/-- The operation is within a descriptor and includes neither end: a new region in
the middle, a near-copy of the descriptor at the end. -/
def executeMiddle (alloc : NodeAllocator) (op : OperationParameters) (reg : Ptr) (vas : Vas) :
    HandleResult × Vas :=
  let endAddr := Word.add op.address op.size
  let oldEnd := (vas.mem reg).range.stop
  let oldHighGuard := (vas.mem reg).type &&& guardHigh
  let vas := vas.modify reg fun r =>
    { r with range.stop := op.address, type := r.type &&& ~~~guardHigh }
  match vas.spawn alloc op.operation op.address endAddr with
  | .error res => (res, vas)
  | .ok (newMidReg, vas) =>
      let r := vas.mem reg
      let payload : MemoryRegion :=
        { range := ⟨endAddr, oldEnd⟩, flags := r.flags, content := r.content,
          type := (r.type &&& ~~~guardLow) ||| oldHighGuard, prev := some newMidReg,
          next := r.next }
      match vas.insert alloc payload with
      | .error res => (res, vas)
      | .ok (newEndReg, vas) =>
          let vas := vas.modify newMidReg fun m => { m with next := some newEndReg }
          let vas := vas.modify newMidReg fun m => { m with prev := some reg }
          let vas := vas.modify reg fun r => { r with next := some newMidReg }
          (.okay, vas.modifyNonNull (vas.mem newEndReg).next fun n =>
            { n with prev := some newEndReg })

/-- The four major cases for a region that was accepted. -/
def executeAccepted (alloc : NodeAllocator) (op : OperationParameters) (reg : Ptr)
    (dcr : DescriptorCheckResults) (vas : Vas) : HandleResult × Vas :=
  if has (vas.mem reg).type permanent then (.failed, vas)
  else if dcr.meetsLeft then
    if dcr.meetsRight then vas.executeWhole op reg dcr
    else vas.executeStart alloc op reg dcr
  else
    if dcr.meetsRight then vas.executeEnd alloc op reg dcr
    else vas.executeMiddle alloc op reg

/-- `Check` reads the region and both its neighbours. -/
def check (op : OperationParameters) (reg : Ptr) (vas : Vas) : DescriptorCheckResults :=
  let r := vas.mem reg
  op.operation.check op.address op.size (r.prev.map fun p => (vas.mem p).toRegion) r.toRegion
    (r.next.map fun p => (vas.mem p).toRegion)

/-- The walk of an anonymous allocation along the list: the address it settles on,
if some free region is large enough.  `none` when the fuel runs out. -/
def findAnonymous (startSize : Nat) (vas : Vas) : Nat → Option Ptr → Option (Option Nat)
  | _, none => some none
  | 0, some _ => none
  | fuel + 1, some p =>
      let r := vas.mem p
      if r.content = .free ∧ r.range.getSize ≥ startSize then
        some (some (Word.sub r.range.stop startSize))
      else findAnonymous startSize vas fuel r.next

/-- `OperationParameters::Execute`: the result, the parameters as it leaves them
and the new state.  `none` when the fuel runs out. -/
def execute (alloc : NodeAllocator) :
    Nat → OperationParameters → Vas → Option (HandleResult × OperationParameters × Vas)
  | 0, _, _ => none
  | fuel + 1, op, vas =>
      if vas.first = none then some (.objectDisposed, op, vas)
      else if op.operation.isAllocation ∧ op.address = 0 then
        -- A null address on allocation means that any address is accepted.
        match vas.findAnonymous op.startSize vas.tree.inorder.length vas.first with
        | none => none
        | some none => some (.outOfMemory, op, vas)
        | some (some address) => execute alloc fuel { op with address } vas
      else
        match vas.findRegion op.address with
        | none => some (.argumentOutOfRange, op, vas)
        | some reg =>
            let vas := if vas.lastSearched = some reg then { vas with lastSearched := none } else vas
            let stop := (vas.mem reg).range.stop
            let beyond := decide (Word.add op.address op.size > stop)
            if beyond ∧ ¬op.sparse then some (.argumentOutOfRange, op, vas)
            else
              let dcr := vas.check op reg
              if ¬dcr.accepted ∧ ¬op.tolerant then some (dcr.failureResult, op, vas)
              else
                let (res, vas) :=
                  if dcr.accepted then vas.executeAccepted alloc op reg dcr else (.okay, vas)
                if res ≠ .okay then some (res, op, vas)
                else if beyond ∧ stop ≠ 0 then
                  execute alloc fuel
                    { op with address := stop,
                              size := Word.sub op.size (Word.sub stop op.address) } vas
                else some (res, op, vas)

/-- One pass per region in the range, and one more for an anonymous request, is
all that `execute` can need. -/
def fuel (vas : Vas) : Nat := vas.tree.inorder.length + 2

/-! ## Entry points -/

/-- `Vas::Initialize`, on a memory with arbitrary contents. -/
def initialized (alloc : NodeAllocator) (mem : Ptr → MemoryRegion) (start stop : Nat) :
    HandleResult × Vas :=
  let vas : Vas := { mem, tree := .null, first := none, lastSearched := none }
  match vas.insert alloc { Region.blank start stop with next := none, prev := none } with
  | .error res => (res, vas)
  | .ok (p, vas) => (.okay, { vas with first := some p })

def lowOffset (type : MemoryAllocationOptions) : Nat := if has type guardLow then pageSize else 0

def highOffset (type : MemoryAllocationOptions) : Nat := if has type guardHigh then pageSize else 0

/-- The parameters with which `Vas::Allocate` runs `Execute`. -/
def allocateParameters (vaddr size : Nat) (flags : MemoryFlags) (content : MemoryContent)
    (type : MemoryAllocationOptions) : OperationParameters :=
  let effectiveSize := Word.add (Word.add size (lowOffset type)) (highOffset type)
  { operation := .allocate flags content type
    startSize := effectiveSize
    address := if vaddr = 0 then 0 else Word.sub vaddr (lowOffset type)
    size := effectiveSize
    sparse := false
    tolerant := false }

/-- `Vas::Allocate`: the result, the address it stores in `vaddr` and the new
state. -/
def allocate (alloc : NodeAllocator) (vaddr size : Nat) (flags : MemoryFlags)
    (content : MemoryContent) (type : MemoryAllocationOptions) (vas : Vas) :
    Option (HandleResult × Nat × Vas) :=
  if vas.first = none then some (.objectDisposed, vaddr, vas)
  else
    (vas.execute alloc vas.fuel (allocateParameters vaddr size flags content type)).map
      fun (res, op, vas) => (res, Word.add op.address (lowOffset type), vas)

/-- The parameters with which `Vas::Free` runs `Execute`. -/
def freeParameters (vaddr size : Nat) (sparse tolerant : Bool) : OperationParameters :=
  { operation := .free, startSize := size, address := vaddr, size, sparse, tolerant }

/-- `Vas::Free`. -/
def free (alloc : NodeAllocator) (vaddr size : Nat) (sparse tolerant : Bool) (vas : Vas) :
    Option (HandleResult × Vas) :=
  (vas.execute alloc vas.fuel (freeParameters vaddr size sparse tolerant)).map
    fun (res, _, vas) => (res, vas)

end Vas

end Beelzebub.Memory
