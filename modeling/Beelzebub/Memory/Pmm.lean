import Beelzebub.Lib.Word
import Beelzebub.Handles
import Beelzebub.Memory.Enums
import Mathlib

/-!
# Physical frames

A `FrameAllocationSpace` hands out large frames of 2 MiB and small frames of 4 KiB.
Large frames that are free are stacked through their `nextIndex`.  A large frame
that was split keeps the descriptors of its small frames in its own first page;
the first of them is overlaid with `SplitFrameExtra`, and the others are stacked
through their `nextIndex` while they are free.  Split frames with something left
form a doubly linked list.

Locking is left out: an operation re-checks under the lock what it read before it.
The descriptors of a split frame's page sit in the model of the large frame; of a
frame that is not split nothing there is ever read.
-/

namespace Beelzebub.Memory

/-! ## Descriptors -/

inductive FrameSize where
  | _4KiB
  | _64KiB
  | _2MiB
  | _4MiB
  | _1GiB
deriving DecidableEq, Repr

inductive FrameStatus where
  | free
  | used
  | split
  | full
  | reserved
deriving DecidableEq, Repr

structure FrameDescriptor where
  referenceCount : Nat
  status : FrameStatus
deriving DecidableEq, Repr

namespace FrameDescriptor

def free (_ : FrameDescriptor) : FrameDescriptor := { status := .free, referenceCount := 0 }

def use (refCnt : Nat) (_ : FrameDescriptor) : FrameDescriptor :=
  { status := .used, referenceCount := refCnt }

/-- The reference count wraps at 32 bits. -/
def adjustReferenceCount (diff : Int) (d : FrameDescriptor) : FrameDescriptor :=
  { d with referenceCount := ((d.referenceCount + diff) % 2 ^ 32).toNat }

end FrameDescriptor

structure SmallFrameDescriptor extends FrameDescriptor where
  nextIndex : Nat
deriving DecidableEq, Repr

namespace SmallFrameDescriptor

def nullIndex : Nat := 0

def new : SmallFrameDescriptor := { referenceCount := 0, status := .free, nextIndex := nullIndex }

end SmallFrameDescriptor

structure SplitFrameExtra where
  nextFree : Nat
  freeCount : Nat
  prevIndex : Nat
deriving DecidableEq, Repr

namespace SplitFrameExtra

def nullIndex : Nat := 0xFFFFFFFF

def new : SplitFrameExtra :=
  { nextFree := SmallFrameDescriptor.nullIndex, freeCount := 0, prevIndex := nullIndex }

end SplitFrameExtra

/-- `extras` and `small` are the memory behind `subDescriptors`. -/
structure LargeFrameDescriptor extends FrameDescriptor where
  nextIndex : Nat
  subDescriptors : Nat
  extras : SplitFrameExtra
  small : Nat → SmallFrameDescriptor

namespace LargeFrameDescriptor

def nullIndex : Nat := SplitFrameExtra.nullIndex

def subDescriptorsCount : Nat := 511

/-- `sizeof(LargeFrameDescriptor)`. -/
def size : Nat := 24

/-- `new (this) LargeFrameDescriptor()`, with the page it will use. -/
def new (page : Nat) (d : LargeFrameDescriptor) : LargeFrameDescriptor :=
  { d with referenceCount := 0, status := .free, nextIndex := nullIndex, subDescriptors := page }

def setSmall (i : Nat) (s : SmallFrameDescriptor) (d : LargeFrameDescriptor) :
    LargeFrameDescriptor :=
  { d with small := Function.update d.small i s }

/-- A store through `lastNextIndex`, which points to `NextFree` at first and to the
`NextIndex` of the last small frame afterwards. -/
def setLastNext (last i : Nat) (d : LargeFrameDescriptor) : LargeFrameDescriptor :=
  if last = 0 then { d with extras.nextFree := i }
  else d.setSmall last { d.small last with nextIndex := i }

/-- Constructs the pseudo-stack of `n` free small frames from `i` on. -/
def stackSmall : Nat → Nat → Nat → LargeFrameDescriptor → LargeFrameDescriptor
  | 0, _, last, d => d.setLastNext last SmallFrameDescriptor.nullIndex
  | n + 1, i, last, d => stackSmall n (i + 1) i ((d.setLastNext last i).setSmall i .new)

/-- Constructs `n` reserved small frames from `i` on. -/
def reserveSmall : Nat → Nat → LargeFrameDescriptor → LargeFrameDescriptor
  | 0, _, d => d
  | n + 1, i, d =>
      reserveSmall n (i + 1) (d.setSmall i { SmallFrameDescriptor.new with status := .reserved })

/-- `SplitLargeFrame`. -/
def splitLargeFrame (cnt : Nat) (d : LargeFrameDescriptor) : LargeFrameDescriptor :=
  let d := { d with extras := .new }
  let d := d.stackSmall cnt 1 0
  let d := d.reserveSmall (subDescriptorsCount - cnt) (cnt + 1)
  { d with status := .split, extras.freeCount := cnt }

/-- Takes the first free small frame of a split frame. -/
def takeSmall (refCnt : Nat) (d : LargeFrameDescriptor) : LargeFrameDescriptor :=
  let sIndex := d.extras.nextFree
  let sDesc := { d.small sIndex with
    toFrameDescriptor := (d.small sIndex).toFrameDescriptor.use refCnt }
  let d := d.setSmall sIndex sDesc
  { d with extras.nextFree := sDesc.nextIndex
           extras.freeCount := (d.extras.freeCount + 0xFFFF) % 0x10000 }

/-- Gives a small frame back to its split frame. -/
def giveSmall (sIndex : Nat) (d : LargeFrameDescriptor) : LargeFrameDescriptor :=
  let d := d.setSmall sIndex
    { toFrameDescriptor := (d.small sIndex).toFrameDescriptor.free, nextIndex := d.extras.nextFree }
  { d with extras.nextFree := sIndex
           extras.freeCount := (d.extras.freeCount + 1) % 0x10000 }

end LargeFrameDescriptor

/-! ## Allocation spaces -/

/-- `map` is the array of large frame descriptors, which starts at `mapAddress`. -/
structure FrameAllocationSpace where
  memoryStart : Nat
  memoryEnd : Nat
  size : Nat
  allocationStart : Nat
  allocationEnd : Nat
  allocableSize : Nat
  controlAreaSize : Nat
  freeSize : Nat
  reservedSize : Nat
  largeFrameCount : Nat
  mapAddress : Nat
  map : Nat → LargeFrameDescriptor
  largeFree : Nat
  splitFree : Nat

namespace FrameAllocationSpace

open LargeFrameDescriptor (nullIndex subDescriptorsCount)

def modify (i : Nat) (f : LargeFrameDescriptor → LargeFrameDescriptor)
    (space : FrameAllocationSpace) : FrameAllocationSpace :=
  { space with map := Function.update space.map i (f (space.map i)) }

def setLargeFree (i : Nat) (space : FrameAllocationSpace) : FrameAllocationSpace :=
  { space with largeFree := i }

def setSplitFree (i : Nat) (space : FrameAllocationSpace) : FrameAllocationSpace :=
  { space with splitFree := i }

/-! ### Construction -/

/-- The two ends that the constructor moves towards each other. -/
structure Squeeze where
  ctrlEnd : Nat
  allocStart : Nat
  frameCount : Nat
deriving DecidableEq, Repr

/-- Moves the ends of the control structures and of the allocation area, in steps
of decreasing powers of two. -/
def squeeze : Nat → Squeeze → Squeeze
  | 0, s => s
  | k + 1, s =>
      let i := 2 ^ k
      let newCtrlEnd := Word.add s.ctrlEnd (i * LargeFrameDescriptor.size)
      let newAllocStart := Word.sub s.allocStart (i * largePageSize)
      -- underflow
      if newAllocStart > s.allocStart then squeeze k s
      else if newCtrlEnd ≤ newAllocStart then
        let s := { ctrlEnd := newCtrlEnd, allocStart := newAllocStart
                   frameCount := s.frameCount + i }
        if newCtrlEnd = newAllocStart then s else squeeze k s
      else squeeze k s

/-- A store through `lastNextIndex`, which points to `LargeFree` at first and to the
`NextIndex` of the last large frame afterwards. -/
def setLastNext (last : Option Nat) (i : Nat) (space : FrameAllocationSpace) :
    FrameAllocationSpace :=
  match last with
  | none => space.setLargeFree i
  | some j => space.modify j fun d => { d with nextIndex := i }

/-- Constructs the pseudo-stack of `n` free large frames from `i` on. -/
def stackLarge : Nat → Nat → Option Nat → FrameAllocationSpace → FrameAllocationSpace
  | 0, _, last, space => space.setLastNext last nullIndex
  | n + 1, i, last, space =>
      stackLarge n (i + 1) (some i)
        ((space.setLastNext last i).modify i
          (LargeFrameDescriptor.new (space.allocationStart + i * largePageSize)))

/-- There may be a stray frame at the end that can be used partially. -/
def addPartialFrame (ctrlEnd algnEnd : Nat) (space : FrameAllocationSpace) :
    FrameAllocationSpace :=
  let physEnd := space.memoryEnd
  let frameCount := space.largeFrameCount
  if Word.sub space.allocationStart ctrlEnd ≥ LargeFrameDescriptor.size
      ∧ physEnd - algnEnd ≥ 3 * pageSize then
    let space :=
      { space with
        allocationEnd := physEnd
        allocableSize := physEnd - space.allocationStart
        controlAreaSize := space.controlAreaSize + LargeFrameDescriptor.size
        freeSize := space.freeSize + (physEnd - algnEnd) - pageSize }
    let space := space.modify frameCount fun d =>
      (d.new algnEnd).splitLargeFrame ((physEnd - algnEnd) / pageSize - 2)
    { space with splitFree := frameCount, largeFrameCount := frameCount + 1 }
  else space

/-- The constructor, on memory with arbitrary contents.  `none` when the assertion
that some frame fits is violated. -/
def construct (mem : Nat → LargeFrameDescriptor) (physStart physEnd : Nat) :
    Option FrameAllocationSpace :=
  let algnEnd := physEnd - physEnd % largePageSize
  let s := squeeze 32 { ctrlEnd := physStart, allocStart := algnEnd, frameCount := 0 }
  if s.frameCount = 0 then none
  else
    let space : FrameAllocationSpace :=
      { memoryStart := physStart
        memoryEnd := physEnd
        size := Word.sub physEnd physStart
        allocationStart := s.allocStart
        allocationEnd := algnEnd
        allocableSize := algnEnd - s.allocStart
        controlAreaSize := s.frameCount * LargeFrameDescriptor.size
        freeSize := algnEnd - s.allocStart
        reservedSize := 0
        largeFrameCount := s.frameCount
        mapAddress := physStart
        map := mem
        largeFree := nullIndex
        splitFree := nullIndex }
    some ((space.stackLarge s.frameCount 0 none).addPartialFrame s.ctrlEnd algnEnd)

/-! ### Allocation -/

/-- The address of a frame, as `AllocateFrame` computes it: the shift of the large
index is one of 32 bits. -/
def frameAddress (space : FrameAllocationSpace) (lIndex sIndex : Nat) : Nat :=
  Word.add (Word.add space.allocationStart (lIndex * largePageSize % 2 ^ 32)) (sIndex * pageSize)

/-- Stores the previous index of a split frame, if there is such a frame. -/
def setPrev (i prev : Nat) (space : FrameAllocationSpace) : FrameAllocationSpace :=
  if i ≠ nullIndex then space.modify i fun d => { d with extras.prevIndex := prev } else space

/-- The first split frame has nothing left. -/
def retireSplit (lIndex : Nat) (space : FrameAllocationSpace) : FrameAllocationSpace :=
  let space := space.modify lIndex fun d => { d with status := .full }
  let next := (space.map lIndex).nextIndex
  (space.setSplitFree next).setPrev next nullIndex

/-- Puts a frame in front of the split frames. -/
def pushSplit (lIndex : Nat) (space : FrameAllocationSpace) : FrameAllocationSpace :=
  let next := space.splitFree
  let space := space.modify lIndex fun d => { d with nextIndex := next }
  (space.setSplitFree lIndex).setPrev next lIndex

/-- `AllocateFrame` from the label `grab_large_page` on. -/
def grabLargePage (size : FrameSize) (refCnt : Nat) (space : FrameAllocationSpace) :
    Nat × FrameAllocationSpace :=
  let lIndex := space.largeFree
  if lIndex = nullIndex then (0, space)
  else
    let space := space.setLargeFree (space.map lIndex).nextIndex
    if size = ._2MiB then
      (space.frameAddress lIndex 0, space.modify lIndex fun d =>
        { d with toFrameDescriptor := d.toFrameDescriptor.use refCnt })
    else
      let space := space.modify lIndex (LargeFrameDescriptor.splitLargeFrame subDescriptorsCount)
      let sIndex := (space.map lIndex).extras.nextFree
      let space := space.modify lIndex (LargeFrameDescriptor.takeSmall refCnt)
      let space := space.pushSplit lIndex
      (space.frameAddress lIndex sIndex, space)

/-- `AllocateFrame`: the address, null if there is none, and the new state.  A split
frame without a free small frame should not be in the list; it is tolerated. -/
def allocateFrame (size : FrameSize) (refCnt : Nat) (space : FrameAllocationSpace) :
    Nat × FrameAllocationSpace :=
  match size with
  | ._64KiB | ._4MiB | ._1GiB => (0, space)
  | ._2MiB => space.grabLargePage size refCnt
  | ._4KiB =>
      let lIndex := space.splitFree
      if lIndex = nullIndex then space.grabLargePage size refCnt
      else
        let sIndex := (space.map lIndex).extras.nextFree
        if sIndex = SmallFrameDescriptor.nullIndex then
          (space.retireSplit lIndex).grabLargePage size refCnt
        else
          let space := space.modify lIndex (LargeFrameDescriptor.takeSmall refCnt)
          let space :=
            if (space.map lIndex).extras.nextFree = SmallFrameDescriptor.nullIndex then
              space.retireSplit lIndex
            else space
          (space.frameAddress lIndex sIndex, space)

/-! ### Release and inspection -/

/-- The large frame around an address. -/
def largeIndex (space : FrameAllocationSpace) (addr : Nat) : Nat :=
  Word.sub addr space.allocationStart / largePageSize % 2 ^ 32

/-- The small frame around an address, within its large frame. -/
def smallIndex (addr : Nat) : Nat := addr % largePageSize / pageSize

/-- The lambda `test` of `Mingle`: whether the frame is to be freed, the count for
the caller, and the descriptor. -/
def test (newCnt : Nat) (diff : Int) (ignoreRefCnt : Bool) (d : FrameDescriptor) :
    Bool × Nat × FrameDescriptor :=
  if diff = 0 then (ignoreRefCnt || d.referenceCount ≤ 1, newCnt, d)
  else
    let d := d.adjustReferenceCount diff
    (d.referenceCount == 0, d.referenceCount, d)

/-- Stores the next index of a split frame, if there is such a frame. -/
def setNext (i next : Nat) (space : FrameAllocationSpace) : FrameAllocationSpace :=
  if i ≠ nullIndex then space.modify i fun d => { d with nextIndex := next } else space

/-- Removes a frame from the list of split frames. -/
def unlinkSplit (lIndex : Nat) (space : FrameAllocationSpace) : FrameAllocationSpace :=
  let next := (space.map lIndex).nextIndex
  let prev := (space.map lIndex).extras.prevIndex
  let space := (space.setPrev next prev).setNext prev next
  space.setSplitFree (if space.splitFree = lIndex then next else space.splitFree)

/-- Puts a frame on the stack of free large frames. -/
def pushLarge (lIndex : Nat) (space : FrameAllocationSpace) : FrameAllocationSpace :=
  let space := space.modify lIndex fun d =>
    { d with toFrameDescriptor := d.toFrameDescriptor.free, nextIndex := space.largeFree }
  space.setLargeFree lIndex

/-- A small frame is free again.  Its large frame is listed again if it was full,
and reclaimed if all of it is free. -/
def releaseSmall (lIndex sIndex : Nat) (space : FrameAllocationSpace) : FrameAllocationSpace :=
  let space := space.modify lIndex (LargeFrameDescriptor.giveSmall sIndex)
  if (space.map lIndex).status = .full then
    let space := space.modify lIndex fun d => { d with status := .split }
    let space := space.pushSplit lIndex
    space.modify lIndex fun d => { d with extras.prevIndex := nullIndex }
  else if (space.map lIndex).extras.freeCount = subDescriptorsCount then
    (space.unlinkSplit lIndex).pushLarge lIndex
  else space

/-- `Mingle` for a large frame in use. -/
def mingleLarge (lIndex newCnt : Nat) (diff : Int) (ignoreRefCnt : Bool)
    (space : FrameAllocationSpace) : HandleResult × Nat × FrameAllocationSpace :=
  let (freed, newCnt, d) := test newCnt diff ignoreRefCnt (space.map lIndex).toFrameDescriptor
  let space := space.modify lIndex fun l => { l with toFrameDescriptor := d }
  if freed then (.okay, newCnt, space.pushLarge lIndex)
  else (if diff = 0 then .pageInUse else .okay, newCnt, space)

/-- `Mingle` for a frame in a split frame. -/
def mingleSmall (lIndex sIndex newCnt : Nat) (diff : Int) (ignoreRefCnt : Bool)
    (space : FrameAllocationSpace) : HandleResult × Nat × FrameAllocationSpace :=
  -- the first index holds the descriptors
  if sIndex = 0 then (.pageReserved, newCnt, space)
  else
    let sDesc := (space.map lIndex).small sIndex
    match sDesc.status with
    | .free => (.pageFree, newCnt, space)
    | .used =>
        let (freed, newCnt, d) := test newCnt diff ignoreRefCnt sDesc.toFrameDescriptor
        let space := space.modify lIndex
          (LargeFrameDescriptor.setSmall sIndex { sDesc with toFrameDescriptor := d })
        if freed then (.okay, newCnt, space.releaseSmall lIndex sIndex)
        else (if diff = 0 then .pageInUse else .okay, newCnt, space)
    | .split | .full => (.integrityFailure, newCnt, space)
    | .reserved => (.pageReserved, newCnt, space)

/-- `Mingle`: the result, the count for the caller and the new state. -/
def mingle (addr newCnt : Nat) (diff : Int) (ignoreRefCnt : Bool) (space : FrameAllocationSpace) :
    HandleResult × Nat × FrameAllocationSpace :=
  if addr < space.allocationStart ∨ addr ≥ space.allocationEnd then
    (.pagesOutOfAllocatorRange, newCnt, space)
  else
    let lIndex := space.largeIndex addr
    match (space.map lIndex).status with
    | .free => (.pageFree, newCnt, space)
    | .used => space.mingleLarge lIndex newCnt diff ignoreRefCnt
    | .split | .full => space.mingleSmall lIndex (smallIndex addr) newCnt diff ignoreRefCnt
    | .reserved => (.pageReserved, newCnt, space)

/-- `GetFrameInfo`: the result, and the size and reference count where it sets
them. -/
def getFrameInfo (addr : Nat) (space : FrameAllocationSpace) :
    HandleResult × Option (FrameSize × Nat) :=
  if addr < space.allocationStart ∨ addr ≥ space.allocationEnd then
    (.pagesOutOfAllocatorRange, none)
  else
    let lDesc := space.map (space.largeIndex addr)
    match lDesc.status with
    | .free => (.pageFree, some (._2MiB, 0))
    | .used => (.pageInUse, some (._2MiB, lDesc.referenceCount))
    | .split | .full =>
        let sIndex := smallIndex addr
        let sDesc := lDesc.small sIndex
        if sIndex = 0 then (.pageReserved, some (._4KiB, 2 ^ 32 - 1))
        else
          match sDesc.status with
          | .free => (.pageFree, some (._4KiB, 0))
          | .used => (.pageInUse, some (._4KiB, sDesc.referenceCount))
          | .split | .full => (.integrityFailure, none)
          | .reserved => (.pageReserved, some (._4KiB, sDesc.referenceCount))
    | .reserved => (.pageReserved, some (._2MiB, lDesc.referenceCount))

end FrameAllocationSpace

end Beelzebub.Memory
