import Beelzebub.Memory.PmmConstruct
import Beelzebub.Memory.VmmArc

/-!
# Allocation spaces in memory

`CreateAllocationSpace` puts the records of the allocation spaces into pages of the
memory they manage and chains them; at that time physical memory is mapped to the
same virtual addresses.  `Bootstrap` then moves all pointers between these records
to the higher half.

Records are kept by their physical address; a pointer is followed through the
mapping that is in effect.  The frames that the page tables take in the meantime are
left out, since handing out a frame changes no pointer.
-/

namespace Beelzebub.Memory

open VmmArc

/-- The fields of a `FrameAllocationSpace` that the relocation reads or writes. -/
structure SpaceRecord where
  memoryStart : Nat
  controlAreaSize : Nat
  largeFrameCount : Nat
  map : Nat
  next : Nat
  previous : Nat

def SpaceRecord.setMap (p : Nat) (s : SpaceRecord) : SpaceRecord := { s with map := p }

structure FrameAllocator where
  firstSpace : Nat
  lastSpace : Nat

/-- Memory with the statics of `PmmArc`.  `subDescriptors` is that field of the large
frame descriptor at the given physical address, and `pages` holds the mappings of the
higher half. -/
structure Machine where
  tempSpaceLimit : Nat
  allocationSpace : Nat
  mainAllocator : Nat
  allocators : Nat → FrameAllocator
  spaces : Nat → SpaceRecord
  subDescriptors : Nat → Nat
  pages : Nat → Option Nat

/-- Why the relocation stops early. -/
inductive Fault where
  | mapping (res : HandleResult)
  | page
  | fuel
deriving DecidableEq, Repr

namespace Machine

/-! ## Creation -/

/-- `sizeof(FrameAllocator)`. -/
def allocatorSize : Nat := 24

/-- `sizeof(FrameAllocationSpace)`. -/
def spaceSize : Nat := 120

/-- Constructs the record of a space, together with the descriptors of its frames. -/
def place (a : Nat) (space : FrameAllocationSpace) (m : Machine) : Machine :=
  { m with
    spaces := Function.update m.spaces a
      { memoryStart := space.memoryStart
        controlAreaSize := space.controlAreaSize
        largeFrameCount := space.largeFrameCount
        map := space.mapAddress
        next := 0
        previous := 0 }
    subDescriptors := fun d =>
      if space.mapAddress ≤ d ∧ (d - space.mapAddress) % LargeFrameDescriptor.size = 0 ∧
          (d - space.mapAddress) / LargeFrameDescriptor.size < space.largeFrameCount then
        (space.map ((d - space.mapAddress) / LargeFrameDescriptor.size)).subDescriptors
      else m.subDescriptors d }

/-- `AppendAllocationSpace`. -/
def appendAllocationSpace (a : Nat) (m : Machine) : Machine :=
  let alloc := m.allocators m.mainAllocator
  let last := alloc.lastSpace
  let spaces := Function.update m.spaces last { m.spaces last with next := a }
  { m with
    spaces := Function.update spaces a { spaces a with previous := last }
    allocators := Function.update m.allocators m.mainAllocator { alloc with lastSpace := a } }

/-- `PmmArc::CreateAllocationSpace`, on memory with arbitrary contents.  `none` when an
assertion of the constructor is violated. -/
def createAllocationSpace (mem : Nat → LargeFrameDescriptor) (start stop : Nat) (m : Machine) :
    Option (HandleResult × Machine) :=
  if Word.sub stop start < 2 * 2 ^ 21 then some (.failed, m)
  else if m.mainAllocator ≠ 0 then
    if m.allocationSpace + 2 * spaceSize > m.tempSpaceLimit then
      -- no room for one more record: a new page, and the start is pushed forward
      match FrameAllocationSpace.construct mem (start + pageSize) stop with
      | none => none
      | some space =>
          let m := { m with allocationSpace := start, tempSpaceLimit := start + pageSize }
          some (.okay, (m.place start space).appendAllocationSpace start)
    else
      match FrameAllocationSpace.construct mem start stop with
      | none => none
      | some space =>
          let a := m.allocationSpace + spaceSize
          let m := { m with allocationSpace := a }
          some (.okay, (m.place a space).appendAllocationSpace a)
  else
    -- the first page of the first space holds the allocator too
    match FrameAllocationSpace.construct mem (start + pageSize) stop with
    | none => none
    | some space =>
        let a := start + allocatorSize
        let m := { m with
          mainAllocator := start, allocationSpace := a, tempSpaceLimit := start + pageSize }
        let m := m.place a space
        some (.okay, { m with
          allocators := Function.update m.allocators start { firstSpace := a, lastSpace := a } })

/-! ## Mapping -/

/-- Where a pointer leads to. -/
def translate (m : Machine) (v : Nat) : Option Nat :=
  if v < lowerHalfEnd then some v
  else (m.pages (v - v % pageSize)).map (· + v % pageSize)

/-- Follows a pointer. -/
def fetch (p : Nat) (m : Machine) : Except Fault Nat :=
  match m.translate p with
  | some a => .ok a
  | none => .error .page

/-- The core of mapping a page. -/
def mapPageInternal (vaddr paddr : Nat) (m : Machine) : Except Fault Machine :=
  if (m.pages vaddr).isSome then .error (.mapping .pageMapped)
  else .ok { m with pages := Function.update m.pages vaddr (some paddr) }

/-- `MapPage`. -/
def mapPage (vaddr paddr : Nat) (m : Machine) : Except Fault Machine :=
  if Illegal vaddr then .error (.mapping .pageMapIllegalRange)
  else if vaddr % pageSize ≠ 0 ∨ paddr % pageSize ≠ 0 then .error (.mapping .alignmentFailure)
  else m.mapPageInternal vaddr paddr

/-- Maps consecutive pages. -/
def mapPages : Nat → Nat → Nat → Machine → Except Fault Machine
  | 0, _, _, m => .ok m
  | n + 1, vaddr, paddr, m =>
      match m.mapPageInternal vaddr paddr with
      | .error e => .error e
      | .ok m => mapPages n (vaddr + pageSize) (paddr + pageSize) m

/-- `MapRange`. -/
def mapRange (vaddr paddr size : Nat) (m : Machine) : Except Fault Machine :=
  if (vaddr + size > fractalStart ∧ vaddr < fractalEnd) ∨
      (vaddr + size > lowerHalfEnd ∧ vaddr < higherHalfStart) then
    .error (.mapping .pageMapIllegalRange)
  else if vaddr % pageSize ≠ 0 ∨ paddr % pageSize ≠ 0 ∨ size % pageSize ≠ 0 then
    .error (.mapping .alignmentFailure)
  else m.mapPages (size / pageSize) vaddr paddr

/-! ## Relocation -/

/-- A pointer after the page around it has moved. -/
def moved (oldVaddr newVaddr p : Nat) : Nat :=
  if oldVaddr ≤ p ∧ p < oldVaddr + pageSize then p - oldVaddr + newVaddr else p

/-- The same for a pointer that may be null. -/
def movedLink (oldVaddr newVaddr p : Nat) : Nat :=
  if p = 0 then p else moved oldVaddr newVaddr p

def remapRecord (oldVaddr newVaddr : Nat) (s : SpaceRecord) : SpaceRecord :=
  { s with next := movedLink oldVaddr newVaddr s.next
           previous := movedLink oldVaddr newVaddr s.previous }

/-- The loop of `Remap`, from the last space to the first. -/
def remapChain (oldVaddr newVaddr : Nat) : Nat → Nat → Machine → Except Fault Machine
  | 0, _, _ => .error .fuel
  | n + 1, cur, m =>
      if cur = 0 then .ok m
      else
        match m.fetch cur with
        | .error e => .error e
        | .ok a =>
            let s := remapRecord oldVaddr newVaddr (m.spaces a)
            remapChain oldVaddr newVaddr n s.previous
              { m with spaces := Function.update m.spaces a s }

/-- `PmmArc::Remap`. -/
def remap (fuel oldVaddr newVaddr : Nat) (m : Machine) : Except Fault Machine :=
  let m := { m with mainAllocator := moved oldVaddr newVaddr m.mainAllocator }
  match m.fetch m.mainAllocator with
  | .error e => .error e
  | .ok a =>
      let alloc : FrameAllocator :=
        { firstSpace := movedLink oldVaddr newVaddr (m.allocators a).firstSpace
          lastSpace := movedLink oldVaddr newVaddr (m.allocators a).lastSpace }
      remapChain oldVaddr newVaddr fuel alloc.lastSpace
        { m with allocators := Function.update m.allocators a alloc }

/-- Moves the pages with the descriptors of the small frames, one for each of `n` large
frames from number `i` on. -/
def relocateFrames : Nat → Nat → Nat → Nat → Machine → Except Fault (Machine × Nat)
  | 0, _, _, curLoc, m => .ok (m, curLoc)
  | n + 1, i, map, curLoc, m =>
      match m.fetch (map + i * LargeFrameDescriptor.size) with
      | .error e => .error e
      | .ok lDesc =>
          match m.mapPage curLoc (m.subDescriptors lDesc) with
          | .error e => .error e
          | .ok m =>
              relocateFrames n (i + 1) map (curLoc + pageSize)
                { m with subDescriptors := Function.update m.subDescriptors lDesc curLoc }

/-- Moves the control structures of one space. -/
def relocateSpace (cur curLoc : Nat) (m : Machine) : Except Fault (Machine × Nat) :=
  match m.fetch cur with
  | .error e => .error e
  | .ok a =>
      let s := m.spaces a
      let size := (s.controlAreaSize + (pageSize - 1)) / pageSize * pageSize
      match m.mapRange curLoc s.memoryStart size with
      | .error e => .error e
      | .ok m =>
          relocateFrames s.largeFrameCount 0 curLoc (curLoc + size)
            { m with spaces := Function.update m.spaces a (s.setMap curLoc) }

/-- Maps the page with the links between the spaces. -/
def relocateLinks (fuel cur curLoc : Nat) (m : Machine) : Except Fault Machine :=
  match m.mapPage curLoc (cur - cur % pageSize) with
  | .error e => .error e
  | .ok m => m.remap fuel (cur - cur % pageSize) curLoc

/-- The loop of `Bootstrap`.  One page of links is the maximum it moves. -/
def relocate (fuel : Nat) : Nat → Nat → Bool → Nat → Machine → Except Fault (Machine × Nat)
  | 0, _, _, _, _ => .error .fuel
  | n + 1, cur, pendingLinksMapping, curLoc, m =>
      let links : Except Fault (Machine × Bool × Nat) :=
        if cur < higherHalfStart ∧ pendingLinksMapping then
          match m.relocateLinks fuel cur curLoc with
          | .error e => .error e
          | .ok m => .ok (m, false, curLoc + pageSize)
        else .ok (m, pendingLinksMapping, curLoc)
      match links with
      | .error e => .error e
      | .ok (m, pendingLinksMapping, curLoc) =>
          match m.relocateSpace cur curLoc with
          | .error e => .error e
          | .ok (m, curLoc) =>
              match m.fetch cur with
              | .error e => .error e
              | .ok a =>
                  if (m.spaces a).next = 0 then .ok (m, curLoc)
                  else relocate fuel n (m.spaces a).next pendingLinksMapping curLoc m

/-- `Vmm::Bootstrap` from the first space on, up to the end of that loop. -/
def bootstrap (fuel : Nat) (m : Machine) : Except Fault (Machine × Nat) :=
  match m.fetch m.mainAllocator with
  | .error e => .error e
  | .ok a => relocate fuel fuel (m.allocators a).firstSpace true kernelHeapStart m

end Machine

end Beelzebub.Memory
