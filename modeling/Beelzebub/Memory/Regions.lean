import Beelzebub.Lib.Word
import Beelzebub.Memory.Enums

/-!
# Memory regions

A region is a range of virtual addresses with its flags, type and content.  The
descriptor of a region also holds the links to the neighbouring descriptors, as
pointers to the tree nodes they sit in.
-/

namespace Beelzebub.Memory

/-- Address of a tree node. -/
abbrev Ptr := Nat

/-- A half-open range of virtual addresses. -/
structure MemoryRange where
  start : Nat
  stop : Nat
deriving DecidableEq, Repr

namespace MemoryRange

def getSize (r : MemoryRange) : Nat := Word.sub r.stop r.start

def contains (r : MemoryRange) (vaddr : Nat) : Bool := vaddr ≥ r.start && vaddr < r.stop

/-- `Compare` of two ranges: overlapping ranges are equal. -/
def compare (a b : MemoryRange) : Ordering :=
  if a.stop ≤ b.start then .lt else if a.start ≥ b.stop then .gt else .eq

/-- `Compare` of a range with an address. -/
def compareAddress (a : MemoryRange) (b : Nat) : Ordering :=
  if a.stop ≤ b then .lt else if a.start > b then .gt else .eq

end MemoryRange

/-- What a descriptor says about its range. -/
structure Region where
  range : MemoryRange
  flags : MemoryFlags
  type : MemoryAllocationOptions
  content : MemoryContent
deriving DecidableEq, Repr

/-- A region descriptor: the region and the links to its neighbours. -/
structure MemoryRegion extends Region where
  next : Option Ptr
  prev : Option Ptr
deriving DecidableEq, Repr

namespace Region

def start (r : Region) : Nat := r.range.start

def stop (r : Region) : Nat := r.range.stop

def setStart (r : Region) (start : Nat) : Region := { r with range.start := start }

def setStop (r : Region) (stop : Nat) : Region := { r with range.stop := stop }

/-- The region without some of its options. -/
def clear (r : Region) (option : MemoryAllocationOptions) : Region :=
  { r with type := r.type &&& ~~~option }

/-- A region nobody uses. -/
def blank (start stop : Nat) : Region :=
  ⟨⟨start, stop⟩, MemoryFlags.none, MemoryAllocationOptions.none, .free⟩

@[simp] theorem start_setStart (r : Region) (v : Nat) : (r.setStart v).start = v := rfl
@[simp] theorem stop_setStart (r : Region) (v : Nat) : (r.setStart v).stop = r.stop := rfl
@[simp] theorem type_setStart (r : Region) (v : Nat) : (r.setStart v).type = r.type := rfl
@[simp] theorem flags_setStart (r : Region) (v : Nat) : (r.setStart v).flags = r.flags := rfl
@[simp] theorem content_setStart (r : Region) (v : Nat) :
    (r.setStart v).content = r.content := rfl

@[simp] theorem start_setStop (r : Region) (v : Nat) : (r.setStop v).start = r.start := rfl
@[simp] theorem stop_setStop (r : Region) (v : Nat) : (r.setStop v).stop = v := rfl
@[simp] theorem type_setStop (r : Region) (v : Nat) : (r.setStop v).type = r.type := rfl
@[simp] theorem flags_setStop (r : Region) (v : Nat) : (r.setStop v).flags = r.flags := rfl
@[simp] theorem content_setStop (r : Region) (v : Nat) : (r.setStop v).content = r.content := rfl

@[simp] theorem start_clear (r : Region) (o : MemoryAllocationOptions) :
    (r.clear o).start = r.start := rfl
@[simp] theorem stop_clear (r : Region) (o : MemoryAllocationOptions) :
    (r.clear o).stop = r.stop := rfl
@[simp] theorem type_clear (r : Region) (o : MemoryAllocationOptions) :
    (r.clear o).type = r.type &&& ~~~o := rfl
@[simp] theorem flags_clear (r : Region) (o : MemoryAllocationOptions) :
    (r.clear o).flags = r.flags := rfl
@[simp] theorem content_clear (r : Region) (o : MemoryAllocationOptions) :
    (r.clear o).content = r.content := rfl

end Region

namespace MemoryRange

theorem compareAddress_eq_lt {a : MemoryRange} {v : Nat} (h : a.stop ≤ v) :
    a.compareAddress v = .lt := by
  rw [compareAddress, if_pos h]

theorem compareAddress_eq_gt {a : MemoryRange} {v : Nat} (hne : a.start < a.stop)
    (h : v < a.start) : a.compareAddress v = .gt := by
  rw [compareAddress, if_neg (by omega), if_pos h]

theorem compareAddress_eq_eq {a : MemoryRange} {v : Nat} (h1 : a.start ≤ v) (h2 : v < a.stop) :
    a.compareAddress v = .eq := by
  rw [compareAddress, if_neg (by omega), if_neg (by omega)]

theorem bounds_of_compareAddress {a : MemoryRange} {v : Nat} (h : a.compareAddress v = .eq) :
    a.start ≤ v ∧ v < a.stop := by
  unfold compareAddress at h
  split at h
  · cases h
  · split at h
    · cases h
    · omega

theorem compare_eq_lt {a b : MemoryRange} (h : a.stop ≤ b.start) : a.compare b = .lt := by
  rw [compare, if_pos h]

theorem compare_eq_gt {a b : MemoryRange} (hne : a.start < a.stop) (hb : b.start ≤ b.stop)
    (h : b.stop ≤ a.start) : a.compare b = .gt := by
  rw [compare, if_neg (by omega), if_pos h]

end MemoryRange

end Beelzebub.Memory
