import Mathlib.Tactic.Common

/-!
# Memory enumerations

Flag sets keep the widths and the values they have in the kernel; enumerations
are inductive types.
-/

namespace Beelzebub.Memory

/-- Size of a small page. -/
def pageSize : Nat := 0x1000

/-- Size of a large page. -/
def largePageSize : Nat := 0x200000

/-- Characteristics of pages that can be mapped. -/
abbrev MemoryFlags := BitVec 8

namespace MemoryFlags

def none : MemoryFlags := 0x00
def global : MemoryFlags := 0x01
def userland : MemoryFlags := 0x02
def writable : MemoryFlags := 0x04
def executable : MemoryFlags := 0x08

end MemoryFlags

/-- Kinds of pages that can be allocated. -/
abbrev MemoryAllocationOptions := BitVec 32

namespace MemoryAllocationOptions

def none : MemoryAllocationOptions := 0x00000000
/-- The pages involved will not be freed. -/
def permanent : MemoryAllocationOptions := 0x00000001
/-- Guards the highest page. -/
def guardHigh : MemoryAllocationOptions := 0x00000002
/-- Guards the lowest page. -/
def guardLow : MemoryAllocationOptions := 0x00000004
def guardFull : MemoryAllocationOptions := 0x00000006
def reserve : MemoryAllocationOptions := 0x00000000
def used : MemoryAllocationOptions := 0x00000040
def commit : MemoryAllocationOptions := 0x00000080
def allocateOnDemand : MemoryAllocationOptions := 0x000000C0
def strategyMask : MemoryAllocationOptions := 0x000000F0
def virtualUser : MemoryAllocationOptions := 0x80000000

end MemoryAllocationOptions

/-- Flags of a page fault. -/
abbrev PageFaultFlags := BitVec 8

namespace PageFaultFlags

def present : PageFaultFlags := 0x01
def write : PageFaultFlags := 0x02
def userland : PageFaultFlags := 0x04
def reserved : PageFaultFlags := 0x08
def execute : PageFaultFlags := 0x10

end PageFaultFlags

/-- What a memory range holds. -/
inductive MemoryContent where
  | generic
  | share
  | threadStack
  | runtime
  | kernelModule
  | cpuDatas
  | vasDescriptors
  | handleTable
  | handleMap
  | processList
  | threadList
  | bootModule
  | vbeFramebuffer
  | acpiTable
  | vmmBootstrap
  | free
deriving DecidableEq, Repr, Inhabited

/-- Descriptors of these contents can be merged safely; all the others have an
important unique identity. -/
def memoryContentsMergeable (a b : MemoryContent) : Bool :=
  if a = b then
    match a with
    | .generic | .cpuDatas | .vmmBootstrap | .free => true
    | _ => false
  else false

theorem eq_of_memoryContentsMergeable {a b : MemoryContent}
    (h : memoryContentsMergeable a b = true) : a = b := by
  unfold memoryContentsMergeable at h
  split at h
  next hab => exact hab
  next => cases h

/-- A flag of an option set, as the sources test it: `0 != (type & flag)`. -/
def has {w : Nat} (type flag : BitVec w) : Bool := type &&& flag != 0

/-- An option set without the guard bits. -/
def withoutGuards (type : MemoryAllocationOptions) : MemoryAllocationOptions :=
  type &&& ~~~MemoryAllocationOptions.guardFull

open MemoryAllocationOptions

@[simp] theorem withoutGuards_none :
    withoutGuards MemoryAllocationOptions.none = MemoryAllocationOptions.none := by
  decide

/-! ## Clearing a guard bit -/

theorem withoutGuards_clear_low (t : MemoryAllocationOptions) :
    withoutGuards (t &&& ~~~guardLow) = withoutGuards t := by
  rw [withoutGuards, withoutGuards, BitVec.and_assoc]
  congr 1

theorem withoutGuards_clear_high (t : MemoryAllocationOptions) :
    withoutGuards (t &&& ~~~guardHigh) = withoutGuards t := by
  rw [withoutGuards, withoutGuards, BitVec.and_assoc]
  congr 1

theorem has_clear {f g : MemoryAllocationOptions} (t : MemoryAllocationOptions)
    (h : ~~~g &&& f = f) : has (t &&& ~~~g) f = has t f := by
  rw [has, has, BitVec.and_assoc, h]

theorem has_clear_self (t g : MemoryAllocationOptions) : has (t &&& ~~~g) g = false := by
  rw [has, BitVec.and_assoc]
  simp [BitVec.and_comm, BitVec.and_not_self]

theorem has_eq_false_iff {w : Nat} {t f : BitVec w} : has t f = false ↔ t &&& f = 0 := by
  simp [has]

theorem has_or {w : Nat} (s t f : BitVec w) : has (s ||| t) f = (has s f || has t f) := by
  have key : has (s ||| t) f = false ↔ has s f = false ∧ has t f = false := by
    rw [has_eq_false_iff, has_eq_false_iff, has_eq_false_iff, BitVec.and_or_distrib_right]
    exact BitVec.or_eq_zero_iff
  cases hs : has s f <;> cases ht : has t f <;> cases hst : has (s ||| t) f <;>
    simp_all

/-- Permanence is not a guard bit. -/
theorem has_permanent_withoutGuards (t : MemoryAllocationOptions) :
    has (withoutGuards t) permanent = has t permanent := by
  rw [withoutGuards, has, has, BitVec.and_assoc]
  congr 2

end Beelzebub.Memory
