import Beelzebub.Memory.AllocatePages

/-!
# The syscalls that request and release memory

A request takes pages from the address space of the process and answers with a handle of the
address.  A release checks that the address is in userland, and hands it to `Vmm::FreePages`, which
only frees pages of the kernel: no request is ever undone.
-/

namespace Beelzebub.Syscalls

open Memory
open MemoryAllocationOptions (virtualUser commit allocateOnDemand guardLow guardHigh)

/-! ## The code -/

abbrev MemoryRequestOptions := BitVec 32

namespace MemoryRequestOptions

def none : MemoryRequestOptions := 0x000
def writable : MemoryRequestOptions := 0x001
def executable : MemoryRequestOptions := 0x002
def guardLow : MemoryRequestOptions := 0x010
def guardHigh : MemoryRequestOptions := 0x020
def reserve : MemoryRequestOptions := 0x100
def commit : MemoryRequestOptions := 0x200
def threadStack : MemoryRequestOptions := 0x031

end MemoryRequestOptions

/-- A handle of one of two types: a result, or a page with the value of the handle. -/
inductive Handle where
  | result (res : HandleResult)
  | page (value : BitVec 64)
deriving DecidableEq

namespace Handle

/-- `IndexBits`. -/
def indexBits : BitVec 64 := 0x7FFFFFFFFFFFFF00

/-- The constructor for a page, which is not global. -/
def ofPage (addr : ℕ) : Handle := .page (0x02 ||| (BitVec.ofNat 64 addr <<< 8 &&& indexBits))

def getExtendedPointer (ptr : BitVec 64) : BitVec 64 :=
  if ptr &&& 0x0000800000000000 ≠ 0 then ptr ||| 0xFFFF000000000000 else ptr

def getPage : Handle → ℕ
  | .result _ => 0
  | .page value => (getExtendedPointer ((value &&& indexBits) >>> 8)).toNat

end Handle

/-- The options that a request is translated to. -/
def allocationType (opts : MemoryRequestOptions) : MemoryAllocationOptions :=
  virtualUser |||
    (if has opts MemoryRequestOptions.commit then commit
      else if has opts MemoryRequestOptions.reserve = false then allocateOnDemand else 0) |||
    (if has opts MemoryRequestOptions.guardLow then guardLow else 0) |||
    (if has opts MemoryRequestOptions.guardHigh then guardHigh else 0)

def requestContent (opts : MemoryRequestOptions) : MemoryContent :=
  if has opts MemoryRequestOptions.threadStack then .threadStack else .generic

def requestFlags (opts : MemoryRequestOptions) : MemoryFlags :=
  MemoryFlags.userland |||
    (if has opts MemoryRequestOptions.writable then MemoryFlags.writable else 0) |||
    (if has opts MemoryRequestOptions.executable then MemoryFlags.executable else 0)

/-- The checks that both syscalls begin with. -/
def checkRange (addr size : ℕ) : Option HandleResult :=
  if addr ≠ 0 ∧ (addr < Vmm.userlandStart ∨ addr ≥ Vmm.userlandEnd) then some .argumentOutOfRange
  else if addr % pageSize ≠ 0 ∨ size % pageSize ≠ 0 then some .alignmentFailure
  else if Word.add addr size < addr ∨ Word.add addr size > Vmm.userlandEnd then
    some .argumentOutOfRange
  else none

section Calls

variable (alloc : NodeAllocator) (as : AddressSpaces) (nx cpuDataSetUp : Bool) (pagingTable : ℕ)

/-- `MemoryRequest`, of the process with the given paging table. -/
def memoryRequest (addr size : ℕ) (opts : MemoryRequestOptions) (m : Vmm.State) :
    Option (Handle × Vmm.State) :=
  match checkRange addr size with
  | some res => some (.result res, m)
  | none =>
      (m.allocatePages alloc as nx cpuDataSetUp pagingTable size (allocationType opts)
        (requestFlags opts) (requestContent opts) addr).map fun (res, addr, m) =>
          (if res ≠ .okay then .result res else .ofPage addr, m)

/-- `MemoryRelease`, which ignores its options. -/
def memoryRelease (addr size : ℕ) (m : Vmm.State) : Option (HandleResult × Vmm.State) :=
  match checkRange addr size with
  | some res => some (res, m)
  | none => m.freePages alloc as cpuDataSetUp pagingTable addr size

/-! ## What is asked -/

/-- Where a request is accepted, the release of its page succeeds and leads back to the state
before the request. -/
def Undone (addr size : ℕ) (opts : MemoryRequestOptions) (m : Vmm.State) : Prop :=
  ∀ value m', memoryRequest alloc as nx cpuDataSetUp pagingTable addr size opts m =
      some (.page value, m') →
    ∃ m'', memoryRelease alloc as cpuDataSetUp pagingTable (Handle.page value).getPage size m' =
        some (.okay, m'') ∧
      m''.user.pageMap = m.user.pageMap ∧
      ∀ v, (Space.user pagingTable).Covers v →
        m''.t.translate pagingTable v = m.t.translate pagingTable v

end Calls

/-! ## Releases -/

variable {alloc : NodeAllocator} {as : AddressSpaces} {nx cpuDataSetUp : Bool} {pagingTable : ℕ}
  {addr size : ℕ} {opts : MemoryRequestOptions} {m m' : Vmm.State} {value : BitVec 64}

/-- A range that passes the checks begins below the kernel. -/
theorem lt_of_checkRange (h : checkRange addr size = none) : addr < Vmm.kernelStart := by
  unfold checkRange at h
  split at h
  next => cases h
  next hrange =>
    by_cases hzero : addr = 0
    · rw [hzero]
      decide
    · have hlt : addr < Vmm.userlandEnd := by
        by_contra hnot
        exact hrange ⟨hzero, .inr (Nat.not_lt.mp hnot)⟩
      exact Nat.lt_trans hlt (by decide)

theorem checkRange_ne_okay (addr size : ℕ) : checkRange addr size ≠ some .okay := by
  unfold checkRange
  split
  next => exact nofun
  next =>
    split
    next => exact nofun
    next =>
      split
      next => exact nofun
      next => exact nofun

/-- No release succeeds, and none does anything. -/
theorem memoryRelease_refused (alloc : NodeAllocator) (as : AddressSpaces) (cpuDataSetUp : Bool)
    (pagingTable addr size : ℕ) (m : Vmm.State) : ∃ res, res ≠ .okay ∧
      memoryRelease alloc as cpuDataSetUp pagingTable addr size m = some (res, m) := by
  unfold memoryRelease
  cases hcheck : checkRange addr size with
  | some res =>
      refine ⟨res, ?_, rfl⟩
      rintro rfl
      exact checkRange_ne_okay addr size hcheck
  | none =>
      have hlt := lt_of_checkRange hcheck
      dsimp only
      unfold Vmm.State.freePages
      split
      next => exact ⟨.alignmentFailure, nofun, rfl⟩
      next =>
        refine ⟨.pageMapIllegalRange, nofun, ?_⟩
        rw [if_pos (Nat.not_le.mpr hlt)]

/-- No request that is accepted is ever undone. -/
theorem not_undone (h : memoryRequest alloc as nx cpuDataSetUp pagingTable addr size opts m =
      some (.page value, m')) : ¬ Undone alloc as nx cpuDataSetUp pagingTable addr size opts m := by
  intro hundone
  obtain ⟨m'', hrelease, -⟩ := hundone value m' h
  obtain ⟨res, hres, hrefused⟩ := memoryRelease_refused alloc as cpuDataSetUp pagingTable
    (Handle.page value).getPage size m'
  rw [hrelease] at hrefused
  cases hrefused
  exact hres rfl

/-! A page anywhere, which is filled on demand. -/

theorem memoryRequest_anywhere : ∃ m', memoryRequest Vas.unlimited Tables.oneProcess true true
    0x1000 0 0x1000 MemoryRequestOptions.writable Vmm.State.noFrames =
      some (.ofPage 0x7FFFFFFFF000, m') := by
  have hcall : (memoryRequest Vas.unlimited Tables.oneProcess true true 0x1000 0 0x1000
      MemoryRequestOptions.writable Vmm.State.noFrames).map (fun out => out.1) =
      some (.ofPage 0x7FFFFFFFF000) := by decide +kernel
  obtain ⟨⟨handle, m'⟩, hrequest, heq⟩ := Option.map_eq_some_iff.mp hcall
  cases heq
  exact ⟨m', hrequest⟩

theorem not_undone_anywhere : ¬ Undone Vas.unlimited Tables.oneProcess true true 0x1000 0 0x1000
    MemoryRequestOptions.writable Vmm.State.noFrames :=
  memoryRequest_anywhere.elim fun _ hrequest => not_undone hrequest

theorem not_always_undone : ¬ ∀ (addr size : ℕ) (opts : MemoryRequestOptions) (m : Vmm.State),
    0 < size → Undone Vas.unlimited Tables.oneProcess true true 0x1000 addr size opts m := by
  intro h
  obtain ⟨m', hrequest⟩ := memoryRequest_anywhere
  obtain ⟨m'', hrelease, -⟩ := h 0 0x1000 _ Vmm.State.noFrames (by decide) _ m' hrequest
  obtain ⟨res, hres, hrefused⟩ := memoryRelease_refused Vas.unlimited Tables.oneProcess true 0x1000
    (Handle.ofPage 0x7FFFFFFFF000).getPage 0x1000 m'
  cases hrelease.symm.trans hrefused
  exact hres rfl

end Beelzebub.Syscalls
