import Beelzebub.Execution.Elf
import Beelzebub.Execution.PagedMemory
import Beelzebub.Memory.Faults

/-!
# Mapping of segments

`MapSegment64` of the kernel either copies a segment into pages of its own, or shows the pages of
the image.  It allocates as many pages as the size of the segment asks for, and a segment that does
not begin on a page may take up one more.

Pages are small ones, and locks and assertions are left out.  Which calls of the memory manager fail
is up to it.
-/

namespace Beelzebub.Execution

open Memory (MemoryFlags MemoryAllocationOptions has)
open Memory.MemoryAllocationOptions (commit used virtualUser permanent)
open Memory.Vmm (userlandStart userlandEnd kernelStart kernelEnd)

/-! ## The code -/

def roundDown (value : UInt64) : UInt64 := value - value % 4096

def roundUp (value : UInt64) : UInt64 := (value + 4096 - 1) / 4096 * 4096

/-- What a call of `MapPage` for a free page comes to: the page stays mapped if the frame does not
take a reference. -/
inductive MapOutcome where
  | mapped
  | refused
  | stranded
  deriving DecidableEq

/-- What the memory manager does that does not follow from the page map. -/
structure MemoryManager where
  allocatePages : UInt64 → MemoryAllocationOptions → MemoryFlags → UInt64 → ProcessMemory →
    Option ProcessMemory
  mapOutcome : UInt64 → ProcessMemory → MapOutcome
  freeKernelPages : UInt64 → UInt64 → ProcessMemory → ProcessMemory

namespace ProcessMemory

def setPage (p : UInt64) (page : Option Page) (m : ProcessMemory) : ProcessMemory :=
  { m with page := fun q => if q = p then page else m.page q }

def translate (vaddr : UInt64) (m : ProcessMemory) : Option UInt64 :=
  (m.page (pageOf vaddr)).map Page.frame

def unmapPage (vaddr : UInt64) (m : ProcessMemory) : ProcessMemory :=
  m.setPage (pageOf vaddr) none

end ProcessMemory

namespace MemoryManager

variable (vmm : MemoryManager)

/-- Whether the page was mapped, and the memory after. -/
def mapPage (vaddr paddr : UInt64) (flags : MemoryFlags) (m : ProcessMemory) :
    Bool × ProcessMemory :=
  match m.page (pageOf vaddr) with
  | some _ => (false, m)
  | none =>
      let mapped := m.setPage (pageOf vaddr) (some ⟨paddr, flags⟩)
      match vmm.mapOutcome vaddr m with
      | .mapped => (true, mapped)
      | .refused => (false, m)
      | .stranded => (false, mapped)

/-- Pages of the lower half are not freed this way. -/
def freePages (vaddr size : UInt64) (m : ProcessMemory) : ProcessMemory :=
  if vaddr % 4096 ≠ 0 then m
  else if vaddr.toNat ≥ kernelStart then vmm.freeKernelPages vaddr size m
  else m

/-- The loop that shows the pages of the image, for so many rounds at most: whether it came to its
end, and the page at which it stopped. -/
def sharePages (pageFlags : MemoryFlags) (segVaddrEnd : UInt64) :
    ℕ → UInt64 → UInt64 → ProcessMemory → Bool × UInt64 × ProcessMemory
  | 0, vaddr, _, m => (true, vaddr, m)
  | rounds + 1, vaddr, imgVaddr, m =>
      if vaddr < segVaddrEnd then
        match m.translate imgVaddr with
        | none => (false, vaddr, m)
        | some paddr =>
            if paddr = 0 then (false, vaddr, m)
            else
              let done := vmm.mapPage vaddr paddr pageFlags m
              if done.1 then
                sharePages pageFlags segVaddrEnd rounds (vaddr + 4096) (imgVaddr + 4096) done.2
              else (false, vaddr, done.2)
      else (true, vaddr, m)

/-- The loop behind `rollbackMapping`. -/
def rollbackMapping (segVaddr : UInt64) : ℕ → UInt64 → ProcessMemory → ProcessMemory
  | 0, _, m => m
  | rounds + 1, vaddr, m =>
      let vaddr := vaddr - 4096
      let m := m.unmapPage vaddr
      if vaddr > segVaddr then rollbackMapping segVaddr rounds vaddr m else m

/-- The flags of the pages of a segment. -/
def pageFlags (flags : UInt32) : MemoryFlags :=
  let pageFlags := MemoryFlags.userland
  let pageFlags :=
    if flags &&& flagExecutable ≠ 0 then pageFlags ||| MemoryFlags.executable else pageFlags
  if flags &&& flagWritable ≠ 0 then pageFlags ||| MemoryFlags.writable else pageFlags

/-- The part of `MapSegment64` that copies the segment. -/
def copySegment (loc img segVaddr : UInt64) (phdr : ElfProgramHeader64) (m : ProcessMemory) :
    Option (Bool × ProcessMemory) :=
  match vmm.allocatePages (roundUp phdr.vSize) (commit ||| virtualUser ||| permanent)
      (pageFlags phdr.flags) segVaddr m with
  | none => some (false, m)
  | some m =>
      match m.copy phdr.pSize.toNat (loc + phdr.vAddr) (img + phdr.offset) with
      | none => none
      | some m =>
          if phdr.vSize > phdr.pSize then
            (m.fill 0 (phdr.vSize - phdr.pSize).toNat (loc + phdr.vAddr + phdr.pSize)).map (true, ·)
          else some (true, m)

/-- The part of `MapSegment64` that shows the pages of the image. -/
def shareSegment (img segVaddr segVaddrEnd : UInt64) (phdr : ElfProgramHeader64)
    (m : ProcessMemory) : Bool × ProcessMemory :=
  match vmm.allocatePages (roundUp phdr.vSize) (used ||| virtualUser ||| permanent)
      (pageFlags phdr.flags) segVaddr m with
  | none => (false, m)
  | some m =>
      let shared := vmm.sharePages (pageFlags phdr.flags) segVaddrEnd (2 ^ 52) segVaddr
        (img + roundDown phdr.offset) m
      if shared.1 then (true, shared.2.2)
      else
        let m := rollbackMapping segVaddr (2 ^ 52) shared.2.1 shared.2.2
        (false, vmm.freePages segVaddr (phdr.vSize + 4096 - 1) m)

/-- The segment is copied. -/
def IsCopied (phdr : ElfProgramHeader64) : Prop :=
  has (pageFlags phdr.flags) MemoryFlags.writable = true ∨ phdr.vSize ≠ phdr.pSize

instance (phdr : ElfProgramHeader64) : Decidable (IsCopied phdr) :=
  inferInstanceAs (Decidable (_ ∨ _))

/-- `MapSegment64`, with `AllowInKernel` of the data if there is any.  A fault is no answer. -/
def mapSegment64 (loc img : UInt64) (phdr : ElfProgramHeader64) (data : Option Bool)
    (m : ProcessMemory) : Option (Bool × ProcessMemory) :=
  let segVaddr := loc + roundDown phdr.vAddr
  let segVaddrEnd := loc + roundUp (phdr.vAddr + phdr.vSize)
  if segVaddrEnd ≤ segVaddr ∨ segVaddr.toNat < userlandStart ∨ segVaddrEnd.toNat > kernelEnd then
    some (false, m)
  else if segVaddrEnd.toNat > userlandEnd ∧
      (segVaddr.toNat < kernelStart ∨ data ≠ some true) then some (false, m)
  else if IsCopied phdr then vmm.copySegment loc img segVaddr phdr m
  else some (vmm.shareSegment img segVaddr segVaddrEnd phdr m)

end MemoryManager

/-! ## What is asked -/

/-- The page is one of a range that begins on a page. -/
def InPages (vaddr size p : UInt64) : Prop :=
  vaddr.toNat / 4096 ≤ p.toNat ∧ p.toNat * 4096 < vaddr.toNat + size.toNat

instance (vaddr size p : UInt64) : Decidable (InPages vaddr size p) :=
  inferInstanceAs (Decidable (_ ∧ _))

/-- The pages of the range are reserved, and mapped to frames that no other page shows if they are
committed; nothing else is done. -/
structure Allocated (size : UInt64) (type : MemoryAllocationOptions) (flags : MemoryFlags)
    (vaddr : UInt64) (m m' : ProcessMemory) : Prop where
  reserved : ∀ p, m'.reserved p = true ↔ m.reserved p = true ∨ InPages vaddr size p
  committed : has type commit → ∀ p, InPages vaddr size p →
    m.page p = none ∧ (∃ frame, m'.page p = some ⟨frame, flags⟩) ∧ m'.Own p
  others : ∀ p, ¬ (has type commit ∧ InPages vaddr size p) →
    m'.page p = m.page p
  bytes : ∀ p r, m.page p = some r → m'.byte r.frame = m.byte r.frame
  writeProtect : m'.writeProtect = m.writeProtect

/-- `AllocatePages` reserves and commits exactly what it is asked for, or fails without effect. -/
def MemoryManager.AllocatesExactly (vmm : MemoryManager) : Prop :=
  ∀ {size type flags vaddr m m'}, vmm.allocatePages size type flags vaddr m = some m' →
    Allocated size type flags vaddr m m'

section Asked

variable (loc img : UInt64) (phdr : ElfProgramHeader64)

/-- Where a byte of the segment belongs. -/
def target (k : ℕ) : UInt64 := loc + phdr.vAddr + UInt64.ofNat k

/-- Where a byte of the segment is in the image. -/
def source (k : ℕ) : UInt64 := img + phdr.offset + UInt64.ofNat k

/-- The segment begins in userland and ends there. -/
def InUserland : Prop :=
  userlandStart ≤ (loc + phdr.vAddr).toNat ∧
    (loc + phdr.vAddr).toNat + phdr.vSize.toNat ≤ userlandEnd

/-- The page is one of the segment. -/
def InSegment (p : UInt64) : Prop :=
  (loc + phdr.vAddr).toNat / 4096 ≤ p.toNat ∧
    p.toNat * 4096 < (loc + phdr.vAddr).toNat + phdr.vSize.toNat

/-- The bytes of the image are mapped. -/
def ImageMapped (m : ProcessMemory) : Prop :=
  ∀ k < phdr.pSize.toNat, ∃ r, m.page (pageOf (source img phdr k)) = some r ∧ r.frame ≠ 0

/-- The segment is reserved, mapped and filled, and nothing else is written to. -/
structure SegmentMapped (m m' : ProcessMemory) : Prop where
  pages : ∀ p, InSegment loc phdr p → m'.reserved p = true ∧
    ∃ frame, m'.page p = some ⟨frame, MemoryManager.pageFlags phdr.flags⟩
  image : ∀ k < phdr.pSize.toNat, k < phdr.vSize.toNat →
    m'.load (target loc phdr k) = m.load (source img phdr k)
  zero : ∀ k < phdr.vSize.toNat, phdr.pSize.toNat ≤ k → m'.load (target loc phdr k) = some 0
  outside : ∀ a, ¬ InSegment loc phdr (pageOf a) → m'.load a = m.load a

/-- What is asked of mapping a segment, whatever the memory manager and the memory are like. -/
def MapsAllOrNothing : Prop :=
  ∀ (vmm : MemoryManager) (m m' : ProcessMemory) (data : Option Bool), vmm.AllocatesExactly →
    ImageMapped img phdr m →
    (vmm.mapSegment64 loc img phdr data m = some (true, m') → SegmentMapped loc img phdr m m') ∧
    (vmm.mapSegment64 loc img phdr data m = some (false, m') → m'.page = m.page)

/-! ## What decides it -/

/-- So many bytes, in whole pages. -/
def wholePages (n : ℕ) : ℕ := (n + 4095) / 4096 * 4096

/-- Some byte of the image lies in the pages that would be allocated. -/
def Overlaps : Prop :=
  ∃ k < phdr.pSize.toNat,
    InPages (loc + roundDown phdr.vAddr) (roundUp phdr.vSize) (pageOf (source img phdr k))

/-- The segment takes up no more pages than its size, and its bytes in the file end in them. -/
structure Fitting : Prop where
  pages : wholePages phdr.vSize.toNat = wholePages (phdr.vAddr.toNat % 4096 + phdr.vSize.toNat)
  bytes : phdr.vAddr.toNat % 4096 + phdr.pSize.toNat ≤ wholePages phdr.vSize.toNat

/-- The segment is empty, or it is copied. -/
def Mappable : Prop :=
  (phdr.vAddr.toNat % 4096 = 0 ∧ phdr.vSize = 0) ∨
    (MemoryManager.IsCopied phdr ∧ (Overlaps loc img phdr ∨ Fitting phdr))

end Asked

/-! ## Addresses -/

section Addresses

variable {loc img v size : UInt64} {phdr : ElfProgramHeader64}

theorem toNat_mod_page (a : UInt64) : (a % 4096).toNat = a.toNat % 4096 := UInt64.toNat_mod _ _

theorem toNat_pageOf (a : UInt64) : (pageOf a).toNat = a.toNat / 4096 := UInt64.toNat_div _ _

theorem aligned_toNat {a : UInt64} (h : a % 4096 = 0) : a.toNat % 4096 = 0 := by
  rw [← toNat_mod_page, h]
  rfl

theorem toNat_add_mod_page (hloc : loc % 4096 = 0) (v : UInt64) :
    (loc + v).toNat % 4096 = v.toNat % 4096 := by
  have haligned := aligned_toNat hloc
  rw [UInt64.toNat_add]
  omega

theorem toNat_roundDown (v : UInt64) : (roundDown v).toNat = v.toNat / 4096 * 4096 := by
  have hle : v % 4096 ≤ v := by
    rw [UInt64.le_iff_toNat_le, toNat_mod_page]
    exact Nat.mod_le _ _
  unfold roundDown
  rw [UInt64.toNat_sub_of_le _ _ hle, toNat_mod_page]
  omega

theorem toNat_segVaddr (hloc : loc % 4096 = 0) (v : UInt64) :
    (loc + roundDown v).toNat = (loc + v).toNat / 4096 * 4096 := by
  have haligned := aligned_toNat hloc
  rw [UInt64.toNat_add, UInt64.toNat_add, toNat_roundDown]
  omega

theorem toNat_roundUp (v : UInt64) :
    (roundUp v).toNat = (v.toNat + 4095) % 2 ^ 64 / 4096 * 4096 := by
  have hsum : v + 4096 - 1 = v + 4095 := by grind
  unfold roundUp
  rw [hsum, UInt64.toNat_mul, UInt64.toNat_div, UInt64.toNat_add]
  have h1 : UInt64.toNat 4095 = 4095 := rfl
  have h2 : UInt64.toNat 4096 = 4096 := rfl
  rw [h1, h2]
  omega

theorem toNat_segVaddrEnd (hloc : loc % 4096 = 0)
    (h : (loc + v).toNat + size.toNat ≤ userlandEnd) :
    (loc + roundUp (v + size)).toNat = wholePages ((loc + v).toNat + size.toNat) := by
  have haligned := aligned_toNat hloc
  unfold userlandEnd at h
  unfold wholePages
  rw [UInt64.toNat_add] at h ⊢
  rw [toNat_roundUp, UInt64.toNat_add, UInt64.toNat_add]
  omega

theorem toNat_roundUp_size (h : size.toNat ≤ userlandEnd) :
    (roundUp size).toNat = wholePages size.toNat := by
  unfold userlandEnd at h
  unfold wholePages
  rw [toNat_roundUp]
  omega

end Addresses

/-! ## Pages of a segment -/

section Segment

variable {loc img : UInt64} {phdr : ElfProgramHeader64}

/-- The pages that are allocated for the segment. -/
theorem inPages_iff (hloc : loc % 4096 = 0) (hrange : InUserland loc phdr) (p : UInt64) :
    InPages (loc + roundDown phdr.vAddr) (roundUp phdr.vSize) p ↔
      (loc + phdr.vAddr).toNat / 4096 ≤ p.toNat ∧
        p.toNat * 4096 <
          (loc + phdr.vAddr).toNat / 4096 * 4096 + wholePages phdr.vSize.toNat := by
  have hsize : phdr.vSize.toNat ≤ userlandEnd := Nat.le_trans (Nat.le_add_left _ _) hrange.2
  unfold InPages
  rw [toNat_segVaddr hloc, toNat_roundUp_size hsize, Nat.mul_div_cancel _ (by decide : 0 < 4096)]

/-- They are pages of the segment, and all of them if it takes up no more. -/
theorem inSegment_of_inPages (hloc : loc % 4096 = 0) (hrange : InUserland loc phdr) {p : UInt64}
    (h : InPages (loc + roundDown phdr.vAddr) (roundUp phdr.vSize) p) : InSegment loc phdr p := by
  rw [inPages_iff hloc hrange] at h
  unfold InSegment
  unfold wholePages at h
  omega

theorem inPages_of_inSegment (hloc : loc % 4096 = 0) (hrange : InUserland loc phdr)
    (hpages : wholePages phdr.vSize.toNat =
      wholePages (phdr.vAddr.toNat % 4096 + phdr.vSize.toNat)) {p : UInt64}
    (h : InSegment loc phdr p) : InPages (loc + roundDown phdr.vAddr) (roundUp phdr.vSize) p := by
  have hmod := toNat_add_mod_page hloc phdr.vAddr
  rw [inPages_iff hloc hrange]
  unfold InSegment at h
  unfold wholePages at hpages ⊢
  omega

theorem toNat_target (hrange : InUserland loc phdr) {k : ℕ}
    (hk : k < wholePages phdr.vSize.toNat + 4096) :
    (target loc phdr k).toNat = (loc + phdr.vAddr).toNat + k := by
  have hend := hrange.2
  unfold userlandEnd at hend
  unfold wholePages at hk
  unfold target
  have hk64 : k % 2 ^ 64 = k := Nat.mod_eq_of_lt (by omega)
  rw [UInt64.toNat_add, UInt64.toNat_ofNat', hk64]
  exact Nat.mod_eq_of_lt (by omega)

/-- The bytes up to the end of the allocated pages lie in these. -/
theorem target_inPages (hloc : loc % 4096 = 0) (hrange : InUserland loc phdr) {k : ℕ}
    (hk : phdr.vAddr.toNat % 4096 + k < wholePages phdr.vSize.toNat) :
    InPages (loc + roundDown phdr.vAddr) (roundUp phdr.vSize) (pageOf (target loc phdr k)) := by
  have hmod := toNat_add_mod_page hloc phdr.vAddr
  rw [inPages_iff hloc hrange, toNat_pageOf, toNat_target hrange (by omega)]
  omega

end Segment

/-! ## Allocations -/

section Allocations

variable {m m' : ProcessMemory} {size vaddr a p : UInt64} {type : MemoryAllocationOptions}
  {flags : MemoryFlags}

theorem Allocated.load_eq (h : Allocated size type flags vaddr m m')
    (ha : ¬ InPages vaddr size (pageOf a)) : m'.load a = m.load a := by
  unfold ProcessMemory.load
  rw [h.others _ fun hboth => ha hboth.2]
  cases hp : m.page (pageOf a) with
  | none => rfl
  | some r =>
      rw [Option.map_some, Option.map_some, h.bytes _ _ hp]

/-- A byte of the image is not in pages that were free to be committed. -/
theorem Allocated.not_inPages (h : Allocated size type flags vaddr m m') (htype : has type commit)
    (ha : m.page p ≠ none) : ¬ InPages vaddr size p :=
  fun hin => ha (h.committed htype p hin).1

end Allocations

/-! ## The copy -/

section Copy

variable {vmm : MemoryManager} {loc img : UInt64} {phdr : ElfProgramHeader64}
  {m m₁ m₂ m' : ProcessMemory} {ok : Bool}

/-- The copy fails before it does anything, or it goes all the way. -/
theorem copySegment_cases {segVaddr : UInt64} (hexact : vmm.AllocatesExactly)
    (h : vmm.copySegment loc img segVaddr phdr m = some (ok, m')) :
    (ok = false ∧ m' = m) ∨
    (ok = true ∧ ∃ m₁ m₂,
      Allocated (roundUp phdr.vSize) (commit ||| virtualUser ||| permanent)
        (MemoryManager.pageFlags phdr.flags) segVaddr m m₁ ∧
      m₁.copy phdr.pSize.toNat (loc + phdr.vAddr) (img + phdr.offset) = some m₂ ∧
      ((phdr.vSize ≤ phdr.pSize ∧ m' = m₂) ∨ (phdr.pSize < phdr.vSize ∧
        m₂.fill 0 (phdr.vSize - phdr.pSize).toNat (loc + phdr.vAddr + phdr.pSize) = some m'))) := by
  unfold MemoryManager.copySegment at h
  split at h
  next =>
    cases h
    exact .inl ⟨rfl, rfl⟩
  next m₁ hm₁ =>
    split at h
    next => exact nomatch h
    next m₂ hm₂ =>
      split at h
      next hlarge =>
        obtain ⟨m₃, hm₃, heq⟩ := Option.map_eq_some_iff.mp h
        cases heq
        exact .inr ⟨rfl, m₁, m₂, hexact hm₁, hm₂, .inr ⟨hlarge, hm₃⟩⟩
      next hlarge =>
        cases h
        exact .inr ⟨rfl, m₁, _, hexact hm₁, hm₂, .inl ⟨UInt64.not_lt.mp hlarge, rfl⟩⟩

/-- The bytes that are cleared are those behind the ones that are copied. -/
theorem target_add (loc : UInt64) (phdr : ElfProgramHeader64) (k : ℕ) :
    loc + phdr.vAddr + phdr.pSize + UInt64.ofNat k = target loc phdr (phdr.pSize.toNat + k) := by
  unfold target
  rw [UInt64.ofNat_add, UInt64.ofNat_toNat, ← UInt64.add_assoc]

/-- Committed pages are shown nowhere else. -/
theorem owns_target (hloc : loc % 4096 = 0) (hrange : InUserland loc phdr)
    (halloc : Allocated (roundUp phdr.vSize) (commit ||| virtualUser ||| permanent)
      (MemoryManager.pageFlags phdr.flags) (loc + roundDown phdr.vAddr) m m₁) {k : ℕ}
    (hk : phdr.vAddr.toNat % 4096 + k < wholePages phdr.vSize.toNat) :
    m₁.Own (pageOf (target loc phdr k)) :=
  (halloc.committed (by decide) _ (target_inPages hloc hrange hk)).2.2

theorem copySegment_mapped (hloc : loc % 4096 = 0) (hrange : InUserland loc phdr)
    (hfit : Fitting phdr) (himage : ImageMapped img phdr m)
    (halloc : Allocated (roundUp phdr.vSize) (commit ||| virtualUser ||| permanent)
      (MemoryManager.pageFlags phdr.flags) (loc + roundDown phdr.vAddr) m m₁)
    (hcopy : m₁.copy phdr.pSize.toNat (loc + phdr.vAddr) (img + phdr.offset) = some m₂)
    (hfill : (phdr.vSize ≤ phdr.pSize ∧ m' = m₂) ∨ (phdr.pSize < phdr.vSize ∧
      m₂.fill 0 (phdr.vSize - phdr.pSize).toNat (loc + phdr.vAddr + phdr.pSize) = some m')) :
    SegmentMapped loc img phdr m m' := by
  have hbytes := hfit.bytes
  have hpages : phdr.vAddr.toNat % 4096 + phdr.vSize.toNat ≤ wholePages phdr.vSize.toNat := by
    have hpages := hfit.pages
    unfold wholePages at hpages ⊢
    omega
  have hfree {p : UInt64} (hp : m.page p ≠ none) := halloc.not_inPages (by decide) hp
  have hsource {k : ℕ} (hk : k < phdr.pSize.toNat) :
      ¬ InPages (loc + roundDown phdr.vAddr) (roundUp phdr.vSize) (pageOf (source img phdr k)) := by
    obtain ⟨r, hr, _⟩ := himage k hk
    exact hfree fun hnone => nomatch hr.symm.trans hnone
  -- The copy.
  have howns : m₁.Owns (loc + phdr.vAddr) phdr.pSize.toNat := fun k hk =>
    owns_target hloc hrange halloc (by omega)
  have havoids {a : UInt64} {n : ℕ} (hn : phdr.vAddr.toNat % 4096 + n ≤ wholePages phdr.vSize.toNat)
      (ha : ¬ InPages (loc + roundDown phdr.vAddr) (roundUp phdr.vSize) (pageOf a)) :
      ProcessMemory.Avoids a (loc + phdr.vAddr) n := by
    intro k hk hsame
    refine ha ?_
    rw [hsame]
    exact target_inPages hloc hrange (by omega)
  have hcopied {k : ℕ} (hk : k < phdr.pSize.toNat) :
      m₂.load (target loc phdr k) = m.load (source img phdr k) := by
    have hload := ProcessMemory.load_copy hcopy (Nat.le_of_lt phdr.pSize.toNat_lt) howns hk
      (havoids (by omega) (hsource hk))
    exact hload.trans (halloc.load_eq (hsource hk))
  have hsame := ProcessMemory.copy_same hcopy
  have houtside {a : UInt64} (ha : ¬ InSegment loc phdr (pageOf a)) : m₂.load a = m.load a := by
    have hin := mt (inSegment_of_inPages hloc hrange) ha
    exact (ProcessMemory.load_copy_outside hcopy howns (havoids hbytes hin)).trans
      (halloc.load_eq hin)
  have hsegment {p : UInt64} (hp : InSegment loc phdr p) : m₂.reserved p = true ∧
      ∃ frame, m₂.page p = some ⟨frame, MemoryManager.pageFlags phdr.flags⟩ := by
    have hin := inPages_of_inSegment hloc hrange hfit.pages hp
    rw [hsame.reserved, hsame.page]
    exact ⟨(halloc.reserved p).mpr (.inr hin), (halloc.committed (by decide) p hin).2.1⟩
  rcases hfill with ⟨hle, rfl⟩ | ⟨hlt, hfill⟩
  · constructor
    case pages => exact fun p => hsegment
    case image => exact fun k hk _ => hcopied hk
    case zero =>
      intro k hk hle'
      have hle := UInt64.le_iff_toNat_le.mp hle
      omega
    case outside => exact fun a => houtside
  · -- The bytes behind.
    have hle := UInt64.le_of_lt hlt
    have hlt := UInt64.lt_iff_toNat_lt.mp hlt
    have hrest : (phdr.vSize - phdr.pSize).toNat = phdr.vSize.toNat - phdr.pSize.toNat :=
      UInt64.toNat_sub_of_le _ _ hle
    have hsame' := ProcessMemory.fill_same hfill
    have howns' : m₂.Owns (loc + phdr.vAddr + phdr.pSize) (phdr.vSize - phdr.pSize).toNat := by
      intro k hk
      rw [target_add]
      exact hsame.own (owns_target hloc hrange halloc (by omega))
    constructor
    case pages =>
      intro p hp
      rw [hsame'.reserved, hsame'.page]
      exact hsegment hp
    case image =>
      intro k hk _
      rw [← hcopied hk]
      refine ProcessMemory.load_fill_outside hfill howns' fun j hj hsame => ?_
      rw [target_add] at hsame
      have heq := congrArg UInt64.toNat hsame
      rw [toNat_target hrange (by omega), toNat_target hrange (by omega)] at heq
      omega
    case zero =>
      intro k hk hle'
      have hzero := ProcessMemory.load_fill hfill (Nat.le_of_lt (UInt64.toNat_lt _)) howns'
        (k := k - phdr.pSize.toNat) (by omega)
      rwa [target_add, Nat.add_sub_of_le hle'] at hzero
    case outside =>
      intro a ha
      rw [← houtside ha]
      refine ProcessMemory.load_fill_outside hfill howns' fun j hj hsame => ?_
      rw [target_add] at hsame
      refine ha (inSegment_of_inPages hloc hrange ?_)
      rw [hsame]
      exact target_inPages hloc hrange (by omega)

end Copy

/-! ## The call -/

section Call

variable {vmm : MemoryManager} {loc img : UInt64} {phdr : ElfProgramHeader64} {m : ProcessMemory}
  {data : Option Bool}

/-- The pages of a segment that is not empty. -/
theorem segVaddr_lt (hloc : loc % 4096 = 0) (hrange : InUserland loc phdr)
    (h : ¬ (phdr.vAddr.toNat % 4096 = 0 ∧ phdr.vSize = 0)) :
    loc + roundDown phdr.vAddr < loc + roundUp (phdr.vAddr + phdr.vSize) := by
  have hmod := toNat_add_mod_page hloc phdr.vAddr
  rw [UInt64.lt_iff_toNat_lt, toNat_segVaddr hloc, toNat_segVaddrEnd hloc hrange.2]
  rw [← UInt64.toNat_inj] at h
  have hzero : UInt64.toNat 0 = 0 := rfl
  unfold wholePages
  omega

theorem mapSegment64_empty (hloc : loc % 4096 = 0) (hrange : InUserland loc phdr)
    (h : phdr.vAddr.toNat % 4096 = 0 ∧ phdr.vSize = 0) :
    vmm.mapSegment64 loc img phdr data m = some (false, m) := by
  have hmod := toNat_add_mod_page hloc phdr.vAddr
  have hempty : loc + roundUp (phdr.vAddr + phdr.vSize) ≤ loc + roundDown phdr.vAddr := by
    rw [UInt64.le_iff_toNat_le, toNat_segVaddr hloc, toNat_segVaddrEnd hloc hrange.2, h.2]
    have hzero : UInt64.toNat 0 = 0 := rfl
    unfold wholePages
    omega
  unfold MemoryManager.mapSegment64
  exact if_pos (.inl hempty)

theorem mapSegment64_eq (hloc : loc % 4096 = 0) (hrange : InUserland loc phdr)
    (h : ¬ (phdr.vAddr.toNat % 4096 = 0 ∧ phdr.vSize = 0)) :
    vmm.mapSegment64 loc img phdr data m =
      if MemoryManager.IsCopied phdr then
        vmm.copySegment loc img (loc + roundDown phdr.vAddr) phdr m
      else some (vmm.shareSegment img (loc + roundDown phdr.vAddr)
        (loc + roundUp (phdr.vAddr + phdr.vSize)) phdr m) := by
  have hlt := segVaddr_lt hloc hrange h
  obtain ⟨hstart, hend⟩ := hrange
  have hfirst : ¬ (loc + roundUp (phdr.vAddr + phdr.vSize) ≤ loc + roundDown phdr.vAddr ∨
      (loc + roundDown phdr.vAddr).toNat < userlandStart ∨
      (loc + roundUp (phdr.vAddr + phdr.vSize)).toNat > kernelEnd) := by
    rw [UInt64.le_iff_toNat_le]
    rw [UInt64.lt_iff_toNat_lt] at hlt
    rw [toNat_segVaddr hloc, toNat_segVaddrEnd hloc hend] at hlt ⊢
    unfold userlandStart at hstart ⊢
    unfold userlandEnd at hend
    unfold wholePages at hlt ⊢
    unfold kernelEnd
    omega
  have hsecond : ¬ ((loc + roundUp (phdr.vAddr + phdr.vSize)).toNat > userlandEnd ∧
      ((loc + roundDown phdr.vAddr).toNat < kernelStart ∨ data ≠ some true)) := by
    rw [toNat_segVaddrEnd hloc hend]
    rintro ⟨hgt, _⟩
    unfold userlandEnd at hend hgt
    unfold wholePages at hgt
    omega
  unfold MemoryManager.mapSegment64
  dsimp only
  rw [if_neg hfirst, if_neg hsecond]

/-- Segments that are mappable are mapped, or nothing is. -/
theorem mapsAllOrNothing_of (hloc : loc % 4096 = 0) (hrange : InUserland loc phdr)
    (h : Mappable loc img phdr) : MapsAllOrNothing loc img phdr := by
  intro vmm m m' data hexact himage
  by_cases hempty : phdr.vAddr.toNat % 4096 = 0 ∧ phdr.vSize = 0
  · rw [mapSegment64_empty hloc hrange hempty]
    constructor
    · exact nofun
    · intro heq
      cases heq
      rfl
  · obtain ⟨hcopied, hwhere⟩ := h.resolve_left hempty
    rw [mapSegment64_eq hloc hrange hempty, if_pos hcopied]
    constructor
    · intro heq
      rcases copySegment_cases hexact heq with ⟨hok, _⟩ | ⟨_, m₁, m₂, halloc, hcopy, hfill⟩
      · exact nomatch hok
      · rcases hwhere with ⟨k, hk, hin⟩ | hfit
        -- The pages of the image would have had to be free.
        · obtain ⟨r, hr, _⟩ := himage k hk
          have hfree := (halloc.committed (by decide) _ hin).1
          exact nomatch hfree.symm.trans hr
        · exact copySegment_mapped hloc hrange hfit himage halloc hcopy hfill
    · intro heq
      rcases copySegment_cases hexact heq with ⟨_, rfl⟩ | ⟨hok, _⟩
      · rfl
      · exact nomatch hok

end Call

/-! ## Segments that are not mapped as asked

The memory manager below allocates whatever can be allocated. -/

section Generous

variable {loc img d : UInt64} {phdr : ElfProgramHeader64} {m m₁ m₂ m' : ProcessMemory}

open Classical in
noncomputable def generous : MemoryManager where
  allocatePages := fun size type flags vaddr m =>
    if h : ∃ m', Allocated size type flags vaddr m m' then some h.choose else none
  mapOutcome := fun _ _ => .mapped
  freeKernelPages := fun _ _ m => m

theorem generous_exact : generous.AllocatesExactly := by
  intro size type flags vaddr m m' h
  unfold generous at h
  dsimp only at h
  split at h
  next hex =>
    obtain rfl := Option.some.inj h
    exact hex.choose_spec
  next => exact nomatch h

theorem generous_allocates {size vaddr : UInt64} {type : MemoryAllocationOptions}
    {flags : MemoryFlags} (h : Allocated size type flags vaddr m m') :
    ∃ m₁, generous.allocatePages size type flags vaddr m = some m₁ ∧
      Allocated size type flags vaddr m m₁ := by
  have hex : ∃ m', Allocated size type flags vaddr m m' := ⟨m', h⟩
  refine ⟨hex.choose, ?_, hex.choose_spec⟩
  unfold generous
  exact dif_pos hex

/-- Every page but those that are free is mapped, to a frame of its own, and one byte is not
zero. -/
def crowded (free : UInt64 → Bool) (d : UInt64) : ProcessMemory where
  page := fun p => if free p then none else some ⟨p + 1, MemoryFlags.global⟩
  reserved := fun p => !free p
  byte := fun f o => if f = pageOf d + 1 ∧ o = d % 4096 then 1 else 0
  writeProtect := false

theorem crowded_page {free : UInt64 → Bool} {p : UInt64} (hp : free p = false) (d : UInt64) :
    (crowded free d).page p = some ⟨p + 1, MemoryFlags.global⟩ :=
  if_neg (Bool.eq_false_iff.mp hp)

theorem load_crowded {free : UInt64 → Bool} {a : UInt64} (ha : free (pageOf a) = false) :
    (crowded free d).load a = some (if a = d then 1 else 0) := by
  unfold ProcessMemory.load
  rw [crowded_page ha, Option.map_some]
  refine congrArg some (if_congr ?_ rfl rfl)
  constructor
  · rintro ⟨hframe, hoffset⟩
    exact ProcessMemory.eq_of_page (UInt64.add_left_inj 1 |>.mp hframe) hoffset
  · rintro rfl
    exact ⟨rfl, rfl⟩

theorem pageOf_add_one_ne (a : UInt64) : pageOf a + 1 ≠ 0 := by
  intro h
  have hnat := congrArg UInt64.toNat h
  have hlt := a.toNat_lt
  have hone : UInt64.toNat 1 = 1 := rfl
  have hzero : UInt64.toNat 0 = 0 := rfl
  rw [UInt64.toNat_add, toNat_pageOf, hone, hzero] at hnat
  omega

/-! ### Shared pages -/

/-- Where the first page cannot be mapped, the page before is unmapped. -/
theorem shareSegment_crowded (img : UInt64) (hloc : loc % 4096 = 0) (hrange : InUserland loc phdr)
    (hnonempty : ¬ (phdr.vAddr.toNat % 4096 = 0 ∧ phdr.vSize = 0)) :
    ∃ m', generous.shareSegment img (loc + roundDown phdr.vAddr)
        (loc + roundUp (phdr.vAddr + phdr.vSize)) phdr (crowded (fun _ => false) 0) = (false, m') ∧
      m'.page (pageOf (loc + roundDown phdr.vAddr - 4096)) = none := by
  have hlt := segVaddr_lt hloc hrange hnonempty
  have hpage (p : UInt64) : (crowded (fun _ => false) 0).page p =
      some ⟨p + 1, MemoryFlags.global⟩ := rfl
  -- Nothing is in the way of a reservation.
  have hreserve : Allocated (roundUp phdr.vSize) (used ||| virtualUser ||| permanent)
      (MemoryManager.pageFlags phdr.flags) (loc + roundDown phdr.vAddr)
      (crowded (fun _ => false) 0) (crowded (fun _ => false) 0) := by
    constructor
    case reserved => exact fun p => ⟨fun _ => .inl rfl, fun _ => rfl⟩
    case committed => exact fun hcommit => absurd hcommit (by decide)
    case others => exact fun _ _ => rfl
    case bytes => exact fun _ _ _ => rfl
    case writeProtect => rfl
  obtain ⟨m₁, halloc, hsame⟩ := generous_allocates hreserve
  have hpage₁ (p : UInt64) : m₁.page p = some ⟨p + 1, MemoryFlags.global⟩ :=
    (hsame.others p fun h => absurd h.1 (by decide)).trans (hpage p)
  have hshared (rounds : ℕ) : generous.sharePages (MemoryManager.pageFlags phdr.flags)
      (loc + roundUp (phdr.vAddr + phdr.vSize)) (rounds + 1) (loc + roundDown phdr.vAddr)
      (img + roundDown phdr.offset) m₁ = (false, loc + roundDown phdr.vAddr, m₁) := by
    rw [MemoryManager.sharePages, if_pos hlt]
    unfold ProcessMemory.translate MemoryManager.mapPage
    rw [hpage₁, hpage₁]
    exact ite_self _
  have hstart : (loc + roundDown phdr.vAddr).toNat % 4096 = 0 ∧
      userlandStart ≤ (loc + roundDown phdr.vAddr).toNat ∧
      (loc + roundDown phdr.vAddr).toNat < kernelStart := by
    obtain ⟨hstart, hend⟩ := hrange
    rw [toNat_segVaddr hloc]
    unfold userlandStart at hstart ⊢
    unfold userlandEnd at hend
    unfold kernelStart
    omega
  have hrolled (rounds : ℕ) : MemoryManager.rollbackMapping (loc + roundDown phdr.vAddr)
      (rounds + 1) (loc + roundDown phdr.vAddr) m₁ =
        m₁.unmapPage (loc + roundDown phdr.vAddr - 4096) := by
    have hle : 4096 ≤ loc + roundDown phdr.vAddr := by
      have h4096 : UInt64.toNat 4096 = 4096 := rfl
      have hfar := hstart.2.1
      unfold userlandStart at hfar
      rw [UInt64.le_iff_toNat_le, h4096]
      omega
    rw [MemoryManager.rollbackMapping]
    refine if_neg (UInt64.not_lt.mpr ?_)
    rw [UInt64.le_iff_toNat_le, UInt64.toNat_sub_of_le _ _ hle]
    exact Nat.sub_le _ _
  have hrounds : 2 ^ 52 = (2 ^ 52 - 1) + 1 := by decide
  refine ⟨m₁.unmapPage (loc + roundDown phdr.vAddr - 4096), ?_, if_pos rfl⟩
  unfold MemoryManager.shareSegment MemoryManager.freePages
  rw [halloc]
  dsimp only
  rw [hrounds, hshared, if_neg Bool.false_ne_true, hrolled,
    if_neg (Nat.not_le.mpr hstart.2.2), ite_self]

/-! ### Copied pages -/

/-- What can be committed among crowded pages. -/
theorem commits_crowded (size vaddr : UInt64) (flags : MemoryFlags) (d : UInt64) :
    Allocated size (commit ||| virtualUser ||| permanent) flags vaddr
      (crowded (fun p => decide (InPages vaddr size p)) d)
      { crowded (fun p => decide (InPages vaddr size p)) d with
        page := fun p =>
          some ⟨p + 1, if InPages vaddr size p then flags else MemoryFlags.global⟩
        reserved := fun _ => true } := by
  constructor
  case reserved =>
    intro p
    refine ⟨fun _ => ?_, fun _ => rfl⟩
    by_cases hp : InPages vaddr size p
    · exact .inr hp
    · refine .inl ?_
      unfold crowded
      dsimp only
      rw [decide_eq_false hp]
      rfl
  case committed =>
    intro _ p hp
    refine ⟨if_pos (decide_eq_true hp), ⟨p + 1, ?_⟩, ?_⟩
    · exact congrArg (fun flags => some (Page.mk (p + 1) flags)) (if_pos hp)
    · intro q r s hr hs hframe
      obtain rfl := Option.some.inj hr
      obtain rfl := Option.some.inj hs
      exact UInt64.add_left_inj 1 |>.mp hframe
  case others =>
    intro p hp
    have hin : ¬ InPages vaddr size p := fun hin => hp ⟨by decide, hin⟩
    rw [crowded_page (decide_eq_false hin)]
    exact congrArg (fun flags => some (Page.mk (p + 1) flags)) (if_neg hin)
  case bytes => exact fun _ _ _ => rfl
  case writeProtect => rfl

theorem pageFlags_ne_global (flags : UInt32) :
    MemoryManager.pageFlags flags ≠ MemoryFlags.global := by
  unfold MemoryManager.pageFlags
  dsimp only
  split_ifs
  all_goals decide

section Copied

variable (loc img : UInt64) (phdr : ElfProgramHeader64) (d : UInt64)

/-- Every page but those that the segment would be given is mapped. -/
def besides : ProcessMemory :=
  crowded (fun p => decide (InPages (loc + roundDown phdr.vAddr) (roundUp phdr.vSize) p)) d

theorem besides_page {p : UInt64}
    (hp : ¬ InPages (loc + roundDown phdr.vAddr) (roundUp phdr.vSize) p) :
    (besides loc phdr d).page p = some ⟨p + 1, MemoryFlags.global⟩ :=
  crowded_page (decide_eq_false hp) d

theorem imageMapped_besides (hoverlaps : ¬ Overlaps loc img phdr) :
    ImageMapped img phdr (besides loc phdr d) := by
  intro k hk
  have hp : ¬ InPages (loc + roundDown phdr.vAddr) (roundUp phdr.vSize)
      (pageOf (source img phdr k)) := fun hin => hoverlaps ⟨k, hk, hin⟩
  exact ⟨_, besides_page loc phdr d hp, pageOf_add_one_ne _⟩

/-- No page shows the frame of another one. -/
theorem own_allocated {m₁ : ProcessMemory}
    (halloc : Allocated (roundUp phdr.vSize) (commit ||| virtualUser ||| permanent)
      (MemoryManager.pageFlags phdr.flags) (loc + roundDown phdr.vAddr) (besides loc phdr d) m₁)
    (p : UInt64) : m₁.Own p := by
  have hpage {q : UInt64}
      (hq : ¬ InPages (loc + roundDown phdr.vAddr) (roundUp phdr.vSize) q) :
      m₁.page q = some ⟨q + 1, MemoryFlags.global⟩ :=
    (halloc.others q fun h => hq h.2).trans (besides_page loc phdr d hq)
  by_cases hp : InPages (loc + roundDown phdr.vAddr) (roundUp phdr.vSize) p
  · exact (halloc.committed (by decide) p hp).2.2
  · intro q r s hr hs hframe
    by_cases hq : InPages (loc + roundDown phdr.vAddr) (roundUp phdr.vSize) q
    · exact ((halloc.committed (by decide) q hq).2.2 p s r hs hr hframe.symm).symm
    · rw [hpage hp] at hr
      rw [hpage hq] at hs
      obtain rfl := Option.some.inj hr
      obtain rfl := Option.some.inj hs
      exact UInt64.add_left_inj 1 |>.mp hframe

/-- There the copy goes all the way. -/
theorem copySegment_besides : ∃ m₁ m₂ m',
    generous.copySegment loc img (loc + roundDown phdr.vAddr) phdr (besides loc phdr d) =
      some (true, m') ∧
    Allocated (roundUp phdr.vSize) (commit ||| virtualUser ||| permanent)
      (MemoryManager.pageFlags phdr.flags) (loc + roundDown phdr.vAddr) (besides loc phdr d) m₁ ∧
    m₁.copy phdr.pSize.toNat (loc + phdr.vAddr) (img + phdr.offset) = some m₂ ∧
    ProcessMemory.SamePages m₁ m' ∧ (phdr.vSize ≤ phdr.pSize → m' = m₂) := by
  obtain ⟨m₁, hsome, halloc⟩ := generous_allocates (commits_crowded (roundUp phdr.vSize)
    (loc + roundDown phdr.vAddr) (MemoryManager.pageFlags phdr.flags) d)
  have hpage (p : UInt64) : m₁.page p ≠ none := by
    by_cases hp : InPages (loc + roundDown phdr.vAddr) (roundUp phdr.vSize) p
    · obtain ⟨frame, hframe⟩ := (halloc.committed (by decide) p hp).2.1
      exact fun hnone => nomatch hframe.symm.trans hnone
    · have hsame := (halloc.others p fun h => hp h.2).trans (besides_page loc phdr d hp)
      exact fun hnone => nomatch hsame.symm.trans hnone
  have hprotect : m₁.writeProtect = false := halloc.writeProtect
  obtain ⟨m₂, hcopy⟩ := ProcessMemory.copy_mapped hpage hprotect phdr.pSize.toNat
    (loc + phdr.vAddr) (img + phdr.offset)
  have hsame := ProcessMemory.copy_same hcopy
  obtain ⟨m₃, hfill⟩ := ProcessMemory.fill_mapped (hsame.page ▸ hpage)
    (hsame.writeProtect.trans hprotect) 0 (phdr.vSize - phdr.pSize).toNat
    (loc + phdr.vAddr + phdr.pSize)
  by_cases hlarge : phdr.vSize > phdr.pSize
  · refine ⟨m₁, m₂, m₃, ?_, halloc, hcopy, hsame.trans (ProcessMemory.fill_same hfill), ?_⟩
    · unfold MemoryManager.copySegment besides
      rw [hsome]
      dsimp only
      rw [hcopy]
      dsimp only
      rw [if_pos hlarge, hfill]
      rfl
    · exact fun hle => absurd hlarge (UInt64.not_lt.mpr hle)
  · refine ⟨m₁, m₂, m₂, ?_, halloc, hcopy, hsame, fun _ => rfl⟩
    unfold MemoryManager.copySegment besides
    rw [hsome]
    dsimp only
    rw [hcopy]
    exact if_neg hlarge

variable {loc img phdr}

/-- A segment that takes up one more page than its size leaves that page as it was. -/
theorem not_segmentMapped_of_pages (img : UInt64) (hloc : loc % 4096 = 0)
    (hrange : InUserland loc phdr)
    (hpages : wholePages phdr.vSize.toNat ≠
      wholePages (phdr.vAddr.toNat % 4096 + phdr.vSize.toNat))
    (halloc : Allocated (roundUp phdr.vSize) (commit ||| virtualUser ||| permanent)
      (MemoryManager.pageFlags phdr.flags) (loc + roundDown phdr.vAddr) (besides loc phdr d) m₁)
    (hsame : ProcessMemory.SamePages m₁ m') :
    ¬ SegmentMapped loc img phdr (besides loc phdr d) m' := by
  intro hmapped
  have hmod := toNat_add_mod_page hloc phdr.vAddr
  have hend := hrange.2
  unfold userlandEnd at hend
  obtain ⟨p, hin, hout⟩ : ∃ p, InSegment loc phdr p ∧
      ¬ InPages (loc + roundDown phdr.vAddr) (roundUp phdr.vSize) p := by
    refine ⟨UInt64.ofNat
      ((loc + phdr.vAddr).toNat / 4096 + (phdr.vSize.toNat + 4095) / 4096), ?_, ?_⟩
    · unfold InSegment
      unfold wholePages at hpages
      rw [UInt64.toNat_ofNat', Nat.mod_eq_of_lt (by omega)]
      omega
    · rw [inPages_iff hloc hrange, UInt64.toNat_ofNat', Nat.mod_eq_of_lt (by omega)]
      unfold wholePages
      omega
  obtain ⟨frame, hframe⟩ := (hmapped.pages p hin).2
  rw [hsame.page, halloc.others p fun h => hout h.2, besides_page loc phdr d hout] at hframe
  exact pageFlags_ne_global phdr.flags (congrArg Page.flags (Option.some.inj hframe)).symm

/-- Bytes in the file that go further are written behind the pages of the segment. -/
theorem not_segmentMapped_of_bytes (hloc : loc % 4096 = 0) (hrange : InUserland loc phdr)
    (hnonempty : ¬ (phdr.vAddr.toNat % 4096 = 0 ∧ phdr.vSize = 0))
    (hoverlaps : ¬ Overlaps loc img phdr)
    (hpages : wholePages phdr.vSize.toNat =
      wholePages (phdr.vAddr.toNat % 4096 + phdr.vSize.toNat))
    (hbytes : wholePages phdr.vSize.toNat < phdr.vAddr.toNat % 4096 + phdr.pSize.toNat) :
    ∃ d, ∀ m₁ m',
      Allocated (roundUp phdr.vSize) (commit ||| virtualUser ||| permanent)
        (MemoryManager.pageFlags phdr.flags) (loc + roundDown phdr.vAddr) (besides loc phdr d) m₁ →
      m₁.copy phdr.pSize.toNat (loc + phdr.vAddr) (img + phdr.offset) = some m' →
      ¬ SegmentMapped loc img phdr (besides loc phdr d) m' := by
  have hmod := toNat_add_mod_page hloc phdr.vAddr
  have hfits : phdr.vAddr.toNat % 4096 + phdr.vSize.toNat ≤ wholePages phdr.vSize.toNat := by
    unfold wholePages at hpages ⊢
    omega
  have hstarts : phdr.vAddr.toNat % 4096 < wholePages phdr.vSize.toNat := by
    have hzero : UInt64.toNat 0 = 0 := rfl
    rw [← UInt64.toNat_inj, hzero] at hnonempty
    unfold wholePages at hpages ⊢
    omega
  -- The first byte behind the pages.
  obtain ⟨k, hk⟩ : ∃ k, phdr.vAddr.toNat % 4096 + k = wholePages phdr.vSize.toNat :=
    ⟨_, Nat.add_sub_of_le (Nat.le_of_lt hstarts)⟩
  have hkp : k < phdr.pSize.toNat := by omega
  have hsource {j : ℕ} (hj : j < phdr.pSize.toNat) :
      ¬ InPages (loc + roundDown phdr.vAddr) (roundUp phdr.vSize) (pageOf (source img phdr j)) :=
    fun hin => hoverlaps ⟨j, hj, hin⟩
  have hwhole : wholePages phdr.vSize.toNat % 4096 = 0 := Nat.mul_mod_left _ _
  have hbehind : ¬ InSegment loc phdr (pageOf (target loc phdr k)) := by
    unfold InSegment
    rw [toNat_pageOf, toNat_target hrange (by omega)]
    omega
  have hnotin := mt (inSegment_of_inPages hloc hrange) hbehind
  have hother : source img phdr k ≠ target loc phdr k := by
    intro hsame
    have hstart : img + phdr.offset = loc + phdr.vAddr := UInt64.add_left_inj _ |>.mp hsame
    refine hsource (Nat.zero_lt_of_lt hkp) ?_
    unfold source
    rw [hstart]
    exact target_inPages hloc hrange (by omega)
  refine ⟨target loc phdr k, fun m₁ m' halloc hcopy hmapped => ?_⟩
  have howns : m₁.Owns (loc + phdr.vAddr) phdr.pSize.toNat := by
    intro j hj
    exact own_allocated _ _ _ halloc _
  have havoids :
      ProcessMemory.Avoids (img + phdr.offset + UInt64.ofNat k) (loc + phdr.vAddr) k := by
    intro j hj hsame
    refine hsource hkp ?_
    unfold source
    rw [hsame]
    exact target_inPages hloc hrange (by omega)
  have hload := ProcessMemory.load_copy hcopy (Nat.le_of_lt phdr.pSize.toNat_lt) howns hkp havoids
  have hnew : m'.load (target loc phdr k) = some 0 := by
    refine hload.trans ((halloc.load_eq (hsource hkp)).trans ?_)
    exact (load_crowded (decide_eq_false (hsource hkp))).trans (congrArg some (if_neg hother))
  have hold : (besides loc phdr (target loc phdr k)).load (target loc phdr k) = some 1 :=
    (load_crowded (decide_eq_false hnotin)).trans (congrArg some (if_pos rfl))
  exact absurd ((hnew.symm.trans (hmapped.outside _ hbehind)).trans hold) (by decide)

end Copied

/-- No other segment is mapped as asked. -/
theorem mappable_of_mapsAllOrNothing (hloc : loc % 4096 = 0) (hrange : InUserland loc phdr)
    (h : MapsAllOrNothing loc img phdr) : Mappable loc img phdr := by
  by_contra hnot
  obtain ⟨hempty, hnot⟩ := not_or.mp hnot
  by_cases hcopied : MemoryManager.IsCopied phdr
  · obtain ⟨hoverlaps, hfit⟩ := not_or.mp fun hwhere => hnot ⟨hcopied, hwhere⟩
    by_cases hpages : wholePages phdr.vSize.toNat =
        wholePages (phdr.vAddr.toNat % 4096 + phdr.vSize.toNat)
    · have hbytes : wholePages phdr.vSize.toNat <
          phdr.vAddr.toNat % 4096 + phdr.pSize.toNat :=
        Nat.not_le.mp fun hle => hfit ⟨hpages, hle⟩
      obtain ⟨d, hunmapped⟩ :=
        not_segmentMapped_of_bytes hloc hrange hempty hoverlaps hpages hbytes
      obtain ⟨m₁, m₂, m', hrun, halloc, hcopy, _, hsame⟩ := copySegment_besides loc img phdr d
      have hle : phdr.vSize ≤ phdr.pSize := by
        rw [UInt64.le_iff_toNat_le]
        unfold wholePages at hpages hbytes
        omega
      obtain rfl := hsame hle
      refine hunmapped m₁ m' halloc hcopy ?_
      refine (h generous _ m' none generous_exact
        (imageMapped_besides loc img phdr d hoverlaps)).1 ?_
      rw [mapSegment64_eq hloc hrange hempty, if_pos hcopied]
      exact hrun
    · obtain ⟨m₁, m₂, m', hrun, halloc, _, hsame, _⟩ := copySegment_besides loc img phdr 0
      refine not_segmentMapped_of_pages 0 img hloc hrange hpages halloc hsame ?_
      refine (h generous _ m' none generous_exact
        (imageMapped_besides loc img phdr 0 hoverlaps)).1 ?_
      rw [mapSegment64_eq hloc hrange hempty, if_pos hcopied]
      exact hrun
  · obtain ⟨m', hrun, hpage⟩ := shareSegment_crowded img hloc hrange hempty
    have himage : ImageMapped img phdr (crowded (fun _ => false) 0) :=
      fun k _ => ⟨_, crowded_page rfl 0, pageOf_add_one_ne _⟩
    have hsame := (h generous _ m' none generous_exact himage).2 ?_
    · rw [hsame, crowded_page rfl] at hpage
      exact nomatch hpage
    · rw [mapSegment64_eq hloc hrange hempty, if_neg hcopied, hrun]

end Generous

/-- A segment is mapped as asked, whatever the memory manager and the memory are like, if and only
if it is mappable. -/
theorem mapsAllOrNothing_iff {loc img : UInt64} {phdr : ElfProgramHeader64}
    (hloc : loc % 4096 = 0) (hrange : InUserland loc phdr) :
    MapsAllOrNothing loc img phdr ↔ Mappable loc img phdr := by
  constructor
  · exact mappable_of_mapsAllOrNothing hloc hrange
  · exact mapsAllOrNothing_of hloc hrange

/-- A page of the file, not to be written to. -/
def readOnlyPage : ElfProgramHeader64 := ⟨typeLoad, 4, 0, 0x400000, 4096, 4096⟩

end Beelzebub.Execution
