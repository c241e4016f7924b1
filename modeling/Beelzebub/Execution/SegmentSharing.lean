import Beelzebub.Execution.SegmentMapping
import Mathlib.Data.Nat.Find

/-!
# Segments that show the pages of the image

What `MapSegment64` does for a segment that is not copied is decided by the first page that cannot
be mapped.  The pages before it are given back, and where there are none the page in front of the
segment is unmapped instead.
-/

namespace Beelzebub.Execution

open Memory (MemoryFlags MemoryAllocationOptions has)
open Memory.MemoryAllocationOptions (commit used virtualUser permanent)
open Memory.Vmm (userlandStart userlandEnd kernelStart)

/-! ## Pages in a row -/

/-- Where the page `i` behind an address is. -/
def pageAt (vaddr : UInt64) (i : ℕ) : UInt64 := vaddr + UInt64.ofNat i * 4096

theorem pageAt_zero (vaddr : UInt64) : pageAt vaddr 0 = vaddr := by
  have hzero : UInt64.ofNat 0 = 0 := rfl
  unfold pageAt
  rw [hzero, UInt64.zero_mul, UInt64.add_zero]

theorem pageAt_succ (vaddr : UInt64) (i : ℕ) : pageAt vaddr (i + 1) = pageAt vaddr i + 4096 := by
  have hone : UInt64.ofNat 1 = 1 := rfl
  unfold pageAt
  rw [UInt64.ofNat_add, hone]
  grind

theorem pageAt_pred (vaddr : UInt64) (i : ℕ) : pageAt vaddr (i + 1) - 4096 = pageAt vaddr i := by
  rw [pageAt_succ]
  grind

section Row

variable {vaddr q : UInt64} {n i j : ℕ} (hrow : vaddr.toNat + 4096 * n < 2 ^ 64)

include hrow

theorem toNat_pageAt (hi : i ≤ n) : (pageAt vaddr i).toNat = vaddr.toNat + 4096 * i := by
  have h4096 : UInt64.toNat 4096 = 4096 := rfl
  unfold pageAt
  rw [UInt64.toNat_add, UInt64.toNat_mul, UInt64.toNat_ofNat', h4096]
  omega

theorem toNat_pageOf_pageAt (hi : i ≤ n) :
    (pageOf (pageAt vaddr i)).toNat = vaddr.toNat / 4096 + i := by
  rw [toNat_pageOf, toNat_pageAt hrow hi]
  omega

theorem pageOf_pageAt_inj (hi : i ≤ n) (hj : j ≤ n)
    (h : pageOf (pageAt vaddr i) = pageOf (pageAt vaddr j)) : i = j := by
  have hnat := congrArg UInt64.toNat h
  rw [toNat_pageOf_pageAt hrow hi, toNat_pageOf_pageAt hrow hj] at hnat
  omega

/-- A page is the page `i` by its number. -/
theorem pageOf_pageAt_eq (hi : i ≤ n) (hq : q.toNat = vaddr.toNat / 4096 + i) :
    pageOf (pageAt vaddr i) = q := by
  refine UInt64.toNat_inj.mp ?_
  rw [toNat_pageOf_pageAt hrow hi, hq]

end Row

/-! ## The loop -/

namespace MemoryManager

section Loop

variable (vmm : MemoryManager) (segVaddr imgVaddr : UInt64) (flags : MemoryFlags)

/-- The memory after so many pages of the image are shown. -/
def shown : ℕ → ProcessMemory → ProcessMemory
  | 0, m => m
  | i + 1, m =>
      (shown i m).setPage (pageOf (pageAt segVaddr i))
        (some ⟨((shown i m).translate (pageAt imgVaddr i)).getD 0, flags⟩)

/-- The page `i` of the image has a frame, and no page is in the way. -/
def Presents (i : ℕ) (m : ProcessMemory) : Prop :=
  ((shown segVaddr imgVaddr flags i m).translate (pageAt imgVaddr i)).getD 0 ≠ 0 ∧
    (shown segVaddr imgVaddr flags i m).page (pageOf (pageAt segVaddr i)) = none

/-- What `MapPage` comes to for it then. -/
def outcomeAt (i : ℕ) (m : ProcessMemory) : MapOutcome :=
  vmm.mapOutcome (pageAt segVaddr i) (shown segVaddr imgVaddr flags i m)

/-- The page `i` of the image is shown. -/
def Shows (i : ℕ) (m : ProcessMemory) : Prop :=
  Presents segVaddr imgVaddr flags i m ∧ vmm.outcomeAt segVaddr imgVaddr flags i m = .mapped

/-- It is not, but it stays mapped. -/
def Strands (i : ℕ) (m : ProcessMemory) : Prop :=
  Presents segVaddr imgVaddr flags i m ∧ vmm.outcomeAt segVaddr imgVaddr flags i m = .stranded

instance (i : ℕ) (m : ProcessMemory) : Decidable (vmm.Strands segVaddr imgVaddr flags i m) :=
  inferInstanceAs (Decidable ((_ ≠ _ ∧ _ = _) ∧ _ = _))

variable {vmm segVaddr imgVaddr flags} {m : ProcessMemory} {q : UInt64} {n i j : ℕ}

@[simp] theorem shown_byte (i : ℕ) (m : ProcessMemory) :
    (shown segVaddr imgVaddr flags i m).byte = m.byte := by
  induction i with
  | zero => rfl
  | succ i ih => exact ih

@[simp] theorem shown_reserved (i : ℕ) (m : ProcessMemory) :
    (shown segVaddr imgVaddr flags i m).reserved = m.reserved := by
  induction i with
  | zero => rfl
  | succ i ih => exact ih

theorem shown_page_of_ne (hq : ∀ j < i, q ≠ pageOf (pageAt segVaddr j)) :
    (shown segVaddr imgVaddr flags i m).page q = m.page q := by
  induction i with
  | zero => rfl
  | succ i ih =>
      have hlast := hq i (Nat.lt_succ_self i)
      exact (if_neg hlast).trans (ih fun j hj => hq j (Nat.lt_succ_of_lt hj))

theorem shown_page (hrow : segVaddr.toNat + 4096 * n < 2 ^ 64) (hi : i ≤ n) (hj : j < i) :
    (shown segVaddr imgVaddr flags i m).page (pageOf (pageAt segVaddr j)) =
      some ⟨((shown segVaddr imgVaddr flags j m).translate (pageAt imgVaddr j)).getD 0, flags⟩ := by
  induction i with
  | zero => exact absurd hj (Nat.not_lt_zero j)
  | succ i ih =>
      rcases Nat.lt_succ_iff_lt_or_eq.mp hj with hlt | rfl
      · have hne : pageOf (pageAt segVaddr j) ≠ pageOf (pageAt segVaddr i) := fun heq =>
          Nat.ne_of_lt hlt (pageOf_pageAt_inj hrow (by omega) (by omega) heq)
        exact (if_neg hne).trans (ih (by omega) hlt)
      · exact if_pos rfl

/-- The frame of the page `i` of the image. -/
theorem Presents.translate (h : Presents segVaddr imgVaddr flags i m) :
    ∃ paddr, (shown segVaddr imgVaddr flags i m).translate (pageAt imgVaddr i) = some paddr ∧
      paddr ≠ 0 := by
  obtain ⟨hframe, -⟩ := h
  cases htrans : (shown segVaddr imgVaddr flags i m).translate (pageAt imgVaddr i) with
  | none =>
      rw [htrans] at hframe
      exact absurd rfl hframe
  | some paddr =>
      rw [htrans] at hframe
      exact ⟨paddr, rfl, hframe⟩

/-- `MapPage` for a page that can be shown. -/
theorem mapPage_presents (h : Presents segVaddr imgVaddr flags i m) {paddr : UInt64}
    (htrans : (shown segVaddr imgVaddr flags i m).translate (pageAt imgVaddr i) = some paddr) :
    vmm.mapPage (pageAt segVaddr i) paddr flags (shown segVaddr imgVaddr flags i m) =
      (vmm.outcomeAt segVaddr imgVaddr flags i m == .mapped,
        shown segVaddr imgVaddr flags
          (if vmm.outcomeAt segVaddr imgVaddr flags i m = .refused then i else i + 1) m) := by
  have hnext : shown segVaddr imgVaddr flags (i + 1) m =
      (shown segVaddr imgVaddr flags i m).setPage (pageOf (pageAt segVaddr i))
        (some ⟨paddr, flags⟩) := by
    rw [shown, htrans, Option.getD_some]
  unfold mapPage outcomeAt
  rw [h.2]
  cases vmm.mapOutcome (pageAt segVaddr i) (shown segVaddr imgVaddr flags i m) with
  | mapped => exact congrArg (Prod.mk true) hnext.symm
  | refused => exact congrArg (Prod.mk false) rfl
  | stranded => exact congrArg (Prod.mk false) hnext.symm

theorem sharePages_shows {segVaddrEnd : UInt64} (rounds : ℕ)
    (hlt : pageAt segVaddr i < segVaddrEnd) (h : vmm.Shows segVaddr imgVaddr flags i m) :
    vmm.sharePages flags segVaddrEnd (rounds + 1) (pageAt segVaddr i) (pageAt imgVaddr i)
        (shown segVaddr imgVaddr flags i m) =
      vmm.sharePages flags segVaddrEnd rounds (pageAt segVaddr (i + 1)) (pageAt imgVaddr (i + 1))
        (shown segVaddr imgVaddr flags (i + 1) m) := by
  obtain ⟨hpresents, hout⟩ := h
  obtain ⟨paddr, htrans, hframe⟩ := hpresents.translate
  rw [sharePages, if_pos hlt, htrans]
  dsimp only
  rw [if_neg hframe, mapPage_presents hpresents htrans, hout, pageAt_succ, pageAt_succ]
  exact if_pos rfl

/-- The loop stops at a page that is not shown. -/
theorem sharePages_stops {segVaddrEnd : UInt64} (rounds : ℕ)
    (hlt : pageAt segVaddr i < segVaddrEnd) (h : ¬ vmm.Shows segVaddr imgVaddr flags i m) :
    vmm.sharePages flags segVaddrEnd (rounds + 1) (pageAt segVaddr i) (pageAt imgVaddr i)
        (shown segVaddr imgVaddr flags i m) =
      (false, pageAt segVaddr i, shown segVaddr imgVaddr flags
        (if vmm.Strands segVaddr imgVaddr flags i m then i + 1 else i) m) := by
  by_cases hpresents : Presents segVaddr imgVaddr flags i m
  · obtain ⟨paddr, htrans, hframe⟩ := hpresents.translate
    rw [sharePages, if_pos hlt, htrans]
    dsimp only
    rw [if_neg hframe, mapPage_presents hpresents htrans]
    cases hout : vmm.outcomeAt segVaddr imgVaddr flags i m with
    | mapped => exact absurd ⟨hpresents, hout⟩ h
    | refused =>
        have hnot : ¬ vmm.Strands segVaddr imgVaddr flags i m := fun hstrands => by
          cases hstrands.2.symm.trans hout
        rw [if_neg hnot]
        rfl
    | stranded =>
        have hstrands : vmm.Strands segVaddr imgVaddr flags i m := ⟨hpresents, hout⟩
        rw [if_pos hstrands]
        rfl
  · have hnot : ¬ vmm.Strands segVaddr imgVaddr flags i m := fun hstrands =>
      hpresents hstrands.1
    rw [sharePages, if_pos hlt, if_neg hnot]
    cases htrans : (shown segVaddr imgVaddr flags i m).translate (pageAt imgVaddr i) with
    | none => rfl
    | some paddr =>
        dsimp only
        by_cases hframe : paddr = 0
        · exact if_pos hframe
        · rw [if_neg hframe]
          cases hpage : (shown segVaddr imgVaddr flags i m).page (pageOf (pageAt segVaddr i)) with
          | none => exact absurd ⟨by rwa [htrans], hpage⟩ hpresents
          | some page =>
              unfold mapPage
              rw [hpage]
              rfl

/-- The page in front of the segment is unmapped where the first one is the one that failed. -/
theorem rollbackMapping_first {rounds : ℕ} (hrounds : 0 < rounds)
    (hlarge : 4096 ≤ segVaddr.toNat) :
    rollbackMapping segVaddr rounds segVaddr m = m.unmapPage (segVaddr - 4096) := by
  obtain ⟨rounds, rfl⟩ := Nat.exists_eq_add_of_lt hrounds
  have hle : 4096 ≤ segVaddr := UInt64.le_iff_toNat_le.mpr hlarge
  rw [Nat.zero_add, rollbackMapping]
  refine if_neg (UInt64.not_lt.mpr ?_)
  rw [UInt64.le_iff_toNat_le, UInt64.toNat_sub_of_le _ _ hle]
  exact Nat.sub_le _ _

/-! ## The whole loop -/

variable (hrow : segVaddr.toNat + 4096 * n < 2 ^ 64)

include hrow

theorem pageAt_lt_iff (hi : i ≤ n) : pageAt segVaddr i < pageAt segVaddr n ↔ i < n := by
  rw [UInt64.lt_iff_toNat_lt, toNat_pageAt hrow hi, toNat_pageAt hrow (Nat.le_refl n)]
  omega

/-- The loop goes on up to a page `i`, as long as pages are shown. -/
theorem sharePages_add {k : ℕ} (rounds : ℕ) (hi : i + k ≤ n)
    (hshows : ∀ j, i ≤ j → j < i + k → vmm.Shows segVaddr imgVaddr flags j m) :
    vmm.sharePages flags (pageAt segVaddr n) (k + rounds) (pageAt segVaddr i) (pageAt imgVaddr i)
        (shown segVaddr imgVaddr flags i m) =
      vmm.sharePages flags (pageAt segVaddr n) rounds (pageAt segVaddr (i + k))
        (pageAt imgVaddr (i + k)) (shown segVaddr imgVaddr flags (i + k) m) := by
  induction k generalizing i with
  | zero => rw [Nat.zero_add, Nat.add_zero]
  | succ k ih =>
      have hlt := (pageAt_lt_iff hrow (i := i) (by omega)).mpr (by omega)
      have hnext : i + 1 + k = i + (k + 1) := by omega
      rw [Nat.succ_add, sharePages_shows _ hlt (hshows i (Nat.le_refl i) (by omega)),
        ih (by omega) fun j hj hjk => hshows j (by omega) (by omega), hnext]

/-- All the pages are shown. -/
theorem sharePages_all {rounds : ℕ} (hrounds : n ≤ rounds)
    (hshows : ∀ j < n, vmm.Shows segVaddr imgVaddr flags j m) :
    vmm.sharePages flags (pageAt segVaddr n) rounds segVaddr imgVaddr m =
      (true, pageAt segVaddr n, shown segVaddr imgVaddr flags n m) := by
  obtain ⟨k, rfl⟩ := Nat.exists_eq_add_of_le hrounds
  have hrun := sharePages_add hrow (i := 0) (k := n) k (by omega)
    fun j _ hj => hshows j (by omega)
  rw [pageAt_zero, pageAt_zero, Nat.zero_add] at hrun
  refine hrun.trans ?_
  cases k with
  | zero => rfl
  | succ k => exact if_neg (UInt64.not_lt.mpr (UInt64.le_refl _))

/-- The page `i` is the first one that is not shown. -/
theorem sharePages_first {rounds : ℕ} (hrounds : n ≤ rounds) (hi : i < n)
    (hshows : ∀ j < i, vmm.Shows segVaddr imgVaddr flags j m)
    (hnot : ¬ vmm.Shows segVaddr imgVaddr flags i m) :
    vmm.sharePages flags (pageAt segVaddr n) rounds segVaddr imgVaddr m =
      (false, pageAt segVaddr i, shown segVaddr imgVaddr flags
        (if vmm.Strands segVaddr imgVaddr flags i m then i + 1 else i) m) := by
  obtain ⟨k, rfl⟩ : ∃ k, rounds = i + (k + 1) := ⟨rounds - i - 1, by omega⟩
  have hrun := sharePages_add hrow (i := 0) (k := i) (k + 1) (by omega)
    fun j _ hj => hshows j (by omega)
  rw [pageAt_zero, pageAt_zero, Nat.zero_add] at hrun
  exact hrun.trans (sharePages_stops k ((pageAt_lt_iff hrow (by omega)).mpr hi) hnot)

/-- What is unmapped from the page `i + 1` on are the pages before it. -/
theorem rollbackMapping_page (rounds : ℕ) (hi : i < n) (hrounds : i < rounds) :
    (∀ j ≤ i, (rollbackMapping segVaddr rounds (pageAt segVaddr (i + 1)) m).page
      (pageOf (pageAt segVaddr j)) = none) ∧
    ∀ q, (∀ j ≤ i, q ≠ pageOf (pageAt segVaddr j)) →
      (rollbackMapping segVaddr rounds (pageAt segVaddr (i + 1)) m).page q = m.page q := by
  obtain ⟨rounds, rfl⟩ := Nat.exists_eq_add_of_lt hrounds
  induction i generalizing m with
  | zero =>
      have hstop : ¬ segVaddr < segVaddr := UInt64.not_lt.mpr (UInt64.le_refl _)
      rw [Nat.zero_add, rollbackMapping, pageAt_pred, pageAt_zero]
      rw [if_neg hstop]
      constructor
      · intro j hj
        obtain rfl := Nat.le_zero.mp hj
        rw [pageAt_zero]
        exact if_pos rfl
      · intro q hq
        have hne := hq 0 (Nat.le_refl 0)
        rw [pageAt_zero] at hne
        exact if_neg hne
  | succ i ih =>
      have hgoes : segVaddr < pageAt segVaddr (i + 1) := by
        rw [UInt64.lt_iff_toNat_lt, toNat_pageAt hrow (by omega)]
        omega
      have hrest : i + 1 + rounds + 1 = i + rounds + 1 + 1 := by omega
      rw [hrest, rollbackMapping, pageAt_pred]
      rw [if_pos hgoes]
      obtain ⟨hnone, hother⟩ :=
        ih (m := m.unmapPage (pageAt segVaddr (i + 1))) (by omega) (by omega)
      constructor
      · intro j hj
        rcases Nat.le_succ_iff.mp hj with hle | rfl
        · exact hnone j hle
        · have hlast : ∀ j ≤ i, pageOf (pageAt segVaddr (i + 1)) ≠ pageOf (pageAt segVaddr j) :=
            fun j hj heq => absurd (pageOf_pageAt_inj hrow (by omega) (by omega) heq) (by omega)
          rw [hother _ hlast]
          exact if_pos rfl
      · intro q hq
        rw [hother q fun j hj => hq j (Nat.le_succ_of_le hj)]
        exact if_neg (hq (i + 1) (Nat.le_refl _))

/-- A page that can be shown was free before the loop. -/
theorem Presents.free (hi : i < n) (h : Presents segVaddr imgVaddr flags i m) :
    m.page (pageOf (pageAt segVaddr i)) = none := by
  have hother : ∀ j < i, pageOf (pageAt segVaddr i) ≠ pageOf (pageAt segVaddr j) :=
    fun j hj heq => Nat.ne_of_gt hj (pageOf_pageAt_inj hrow (by omega) (by omega) heq)
  exact (shown_page_of_ne hother).symm.trans h.2

/-- What is mapped before the loop stays so. -/
theorem shown_page_of_mapped {page : Page} (hi : i ≤ n)
    (hshows : ∀ j < i, Presents segVaddr imgVaddr flags j m) (hq : m.page q = some page) :
    (shown segVaddr imgVaddr flags i m).page q = some page := by
  refine (shown_page_of_ne fun j hj heq => ?_).trans hq
  rw [heq, (hshows j hj).free hrow (Nat.lt_of_lt_of_le hj hi)] at hq
  exact nomatch hq

end Loop

end MemoryManager

/-! ## What is asked -/

section Asked

variable (vmm : MemoryManager) (loc img : UInt64) (phdr : ElfProgramHeader64) (m : ProcessMemory)

/-- What is asked of mapping a segment with a memory manager, in a memory. -/
def MapsWith (data : Option Bool) : Prop :=
  ∀ m', (vmm.mapSegment64 loc img phdr data m = some (true, m') →
      SegmentMapped loc img phdr m m') ∧
    (vmm.mapSegment64 loc img phdr data m = some (false, m') → m'.page = m.page)

/-- The number of pages that a segment lies on. -/
def pageCount : ℕ := wholePages (phdr.vAddr.toNat % 4096 + phdr.vSize.toNat) / 4096

/-- The memory after its pages are reserved. -/
def Reserves (m₁ : ProcessMemory) : Prop :=
  vmm.allocatePages (roundUp phdr.vSize) (used ||| virtualUser ||| permanent)
    (MemoryManager.pageFlags phdr.flags) (loc + roundDown phdr.vAddr) m = some m₁

/-- Its page `i` is shown after those before it. -/
def ShowsPage (i : ℕ) (m₁ : ProcessMemory) : Prop :=
  vmm.Shows (loc + roundDown phdr.vAddr) (img + roundDown phdr.offset)
    (MemoryManager.pageFlags phdr.flags) i m₁

/-- Its page `i` is left mapped by a `MapPage` that fails. -/
def StrandsPage (i : ℕ) (m₁ : ProcessMemory) : Prop :=
  vmm.Strands (loc + roundDown phdr.vAddr) (img + roundDown phdr.offset)
    (MemoryManager.pageFlags phdr.flags) i m₁

/-- If all pages are shown, then those that are not reserved with the segment were so before.  The
first one that is not shown is left as it was, and if it is the first one of all then there is
nothing in front of it. -/
structure Shareable : Prop where
  whole : ∀ m₁, Reserves vmm loc phdr m m₁ →
    (∀ i < pageCount phdr, ShowsPage vmm loc img phdr i m₁) → ∀ p, InSegment loc phdr p →
      InPages (loc + roundDown phdr.vAddr) (roundUp phdr.vSize) p ∨ m.reserved p = true
  failed : ∀ m₁, Reserves vmm loc phdr m m₁ → ∀ i < pageCount phdr,
    (∀ j < i, ShowsPage vmm loc img phdr j m₁) → ¬ ShowsPage vmm loc img phdr i m₁ →
      ¬ StrandsPage vmm loc img phdr i m₁ ∧
        (i = 0 → m.page (pageOf (loc + roundDown phdr.vAddr - 4096)) = none)

end Asked

/-! ## The pages of a segment -/

section Segment

variable {vmm : MemoryManager} {loc img : UInt64} {phdr : ElfProgramHeader64}
  {m m₁ m' : ProcessMemory} {i : ℕ}

theorem row_segment (hloc : loc % 4096 = 0) (hrange : InUserland loc phdr) :
    (loc + roundDown phdr.vAddr).toNat + 4096 * pageCount phdr < 2 ^ 64 ∧
      pageAt (loc + roundDown phdr.vAddr) (pageCount phdr) =
        loc + roundUp (phdr.vAddr + phdr.vSize) := by
  have hmod := toNat_add_mod_page hloc phdr.vAddr
  have hend := hrange.2
  have hrow : (loc + roundDown phdr.vAddr).toNat + 4096 * pageCount phdr =
      wholePages ((loc + phdr.vAddr).toNat + phdr.vSize.toNat) := by
    rw [toNat_segVaddr hloc]
    unfold pageCount wholePages
    omega
  have hlt : (loc + roundDown phdr.vAddr).toNat + 4096 * pageCount phdr < 2 ^ 64 := by
    unfold userlandEnd at hend
    rw [hrow]
    unfold wholePages
    omega
  refine ⟨hlt, UInt64.toNat_inj.mp ?_⟩
  rw [toNat_pageAt hlt (Nat.le_refl _), toNat_segVaddrEnd hloc hend, hrow]

theorem inSegment_iff (hloc : loc % 4096 = 0) (hrange : InUserland loc phdr) {p : UInt64} :
    InSegment loc phdr p ↔
      ∃ i < pageCount phdr, p = pageOf (pageAt (loc + roundDown phdr.vAddr) i) := by
  have hmod := toNat_add_mod_page hloc phdr.vAddr
  have hrow := (row_segment hloc hrange).1
  have hstart := toNat_segVaddr hloc phdr.vAddr
  constructor
  · rintro ⟨hlow, hupp⟩
    have hlt : p.toNat - (loc + phdr.vAddr).toNat / 4096 < pageCount phdr := by
      unfold pageCount wholePages
      omega
    exact ⟨_, hlt, (pageOf_pageAt_eq hrow (Nat.le_of_lt hlt) (by omega)).symm⟩
  · rintro ⟨i, hi, rfl⟩
    unfold InSegment
    rw [toNat_pageOf_pageAt hrow (Nat.le_of_lt hi)]
    unfold pageCount wholePages at hi
    omega

/-- A byte `k` behind an address, by the page behind the start of that of the address. -/
theorem add_ofNat_eq (base v : UInt64) (k : ℕ) :
    base + v + UInt64.ofNat k = pageAt (base + roundDown v) ((v.toNat % 4096 + k) / 4096) +
      UInt64.ofNat ((v.toNat % 4096 + k) % 4096) := by
  have hparts : v % 4096 + UInt64.ofNat k = UInt64.ofNat ((v.toNat % 4096 + k) / 4096) * 4096 +
      UInt64.ofNat ((v.toNat % 4096 + k) % 4096) := by
    have hmod : v % 4096 = UInt64.ofNat (v.toNat % 4096) := by
      rw [← toNat_mod_page, UInt64.ofNat_toNat]
    have h4096 : (4096 : UInt64) = UInt64.ofNat 4096 := rfl
    rw [hmod, h4096, ← UInt64.ofNat_add, ← UInt64.ofNat_mul, ← UInt64.ofNat_add, Nat.mul_comm,
      Nat.div_add_mod]
  unfold pageAt roundDown
  grind

theorem pageOf_add_ofNat {base : UInt64} (hbase : base % 4096 = 0) {s : ℕ} (hs : s < 4096) :
    pageOf (base + UInt64.ofNat s) = pageOf base ∧
      (base + UInt64.ofNat s) % 4096 = UInt64.ofNat s := by
  have haligned := aligned_toNat hbase
  have hlt := base.toNat_lt
  have hsum : (base + UInt64.ofNat s).toNat = base.toNat + s := by
    rw [UInt64.toNat_add, UInt64.toNat_ofNat']
    omega
  constructor
  · refine UInt64.toNat_inj.mp ?_
    rw [toNat_pageOf, toNat_pageOf, hsum]
    omega
  · refine UInt64.toNat_inj.mp ?_
    rw [toNat_mod_page, hsum, UInt64.toNat_ofNat']
    omega

/-- Where such a byte is. -/
theorem byte_place {base : UInt64} (hbase : base % 4096 = 0) (v : UInt64) (k : ℕ) :
    pageOf (base + v + UInt64.ofNat k) =
        pageOf (pageAt (base + roundDown v) ((v.toNat % 4096 + k) / 4096)) ∧
      (base + v + UInt64.ofNat k) % 4096 = UInt64.ofNat ((v.toNat % 4096 + k) % 4096) := by
  have haligned : pageAt (base + roundDown v) ((v.toNat % 4096 + k) / 4096) % 4096 = 0 := by
    have hzero : UInt64.toNat 0 = 0 := rfl
    have h4096 : UInt64.toNat 4096 = 4096 := rfl
    have hbase := aligned_toNat hbase
    refine UInt64.toNat_inj.mp ?_
    unfold pageAt
    rw [toNat_mod_page, UInt64.toNat_add, UInt64.toNat_add, UInt64.toNat_mul, toNat_roundDown,
      hzero, h4096]
    omega
  rw [add_ofNat_eq]
  exact pageOf_add_ofNat haligned (Nat.mod_lt _ (by decide))

/-- A reservation leaves the page map as it was. -/
theorem Allocated.page_eq {size vaddr : UInt64} {type : MemoryAllocationOptions}
    {flags : MemoryFlags} (h : Allocated size type flags vaddr m m₁)
    (htype : has type commit = false) : m₁.page = m.page :=
  funext fun p => h.others p fun hboth => by rw [htype] at hboth; exact nomatch hboth.1

/-- A segment all of whose pages are shown is mapped, if all of these are reserved. -/
theorem segmentMapped_shown (hloc : loc % 4096 = 0) (himg : img % 4096 = 0)
    (hcongr : phdr.vAddr % 4096 = phdr.offset % 4096) (hrange : InUserland loc phdr)
    (hsize : phdr.vSize = phdr.pSize) (himage : ImageMapped img phdr m)
    (halloc : Allocated (roundUp phdr.vSize) (used ||| virtualUser ||| permanent)
      (MemoryManager.pageFlags phdr.flags) (loc + roundDown phdr.vAddr) m m₁)
    (hshows : ∀ i < pageCount phdr, ShowsPage vmm loc img phdr i m₁) :
    SegmentMapped loc img phdr m (MemoryManager.shown (loc + roundDown phdr.vAddr)
        (img + roundDown phdr.offset) (MemoryManager.pageFlags phdr.flags) (pageCount phdr) m₁) ↔
      ∀ p, InSegment loc phdr p →
        InPages (loc + roundDown phdr.vAddr) (roundUp phdr.vSize) p ∨ m.reserved p = true := by
  have hrow := (row_segment hloc hrange).1
  have hpage := halloc.page_eq (by decide)
  constructor
  · intro hmapped p hp
    have hreserved := (hmapped.pages p hp).1
    rw [MemoryManager.shown_reserved] at hreserved
    exact ((halloc.reserved p).mp hreserved).symm
  · intro hwhole
    constructor
    case pages =>
      intro p hp
      rw [MemoryManager.shown_reserved]
      refine ⟨(halloc.reserved p).mpr (hwhole p hp).symm, ?_⟩
      obtain ⟨i, hi, rfl⟩ := (inSegment_iff hloc hrange).mp hp
      exact ⟨_, MemoryManager.shown_page hrow (Nat.le_refl _) hi⟩
    case image =>
      intro k hk _
      obtain ⟨page, hsource, hframe⟩ := himage k hk
      obtain ⟨htarget, htoffset⟩ := byte_place hloc phdr.vAddr k
      obtain ⟨hplace, hsoffset⟩ := byte_place himg phdr.offset k
      have hmod : phdr.offset.toNat % 4096 = phdr.vAddr.toNat % 4096 := by
        rw [← toNat_mod_page, ← toNat_mod_page, hcongr]
      rw [hmod] at hplace hsoffset
      have hi : (phdr.vAddr.toNat % 4096 + k) / 4096 < pageCount phdr := by
        rw [← hsize] at hk
        unfold pageCount wholePages
        omega
      -- The page of the image is the one that is shown.
      have htranslate : (MemoryManager.shown (loc + roundDown phdr.vAddr)
          (img + roundDown phdr.offset) (MemoryManager.pageFlags phdr.flags)
          ((phdr.vAddr.toNat % 4096 + k) / 4096) m₁).translate
            (pageAt (img + roundDown phdr.offset) ((phdr.vAddr.toNat % 4096 + k) / 4096)) =
          some page.frame := by
        unfold source at hsource
        rw [hplace, ← hpage] at hsource
        unfold ProcessMemory.translate
        rw [MemoryManager.shown_page_of_mapped hrow (Nat.le_of_lt hi)
          (fun j hj => (hshows j (Nat.lt_trans hj hi)).1) hsource]
        rfl
      unfold target source ProcessMemory.load
      unfold source at hsource
      rw [htarget, htoffset, MemoryManager.shown_page hrow (Nat.le_refl _) hi, htranslate,
        MemoryManager.shown_byte, hsource, hsoffset, Option.map_some, Option.map_some,
        Option.getD_some, halloc.bytes _ _ hsource]
    case zero =>
      intro k hk hle
      rw [hsize] at hk
      exact absurd hk (Nat.not_lt.mpr hle)
    case outside =>
      intro a ha
      have hother : ∀ j < pageCount phdr,
          pageOf a ≠ pageOf (pageAt (loc + roundDown phdr.vAddr) j) := fun j hj heq =>
        ha ((inSegment_iff hloc hrange).mpr ⟨j, hj, heq⟩)
      unfold ProcessMemory.load
      rw [MemoryManager.shown_page_of_ne hother, MemoryManager.shown_byte, hpage]
      cases hmapped : m.page (pageOf a) with
      | none => rfl
      | some page => rw [Option.map_some, Option.map_some, halloc.bytes _ _ hmapped]

/-- The start of a segment, which is not that of the lower half, nor in the other. -/
theorem segVaddr_bounds (hloc : loc % 4096 = 0) (hrange : InUserland loc phdr) :
    4096 ≤ (loc + roundDown phdr.vAddr).toNat ∧
      (loc + roundDown phdr.vAddr).toNat < kernelStart := by
  obtain ⟨hstart, hend⟩ := hrange
  rw [toNat_segVaddr hloc]
  unfold userlandStart at hstart
  unfold userlandEnd at hend
  unfold kernelStart
  omega

/-- A page that is left mapped was free before. -/
theorem StrandsPage.page_ne (hloc : loc % 4096 = 0) (hrange : InUserland loc phdr)
    (hpage : m₁.page = m.page) (hi : i < pageCount phdr) (h : StrandsPage vmm loc img phdr i m₁) :
    (MemoryManager.shown (loc + roundDown phdr.vAddr) (img + roundDown phdr.offset)
        (MemoryManager.pageFlags phdr.flags) (i + 1) m₁).page
        (pageOf (pageAt (loc + roundDown phdr.vAddr) i)) ≠
      m.page (pageOf (pageAt (loc + roundDown phdr.vAddr) i)) := by
  have hrow := (row_segment hloc hrange).1
  rw [MemoryManager.shown_page hrow hi (Nat.lt_succ_self i), ← hpage,
    h.1.free hrow hi]
  exact nofun

/-- The page map is that of before if and only if the first page that was not shown is as it was,
and nothing was lost in front of it. -/
theorem rolledBack_iff (hloc : loc % 4096 = 0) (hrange : InUserland loc phdr)
    (hpage : m₁.page = m.page) (hi : i < pageCount phdr)
    (hshows : ∀ j < i, ShowsPage vmm loc img phdr j m₁) :
    (MemoryManager.rollbackMapping (loc + roundDown phdr.vAddr) (2 ^ 52)
      (pageAt (loc + roundDown phdr.vAddr) i)
      (MemoryManager.shown (loc + roundDown phdr.vAddr) (img + roundDown phdr.offset)
        (MemoryManager.pageFlags phdr.flags)
        (if vmm.Strands (loc + roundDown phdr.vAddr) (img + roundDown phdr.offset)
          (MemoryManager.pageFlags phdr.flags) i m₁ then i + 1 else i) m₁)).page = m.page ↔
      ¬ StrandsPage vmm loc img phdr i m₁ ∧
        (i = 0 → m.page (pageOf (loc + roundDown phdr.vAddr - 4096)) = none) := by
  have hrow := (row_segment hloc hrange).1
  unfold StrandsPage
  cases i with
  | zero =>
      have hbefore : pageOf (loc + roundDown phdr.vAddr) ≠
          pageOf (loc + roundDown phdr.vAddr - 4096) := by
        have hlarge := (segVaddr_bounds hloc hrange).1
        have hle : 4096 ≤ loc + roundDown phdr.vAddr := UInt64.le_iff_toNat_le.mpr hlarge
        have h4096 : UInt64.toNat 4096 = 4096 := rfl
        intro heq
        have hnat := congrArg UInt64.toNat heq
        rw [toNat_pageOf, toNat_pageOf, UInt64.toNat_sub_of_le _ _ hle, h4096] at hnat
        omega
      rw [pageAt_zero, MemoryManager.rollbackMapping_first (by decide)
        (segVaddr_bounds hloc hrange).1]
      constructor
      · intro hsame
        constructor
        · intro hstrands
          rw [if_pos hstrands] at hsame
          refine StrandsPage.page_ne hloc hrange hpage hi hstrands ?_
          rw [pageAt_zero, ← hsame]
          exact (if_neg hbefore).symm
        · intro _
          rw [← hsame]
          exact if_pos rfl
      · rintro ⟨hstrands, hfree⟩
        rw [if_neg hstrands, ← hpage]
        funext q
        by_cases hq : q = pageOf (loc + roundDown phdr.vAddr - 4096)
        · subst hq
          refine (if_pos rfl).trans ?_
          rw [hpage, hfree rfl]
        · exact if_neg hq
  | succ i =>
      obtain ⟨hnone, hother⟩ := MemoryManager.rollbackMapping_page
        (m := MemoryManager.shown (loc + roundDown phdr.vAddr) (img + roundDown phdr.offset)
          (MemoryManager.pageFlags phdr.flags)
          (if vmm.Strands (loc + roundDown phdr.vAddr) (img + roundDown phdr.offset)
            (MemoryManager.pageFlags phdr.flags) (i + 1) m₁ then i + 1 + 1 else i + 1) m₁)
        hrow (i := i) (2 ^ 52) (by omega) (by omega)
      constructor
      · intro hsame
        constructor
        · intro hstrands
          rw [if_pos hstrands] at hsame hother
          refine StrandsPage.page_ne hloc hrange hpage hi hstrands ?_
          rw [← hsame]
          refine (hother _ fun j hj heq => ?_).symm
          exact absurd (pageOf_pageAt_inj hrow (by omega) (by omega) heq) (by omega)
        · exact nofun
      · rintro ⟨hstrands, -⟩
        rw [if_neg hstrands] at hnone hother ⊢
        funext q
        by_cases hq : ∃ j ≤ i, q = pageOf (pageAt (loc + roundDown phdr.vAddr) j)
        · obtain ⟨j, hj, rfl⟩ := hq
          rw [hnone j hj, ← hpage]
          exact ((hshows j (by omega)).1.free hrow (by omega)).symm
        · have hq' : ∀ j ≤ i, q ≠ pageOf (pageAt (loc + roundDown phdr.vAddr) j) :=
            fun j hj heq => hq ⟨j, hj, heq⟩
          rw [hother q hq', MemoryManager.shown_page_of_ne fun j hj => hq' j (by omega), hpage]

end Segment

/-! ## The result -/

section Result

variable {vmm : MemoryManager} {loc img : UInt64} {phdr : ElfProgramHeader64} {m : ProcessMemory}
  {data : Option Bool}

theorem mapsWith_of_true {m' : ProcessMemory}
    (h : vmm.mapSegment64 loc img phdr data m = some (true, m')) :
    MapsWith vmm loc img phdr m data ↔ SegmentMapped loc img phdr m m' := by
  constructor
  · exact fun hmaps => (hmaps m').1 h
  · intro hmapped m''
    rw [h]
    constructor
    · intro heq
      cases heq
      exact hmapped
    · exact nofun

theorem mapsWith_of_false {m' : ProcessMemory}
    (h : vmm.mapSegment64 loc img phdr data m = some (false, m')) :
    MapsWith vmm loc img phdr m data ↔ m'.page = m.page := by
  constructor
  · exact fun hmaps => (hmaps m').2 h
  · intro hsame m''
    rw [h]
    constructor
    · exact nofun
    · intro heq
      cases heq
      exact hsame

/-- `MapSegment64` for a segment that is not copied, by what the loop over its pages does. -/
theorem mapSegment64_shared (data : Option Bool) (hloc : loc % 4096 = 0) (hrange : InUserland loc phdr)
    (hempty : ¬ (phdr.vAddr.toNat % 4096 = 0 ∧ phdr.vSize = 0))
    (hcopied : ¬ MemoryManager.IsCopied phdr) {m₁ : ProcessMemory}
    (halloc : Reserves vmm loc phdr m m₁) {result : Bool × UInt64 × ProcessMemory}
    (hloop : vmm.sharePages (MemoryManager.pageFlags phdr.flags)
      (pageAt (loc + roundDown phdr.vAddr) (pageCount phdr)) (2 ^ 52)
      (loc + roundDown phdr.vAddr) (img + roundDown phdr.offset) m₁ = result) :
    vmm.mapSegment64 loc img phdr data m =
      if result.1 then some (true, result.2.2)
      else some (false, MemoryManager.rollbackMapping (loc + roundDown phdr.vAddr) (2 ^ 52)
        result.2.1 result.2.2) := by
  subst hloop
  have hkernel := (segVaddr_bounds hloc hrange).2
  have hfree (m : ProcessMemory) : vmm.freePages (loc + roundDown phdr.vAddr)
      (phdr.vSize + 4096 - 1) m = m := by
    unfold MemoryManager.freePages
    rw [if_neg (Nat.not_le.mpr hkernel), ite_self]
  rw [mapSegment64_eq hloc hrange hempty, if_neg hcopied, (row_segment hloc hrange).2]
  unfold MemoryManager.shareSegment
  unfold Reserves at halloc
  rw [halloc]
  dsimp only
  rw [hfree, ← apply_ite some]

/-- A segment that is not copied is mapped, or nothing is, if and only if it is shareable. -/
theorem mapsWith_iff (hloc : loc % 4096 = 0) (himg : img % 4096 = 0)
    (hcongr : phdr.vAddr % 4096 = phdr.offset % 4096) (hrange : InUserland loc phdr)
    (hcopied : ¬ MemoryManager.IsCopied phdr) (hexact : vmm.AllocatesExactly)
    (himage : ImageMapped img phdr m) :
    MapsWith vmm loc img phdr m data ↔ Shareable vmm loc img phdr m := by
  have hrow := (row_segment hloc hrange).1
  have hsize : phdr.vSize = phdr.pSize := not_not.mp (not_or.mp hcopied).2
  by_cases hempty : phdr.vAddr.toNat % 4096 = 0 ∧ phdr.vSize = 0
  · have hcount : pageCount phdr = 0 := by
      unfold pageCount
      rw [hempty.1, hempty.2]
      rfl
    rw [mapsWith_of_false (mapSegment64_empty hloc hrange hempty)]
    constructor
    · intro _
      constructor
      case whole =>
        intro _ _ _ p hp
        obtain ⟨i, hi, _⟩ := (inSegment_iff hloc hrange).mp hp
        rw [hcount] at hi
        exact absurd hi (Nat.not_lt_zero i)
      case failed =>
        intro _ _ i hi
        rw [hcount] at hi
        exact absurd hi (Nat.not_lt_zero i)
    · exact fun _ => rfl
  · cases halloc : vmm.allocatePages (roundUp phdr.vSize) (used ||| virtualUser ||| permanent)
        (MemoryManager.pageFlags phdr.flags) (loc + roundDown phdr.vAddr) m with
    | none =>
        have hrun : vmm.mapSegment64 loc img phdr data m = some (false, m) := by
          rw [mapSegment64_eq hloc hrange hempty, if_neg hcopied]
          unfold MemoryManager.shareSegment
          rw [halloc]
        rw [mapsWith_of_false hrun]
        constructor
        · intro _
          constructor
          case whole => exact fun m₁ hreserves => nomatch halloc.symm.trans hreserves
          case failed => exact fun m₁ hreserves => nomatch halloc.symm.trans hreserves
        · exact fun _ => rfl
    | some m₁ =>
        have hexactly := hexact halloc
        have hsame {m₂} (hreserves : Reserves vmm loc phdr m m₂) : m₂ = m₁ :=
          Option.some.inj (hreserves.symm.trans halloc)
        by_cases hall : ∀ i < pageCount phdr, ShowsPage vmm loc img phdr i m₁
        · have hrun := mapSegment64_shared data hloc hrange hempty hcopied halloc
            (MemoryManager.sharePages_all hrow (by omega) hall)
          rw [mapsWith_of_true hrun,
            segmentMapped_shown hloc himg hcongr hrange hsize himage hexactly hall]
          constructor
          · intro hwhole
            constructor
            case whole => exact fun _ _ _ => hwhole
            case failed =>
              intro m₂ hreserves i hi _ hnot
              rw [hsame hreserves] at hnot
              exact absurd (hall i hi) hnot
          · exact fun hshareable => hshareable.whole m₁ halloc hall
        · -- The first page that is not shown.
          classical
          have hex : ∃ i, i < pageCount phdr ∧ ¬ ShowsPage vmm loc img phdr i m₁ := by
            push Not at hall
            exact hall
          obtain ⟨hi, hnot⟩ := Nat.find_spec hex
          have hbefore : ∀ j < Nat.find hex, ShowsPage vmm loc img phdr j m₁ := fun j hj =>
            not_not.mp fun hj' => Nat.find_min hex hj ⟨Nat.lt_trans hj hi, hj'⟩
          generalize Nat.find hex = i at hi hnot hbefore
          have hrun := mapSegment64_shared data hloc hrange hempty hcopied halloc
            (MemoryManager.sharePages_first hrow (by omega) hi hbefore hnot)
          rw [mapsWith_of_false hrun,
            rolledBack_iff hloc hrange (hexactly.page_eq (by decide)) hi hbefore]
          constructor
          · intro hfailed
            constructor
            case whole =>
              intro m₂ hreserves hshows
              rw [hsame hreserves] at hshows
              exact absurd (hshows i hi) hnot
            case failed =>
              intro m₂ hreserves j hj hbefore' hnot'
              obtain rfl := hsame hreserves
              rcases Nat.lt_trichotomy i j with hlt | rfl | hlt
              · exact absurd (hbefore' i hlt) hnot
              · exact hfailed
              · exact absurd (hbefore j hlt) hnot'
          · exact fun hshareable => hshareable.failed m₁ halloc i hi hbefore hnot

end Result

end Beelzebub.Execution
