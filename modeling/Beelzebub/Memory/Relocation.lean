import Beelzebub.Memory.PmmArc
import Beelzebub.Lib.Linked

/-!
# Relocation of the control structures

What the loops of `Bootstrap` and `Remap` do to a chain of spaces.  A step either
fails to map something, or leaves the structures of one space in their new place
(`Settled`) and the rest of memory alone (`Touches`).
-/

namespace Beelzebub.Memory

open VmmArc Linked

/-- Where the parts of a space are in physical memory. -/
structure Layout where
  addr : Nat
  memoryStart : Nat
  largeFrameCount : Nat
  /-- The pages with the descriptors of small frames. -/
  page : Nat → Nat

namespace Layout

/-- The size of the descriptors, in whole pages. -/
def controlSize (e : Layout) : Nat :=
  (e.largeFrameCount * LargeFrameDescriptor.size + (pageSize - 1)) / pageSize * pageSize

/-- The virtual memory that the structures of the space take. -/
def span (e : Layout) : Nat := e.controlSize + e.largeFrameCount * pageSize

/-- The address of a descriptor. -/
def desc (e : Layout) (i : Nat) : Nat := e.memoryStart + i * LargeFrameDescriptor.size

/-- The address is that of a descriptor of the space. -/
def Holds (e : Layout) (d : Nat) : Prop :=
  e.memoryStart ≤ d ∧ d < e.memoryStart + e.largeFrameCount * LargeFrameDescriptor.size

/-- The structures are aligned to pages. -/
structure Aligned (e : Layout) : Prop where
  start : e.memoryStart % pageSize = 0
  page : ∀ i < e.largeFrameCount, e.page i % pageSize = 0

theorem controlSize_mod (e : Layout) : e.controlSize % pageSize = 0 := Nat.mul_mod_left ..

theorem span_mod (e : Layout) : e.span % pageSize = 0 := by
  unfold span controlSize pageSize
  omega

theorem desc_lt (e : Layout) {i : Nat} (hi : i < e.largeFrameCount) :
    i * LargeFrameDescriptor.size < e.controlSize := by
  unfold controlSize LargeFrameDescriptor.size pageSize
  omega

theorem holds_desc (e : Layout) {i : Nat} (hi : i < e.largeFrameCount) :
    e.Holds (e.desc i) := by
  unfold Holds desc LargeFrameDescriptor.size
  omega

end Layout

namespace Machine

variable {m m' m'' : Machine} {e : Layout} {es : List Layout} {lo hi : Nat}

/-! ## Mapping -/

/-- The pages from `loc` on, mapped one after the other. -/
def laid (n loc : Nat) (f : Nat → Nat) (pages : Nat → Option Nat) (v : Nat) : Option Nat :=
  if loc ≤ v ∧ v < loc + n * pageSize ∧ (v - loc) % pageSize = 0 then
    some (f ((v - loc) / pageSize))
  else pages v

theorem laid_zero (loc : Nat) (f : Nat → Nat) (pages : Nat → Option Nat) :
    laid 0 loc f pages = pages := by
  funext v
  unfold laid
  rw [if_neg (by omega)]

theorem laid_succ (n loc : Nat) (f : Nat → Nat) (pages : Nat → Option Nat) :
    laid n (loc + pageSize) (fun j => f (j + 1)) (Function.update pages loc (some (f 0))) =
      laid (n + 1) loc f pages := by
  funext v
  unfold laid
  rw [Function.update_apply]
  by_cases hv : v = loc
  · subst hv
    have h1 : ¬(v + pageSize ≤ v ∧ v < v + pageSize + n * pageSize ∧
        (v - (v + pageSize)) % pageSize = 0) := by
      unfold pageSize
      omega
    have h2 : v ≤ v ∧ v < v + (n + 1) * pageSize ∧ (v - v) % pageSize = 0 := by
      unfold pageSize
      omega
    rw [if_neg h1, if_pos rfl, if_pos h2, Nat.sub_self, Nat.zero_div]
  · rw [if_neg hv]
    have hiff : (loc + pageSize ≤ v ∧ v < loc + pageSize + n * pageSize ∧
        (v - (loc + pageSize)) % pageSize = 0) ↔
        loc ≤ v ∧ v < loc + (n + 1) * pageSize ∧ (v - loc) % pageSize = 0 := by
      unfold pageSize
      omega
    by_cases h : loc ≤ v ∧ v < loc + (n + 1) * pageSize ∧ (v - loc) % pageSize = 0
    · rw [if_pos (hiff.mpr h), if_pos h]
      have hdiv : (v - (loc + pageSize)) / pageSize + 1 = (v - loc) / pageSize := by
        unfold pageSize at h ⊢
        omega
      exact congrArg (fun j => some (f j)) hdiv
    · rw [if_neg fun h' => h (hiff.mp h'), if_neg h]

/-- `n` pages from `loc` on can be mapped. -/
def Free (m : Machine) (loc n : Nat) : Prop :=
  loc + n * pageSize ≤ fractalStart ∧ ∀ j < n, m.pages (loc + j * pageSize) = none

/-- Mapping consecutive pages fails only if some page is taken. -/
theorem mapPages_spec (n loc paddr : Nat) (m : Machine) :
    ((∃ r, m.mapPages n loc paddr = .error (.mapping r)) ∧
        ¬∀ j < n, m.pages (loc + j * pageSize) = none) ∨
      m.mapPages n loc paddr =
          .ok { m with pages := laid n loc (fun j => paddr + j * pageSize) m.pages } ∧
        ∀ j < n, m.pages (loc + j * pageSize) = none := by
  induction n generalizing loc paddr m with
  | zero =>
      refine Or.inr ⟨?_, fun j hj => absurd hj (Nat.not_lt_zero j)⟩
      rw [mapPages, laid_zero]
  | succ n ih =>
      rw [mapPages, mapPageInternal]
      cases hloc : m.pages loc with
      | some a =>
          refine Or.inl ⟨⟨.pageMapped, rfl⟩, fun h => ?_⟩
          have := h 0 (Nat.succ_pos n)
          rw [Nat.zero_mul, Nat.add_zero, hloc] at this
          cases this
      | none =>
          have hshift : ∀ j, loc + (j + 1) * pageSize = loc + pageSize + j * pageSize := by
            intro j
            unfold pageSize
            omega
          have hpages : ∀ j, Function.update m.pages loc (some paddr)
              (loc + pageSize + j * pageSize) = m.pages (loc + (j + 1) * pageSize) := by
            intro j
            rw [hshift, Function.update_of_ne]
            unfold pageSize
            omega
          have hall : (∀ j < n, Function.update m.pages loc (some paddr)
              (loc + pageSize + j * pageSize) = none) →
              ∀ j < n + 1, m.pages (loc + j * pageSize) = none := by
            intro h j hj
            cases j with
            | zero =>
                rw [Nat.zero_mul, Nat.add_zero]
                exact hloc
            | succ j =>
                rw [← hpages]
                exact h j (Nat.lt_of_succ_lt_succ hj)
          rcases ih (loc + pageSize) (paddr + pageSize)
              { m with pages := Function.update m.pages loc (some paddr) }
            with ⟨herr, hfree⟩ | ⟨hok, hfree⟩
          · refine Or.inl ⟨herr, fun h => hfree fun j hj => ?_⟩
            exact (hpages j).trans (h (j + 1) (Nat.succ_lt_succ hj))
          · refine Or.inr ⟨?_, hall hfree⟩
            have hlaid := laid_succ n loc (fun j => paddr + j * pageSize) m.pages
            have hf : (fun j => paddr + (j + 1) * pageSize) =
                fun j => paddr + pageSize + j * pageSize := by
              funext j
              unfold pageSize
              omega
            simp only [Nat.zero_mul, Nat.add_zero, hf] at hlaid
            rw [← hlaid]
            exact hok

theorem free_append {n k : Nat} : m.Free lo (n + k) ↔
    m.Free lo n ∧ m.Free (lo + n * pageSize) k := by
  unfold Free
  constructor
  · rintro ⟨hend, hnone⟩
    rw [Nat.add_mul, ← Nat.add_assoc] at hend
    refine ⟨⟨Nat.le_trans (Nat.le_add_right ..) hend, fun j hj => hnone j (by omega)⟩, hend,
      fun j hj => ?_⟩
    · have := hnone (n + j) (by omega)
      rwa [Nat.add_mul, ← Nat.add_assoc] at this
  · rintro ⟨⟨-, h1⟩, hend, h2⟩
    refine ⟨?_, fun j hj => ?_⟩
    · rw [Nat.add_mul, ← Nat.add_assoc]
      exact hend
    · by_cases hjn : j < n
      · exact h1 j hjn
      · have := h2 (j - n) (by omega)
        rwa [Nat.add_assoc, ← Nat.add_mul, Nat.add_sub_cancel' (Nat.le_of_not_lt hjn)] at this

/-- What is mapped elsewhere does not matter. -/
theorem free_congr {n : Nat} (h : ∀ v, lo ≤ v → m'.pages v = m.pages v) :
    m'.Free lo n ↔ m.Free lo n := by
  unfold Free
  refine and_congr_right fun _ => forall_congr' fun j => ?_
  rw [h _ (Nat.le_add_right ..)]

/-- New mappings leave the old ones as they are. -/
theorem translate_mono (h : ∀ v a, m.pages v = some a → m'.pages v = some a) {v a : Nat}
    (hv : m.translate v = some a) : m'.translate v = some a := by
  unfold translate at hv ⊢
  split
  next hlow =>
    rw [if_pos hlow] at hv
    exact hv
  next hlow =>
    rw [if_neg hlow, Option.map_eq_some_iff] at hv
    obtain ⟨b, hb, rfl⟩ := hv
    rw [h _ _ hb]
    rfl

theorem fetch_of_translate {p a : Nat} (h : m.translate p = some a) : m.fetch p = .ok a := by
  rw [fetch, h]

theorem mapPage_spec {loc paddr : Nat} (hmod : loc % pageSize = 0) (hpmod : paddr % pageSize = 0)
    (hlo : higherHalfStart ≤ loc) (hhi : loc ≤ fractalStart) (m : Machine) :
    ((∃ r, m.mapPage loc paddr = .error (.mapping r)) ∧ ¬m.Free loc 1) ∨
      m.mapPage loc paddr = .ok { m with pages := Function.update m.pages loc (some paddr) } ∧
        m.Free loc 1 := by
  unfold mapPage
  by_cases hill : Illegal loc
  · rw [if_pos hill]
    refine Or.inl ⟨⟨_, rfl⟩, fun hfree => ?_⟩
    have := hfree.1
    unfold pageSize at this
    unfold Illegal lowerHalfEnd at hill
    omega
  · rw [if_neg hill, if_neg (by omega), mapPageInternal]
    cases hloc : m.pages loc with
    | some a =>
        refine Or.inl ⟨⟨.pageMapped, rfl⟩, fun hfree => ?_⟩
        have := hfree.2 0 Nat.one_pos
        rw [Nat.zero_mul, Nat.add_zero, hloc] at this
        cases this
    | none =>
        refine Or.inr ⟨rfl, ?_, fun j hj => ?_⟩
        · -- the end of the heap is a page boundary
          have hne : loc ≠ fractalStart := by
            rintro rfl
            exact hill (Or.inl (by decide))
          unfold pageSize at hmod ⊢
          unfold fractalStart alienFractalIndex at hhi hne ⊢
          omega
        · obtain rfl : j = 0 := by omega
          rw [Nat.zero_mul, Nat.add_zero]
          exact hloc

/-- The descriptors from number `i` on, after their pages were moved. -/
def assigned (n i start loc : Nat) (subs : Nat → Nat) (d : Nat) : Nat :=
  if start + i * LargeFrameDescriptor.size ≤ d ∧
      d < start + (i + n) * LargeFrameDescriptor.size ∧
      (d - start) % LargeFrameDescriptor.size = 0 then
    loc + ((d - start) / LargeFrameDescriptor.size - i) * pageSize
  else subs d

theorem assigned_zero (i start loc : Nat) (subs : Nat → Nat) :
    assigned 0 i start loc subs = subs := by
  funext d
  unfold assigned
  rw [if_neg (by rw [Nat.add_zero]; omega)]

theorem assigned_succ (n i start loc : Nat) (subs : Nat → Nat) :
    assigned n (i + 1) start (loc + pageSize)
        (Function.update subs (start + i * LargeFrameDescriptor.size) loc) =
      assigned (n + 1) i start loc subs := by
  funext d
  unfold assigned
  rw [Function.update_apply]
  unfold LargeFrameDescriptor.size
  by_cases hd : d = start + i * 24
  · subst hd
    rw [if_neg (by omega), if_pos rfl, if_pos (by omega)]
    have : (start + i * 24 - start) / 24 - i = 0 := by omega
    rw [this, Nat.zero_mul, Nat.add_zero]
  · rw [if_neg hd]
    have hiff : (start + (i + 1) * 24 ≤ d ∧ d < start + (i + 1 + n) * 24 ∧
        (d - start) % 24 = 0) ↔ start + i * 24 ≤ d ∧ d < start + (i + (n + 1)) * 24 ∧
        (d - start) % 24 = 0 := by
      omega
    by_cases h : start + i * 24 ≤ d ∧ d < start + (i + (n + 1)) * 24 ∧ (d - start) % 24 = 0
    · rw [if_pos (hiff.mpr h), if_pos h]
      unfold pageSize
      omega
    · rw [if_neg fun h' => h (hiff.mp h'), if_neg h]

/-- The pages with the descriptors of small frames. -/
theorem relocateFrames_spec (n i map loc start : Nat) (m : Machine)
    (hmap : ∀ j < n, m.translate (map + (i + j) * LargeFrameDescriptor.size) =
      some (start + (i + j) * LargeFrameDescriptor.size))
    (hsub : ∀ j < n, m.subDescriptors (start + (i + j) * LargeFrameDescriptor.size) %
      pageSize = 0)
    (hmod : loc % pageSize = 0) (hlo : higherHalfStart ≤ loc) (hhi : loc ≤ fractalStart) :
    ((∃ r, m.relocateFrames n i map loc = .error (.mapping r)) ∧ ¬m.Free loc n) ∨
      m.relocateFrames n i map loc =
          .ok ({ m with
            pages := laid n loc
              (fun j => m.subDescriptors (start + (i + j) * LargeFrameDescriptor.size)) m.pages
            subDescriptors := assigned n i start loc m.subDescriptors }, loc + n * pageSize) ∧
        m.Free loc n := by
  induction n generalizing i loc m with
  | zero =>
      refine Or.inr ⟨?_, ?_, fun j hj => absurd hj (Nat.not_lt_zero j)⟩
      · rw [relocateFrames, laid_zero, assigned_zero, Nat.zero_mul, Nat.add_zero]
      · rw [Nat.zero_mul, Nat.add_zero]
        exact hhi
  | succ n ih =>
      have hfirst := hmap 0 (Nat.succ_pos n)
      have hpage := hsub 0 (Nat.succ_pos n)
      rw [Nat.add_zero] at hfirst hpage
      rw [relocateFrames, fetch_of_translate hfirst]
      simp only
      have hsplit : m.Free loc (n + 1) ↔ m.Free loc 1 ∧ m.Free (loc + pageSize) n := by
        rw [Nat.add_comm n 1, free_append, Nat.one_mul]
      rcases mapPage_spec hmod hpage hlo hhi m with ⟨⟨r, herr⟩, hfree⟩ | ⟨hok, hfree⟩
      · rw [herr]
        exact Or.inl ⟨⟨r, rfl⟩, fun h => hfree (hsplit.mp h).1⟩
      · rw [hok]
        simp only
        have hnone : m.pages loc = none := by
          have := hfree.2 0 Nat.one_pos
          rwa [Nat.zero_mul, Nat.add_zero] at this
        have hend := hfree.1
        rw [Nat.one_mul] at hend
        -- the later descriptors are where they were
        have hne : ∀ j, start + (i + 1 + j) * LargeFrameDescriptor.size ≠
            start + i * LargeFrameDescriptor.size := by
          intro j
          unfold LargeFrameDescriptor.size
          omega
        have hshift : ∀ j, i + 1 + j = i + (j + 1) := fun j => by omega
        generalize hm₁ : ({ m with
          pages := Function.update m.pages loc
            (some (m.subDescriptors (start + i * LargeFrameDescriptor.size)))
          subDescriptors := Function.update m.subDescriptors
            (start + i * LargeFrameDescriptor.size) loc } : Machine) = m₁
        have hpages₁ : m₁.pages = Function.update m.pages loc
            (some (m.subDescriptors (start + i * LargeFrameDescriptor.size))) := by
          rw [← hm₁]
        have hsubs₁ : m₁.subDescriptors = Function.update m.subDescriptors
            (start + i * LargeFrameDescriptor.size) loc := by
          rw [← hm₁]
        have hmono : ∀ v a, m.pages v = some a → m₁.pages v = some a := by
          intro v a hv
          rw [hpages₁, Function.update_of_ne]
          · exact hv
          · rintro rfl
            rw [hnone] at hv
            cases hv
        have hsubs : ∀ j, m₁.subDescriptors (start + (i + 1 + j) * LargeFrameDescriptor.size) =
            m.subDescriptors (start + (i + (j + 1)) * LargeFrameDescriptor.size) := by
          intro j
          rw [hsubs₁, Function.update_of_ne (hne j), hshift]
        have hfree₁ : m₁.Free (loc + pageSize) n ↔ m.Free (loc + pageSize) n := by
          refine free_congr fun v hv => ?_
          rw [hpages₁, Function.update_of_ne]
          unfold pageSize at hv
          omega
        rcases ih (i + 1) (loc + pageSize) m₁
            (fun j hj => by
              rw [hshift]
              exact translate_mono hmono (hmap (j + 1) (Nat.succ_lt_succ hj)))
            (fun j hj => by
              rw [hsubs]
              exact hsub (j + 1) (Nat.succ_lt_succ hj))
            (by unfold pageSize at hmod ⊢; omega) (by omega) hend
          with ⟨herr, hfree'⟩ | ⟨hok', hfree'⟩
        · exact Or.inl ⟨herr, fun h => hfree' (hfree₁.mpr (hsplit.mp h).2)⟩
        · refine Or.inr ⟨?_, hsplit.mpr ⟨hfree, hfree₁.mp hfree'⟩⟩
          rw [hok']
          have hlaid := laid_succ n loc
            (fun j => m.subDescriptors (start + (i + j) * LargeFrameDescriptor.size)) m.pages
          simp only [Nat.add_zero] at hlaid
          have hfun : (fun j => m₁.subDescriptors
              (start + (i + 1 + j) * LargeFrameDescriptor.size)) =
              fun j => m.subDescriptors (start + (i + (j + 1)) * LargeFrameDescriptor.size) :=
            funext hsubs
          have hnext : loc + pageSize + n * pageSize = loc + (n + 1) * pageSize := by
            rw [Nat.succ_mul]
            omega
          rw [hfun, hpages₁, hlaid, hsubs₁, assigned_succ, hnext, ← hm₁]

theorem mapRange_spec {loc paddr : Nat} (n : Nat) (hmod : loc % pageSize = 0)
    (hpmod : paddr % pageSize = 0) (hlo : higherHalfStart ≤ loc) (hhi : loc ≤ fractalStart)
    (m : Machine) :
    ((∃ r, m.mapRange loc paddr (n * pageSize) = .error (.mapping r)) ∧ ¬m.Free loc n) ∨
      m.mapRange loc paddr (n * pageSize) =
          .ok { m with pages := laid n loc (fun j => paddr + j * pageSize) m.pages } ∧
        m.Free loc n := by
  unfold mapRange
  by_cases hfits : loc + n * pageSize ≤ fractalStart
  · have hlegal : ¬((loc + n * pageSize > fractalStart ∧ loc < fractalEnd) ∨
        (loc + n * pageSize > lowerHalfEnd ∧ loc < higherHalfStart)) := by
      rintro (⟨h, -⟩ | ⟨-, h⟩)
      · exact Nat.not_le_of_lt h hfits
      · exact Nat.not_le_of_lt h hlo
    have hsize : n * pageSize % pageSize = 0 := Nat.mul_mod_left ..
    have hdiv : n * pageSize / pageSize = n := Nat.mul_div_cancel n (by decide)
    rw [if_neg hlegal, if_neg (by simp [hmod, hpmod, hsize]), hdiv]
    rcases mapPages_spec n loc paddr m with ⟨herr, hfree⟩ | ⟨hok, hfree⟩
    · exact Or.inl ⟨herr, fun h => hfree h.2⟩
    · exact Or.inr ⟨hok, hfits, hfree⟩
  · have hend : fractalStart < fractalEnd := by decide
    rw [if_pos (Or.inl ⟨Nat.lt_of_not_le hfits, Nat.lt_of_le_of_lt hhi hend⟩)]
    exact Or.inl ⟨⟨_, rfl⟩, fun h => hfits h.1⟩

theorem laid_mono {n loc : Nat} {f : Nat → Nat} {pages : Nat → Option Nat}
    (hfree : ∀ j < n, pages (loc + j * pageSize) = none) {v a : Nat} (hv : pages v = some a) :
    laid n loc f pages v = some a := by
  unfold laid
  rw [if_neg]
  · exact hv
  · rintro ⟨hle, hlt, hmod⟩
    have hnone := hfree ((v - loc) / pageSize) (by unfold pageSize at hlt hmod ⊢; omega)
    have heq : loc + (v - loc) / pageSize * pageSize = v := by
      unfold pageSize at hmod ⊢
      omega
    rw [heq, hv] at hnone
    cases hnone

theorem laid_of_ge {n loc : Nat} {f : Nat → Nat} {pages : Nat → Option Nat} {v : Nat}
    (hv : loc + n * pageSize ≤ v) : laid n loc f pages v = pages v := by
  unfold laid
  rw [if_neg fun h => Nat.not_le_of_lt h.2.1 hv]

/-- A byte of the pages that were laid out. -/
theorem translate_laid {n loc : Nat} {f : Nat → Nat} {pages : Nat → Option Nat}
    (hpages : m.pages = laid n loc f pages) (hmod : loc % pageSize = 0)
    (hlo : higherHalfStart ≤ loc) {j b : Nat} (hj : j < n) (hb : b < pageSize) :
    m.translate (loc + j * pageSize + b) = some (f j + b) := by
  have hge : ¬loc + j * pageSize + b < lowerHalfEnd := by
    have : lowerHalfEnd ≤ higherHalfStart := by decide
    intro h
    exact absurd (Nat.le_trans this hlo) (Nat.not_le_of_lt (by omega))
  have hoff : (loc + j * pageSize + b) % pageSize = b := by
    unfold pageSize at *
    omega
  have hbase : loc + j * pageSize + b - b = loc + j * pageSize := Nat.add_sub_cancel ..
  have hin : loc ≤ loc + j * pageSize ∧ loc + j * pageSize < loc + n * pageSize ∧
      (loc + j * pageSize - loc) % pageSize = 0 := by
    unfold pageSize
    omega
  have hdiv : (loc + j * pageSize - loc) / pageSize = j := by
    unfold pageSize
    omega
  rw [translate, if_neg hge, hoff, hbase, hpages, laid, if_pos hin, hdiv]
  rfl

/-! ## One space -/

/-- The structures of the space are still where they were made. -/
structure Pending (m : Machine) (e : Layout) : Prop where
  memoryStart : (m.spaces e.addr).memoryStart = e.memoryStart
  controlAreaSize : (m.spaces e.addr).controlAreaSize =
    e.largeFrameCount * LargeFrameDescriptor.size
  largeFrameCount : (m.spaces e.addr).largeFrameCount = e.largeFrameCount
  sub : ∀ i < e.largeFrameCount, m.subDescriptors (e.desc i) = e.page i

/-- The structures of the space are in the virtual memory from `lo` on. -/
structure Settled (m : Machine) (e : Layout) (lo : Nat) : Prop where
  map : (m.spaces e.addr).map = lo
  sub : ∀ i < e.largeFrameCount, m.subDescriptors (e.desc i) = lo + e.controlSize + i * pageSize
  control : ∀ b < e.controlSize, m.translate (lo + b) = some (e.memoryStart + b)
  pages : ∀ i < e.largeFrameCount, ∀ b < pageSize,
    m.translate (lo + e.controlSize + i * pageSize + b) = some (e.page i + b)

/-- A step that moves the structures of some spaces, up to `hi`. -/
structure Touches (m m' : Machine) (es : List Layout) (hi : Nat) : Prop where
  translate : ∀ {v a : Nat}, m.translate v = some a → m'.translate v = some a
  allocators : m'.allocators = m.allocators
  mainAllocator : m'.mainAllocator = m.mainAllocator
  record : ∀ a, m'.spaces a = (m.spaces a).setMap (m'.spaces a).map
  spaces : ∀ a, a ∉ es.map Layout.addr → m'.spaces a = m.spaces a
  sub : ∀ d, (∀ e ∈ es, ¬e.Holds d) → m'.subDescriptors d = m.subDescriptors d
  pages : ∀ v, hi ≤ v → m'.pages v = m.pages v

/-- The number of pages that the structures of a space take. -/
def pageCount (e : Layout) : Nat := e.controlSize / pageSize + e.largeFrameCount

theorem pageCount_mul (e : Layout) : pageCount e * pageSize = e.span := by
  have := e.controlSize_mod
  unfold pageCount Layout.span
  unfold pageSize at this ⊢
  omega

theorem update_setMap (f : Nat → SpaceRecord) (a p b : Nat) :
    Function.update f a ((f a).setMap p) b =
      (f b).setMap (Function.update f a ((f a).setMap p) b).map := by
  by_cases hb : b = a
  · subst hb
    rw [Function.update_self]
    rfl
  · rw [Function.update_of_ne hb]
    rfl

/-- Moving one space. -/
theorem relocateSpace_spec {cur : Nat} (hp : m.Pending e) (ha : e.Aligned)
    (hcur : m.translate cur = some e.addr) (hmod : lo % pageSize = 0)
    (hlo : higherHalfStart ≤ lo) (hhi : lo ≤ fractalStart) :
    ((∃ r, m.relocateSpace cur lo = .error (.mapping r)) ∧ ¬m.Free lo (pageCount e)) ∨
      ∃ m', m.relocateSpace cur lo = .ok (m', lo + e.span) ∧ m.Free lo (pageCount e) ∧
        m'.Settled e lo ∧ m.Touches m' [e] (lo + e.span) := by
  have hcmod := e.controlSize_mod
  have hcdiv : e.controlSize / pageSize * pageSize = e.controlSize := by
    unfold pageSize at hcmod ⊢
    omega
  have hsize : ((m.spaces e.addr).controlAreaSize + (pageSize - 1)) / pageSize * pageSize =
      e.controlSize / pageSize * pageSize := by
    rw [hp.controlAreaSize, hcdiv]
    rfl
  unfold relocateSpace
  rw [fetch_of_translate hcur]
  simp only [hsize, hp.memoryStart, hp.largeFrameCount]
  have hfree_iff : m.Free lo (pageCount e) ↔ m.Free lo (e.controlSize / pageSize) ∧
      m.Free (lo + e.controlSize) e.largeFrameCount := by
    rw [pageCount, free_append, hcdiv]
  rcases mapRange_spec (e.controlSize / pageSize) hmod ha.start hlo hhi m
    with ⟨⟨r, herr⟩, hfree⟩ | ⟨hok, hfree⟩
  · rw [herr]
    exact Or.inl ⟨⟨r, rfl⟩, fun h => hfree (hfree_iff.mp h).1⟩
  rw [hok, hcdiv]
  simp only
  generalize hm₁ : ({ m with
    pages := laid (e.controlSize / pageSize) lo (fun j => e.memoryStart + j * pageSize) m.pages
    spaces := Function.update m.spaces e.addr ((m.spaces e.addr).setMap lo) } : Machine) = m₁
  have hpages₁ : m₁.pages = laid (e.controlSize / pageSize) lo
      (fun j => e.memoryStart + j * pageSize) m.pages := by
    rw [← hm₁]
  have hsubs₁ : m₁.subDescriptors = m.subDescriptors := by
    rw [← hm₁]
  have hmono₁ : ∀ v a, m.pages v = some a → m₁.pages v = some a := by
    intro v a hv
    rw [hpages₁]
    exact laid_mono hfree.2 hv
  have hcontrol₁ : ∀ b < e.controlSize, m₁.translate (lo + b) = some (e.memoryStart + b) := by
    intro b hb
    have h := translate_laid hpages₁ hmod hlo (j := b / pageSize) (b := b % pageSize)
      (by unfold pageSize at hcmod ⊢; omega) (Nat.mod_lt _ (by decide))
    rwa [Nat.add_assoc, Nat.div_add_mod', Nat.add_assoc, Nat.div_add_mod'] at h
  have hend := hfree.1
  rw [hcdiv] at hend
  have hfree₁ : m₁.Free (lo + e.controlSize) e.largeFrameCount ↔
      m.Free (lo + e.controlSize) e.largeFrameCount := by
    refine free_congr fun v hv => ?_
    rw [hpages₁, laid_of_ge]
    rw [hcdiv]
    exact hv
  have hsubeq : ∀ i < e.largeFrameCount,
      m₁.subDescriptors (e.memoryStart + i * LargeFrameDescriptor.size) = e.page i := by
    intro i hi
    rw [hsubs₁]
    exact hp.sub i hi
  rcases relocateFrames_spec e.largeFrameCount 0 lo (lo + e.controlSize) e.memoryStart m₁
      (fun j hj => by
        rw [Nat.zero_add]
        exact hcontrol₁ _ (e.desc_lt hj))
      (fun j hj => by
        rw [Nat.zero_add, hsubeq j hj]
        exact ha.page j hj)
      (by unfold pageSize at hmod hcmod ⊢; omega) (Nat.le_trans hlo (Nat.le_add_right ..)) hend
    with ⟨herr, hfree'⟩ | ⟨hok', hfree'⟩
  · exact Or.inl ⟨herr, fun h => hfree' (hfree₁.mpr (hfree_iff.mp h).2)⟩
  rw [hok', Nat.add_assoc]
  generalize hm₂ : ({ m₁ with
    pages := laid e.largeFrameCount (lo + e.controlSize)
      (fun j => m₁.subDescriptors (e.memoryStart + (0 + j) * LargeFrameDescriptor.size)) m₁.pages
    subDescriptors := assigned e.largeFrameCount 0 e.memoryStart (lo + e.controlSize)
      m₁.subDescriptors } : Machine) = m₂
  have hpages₂ : m₂.pages = laid e.largeFrameCount (lo + e.controlSize)
      (fun j => m₁.subDescriptors (e.memoryStart + (0 + j) * LargeFrameDescriptor.size))
      m₁.pages := by
    rw [← hm₂]
  have hsubs₂ : m₂.subDescriptors = assigned e.largeFrameCount 0 e.memoryStart
      (lo + e.controlSize) m₁.subDescriptors := by
    rw [← hm₂]
  have hspaces₂ : m₂.spaces =
      Function.update m.spaces e.addr ((m.spaces e.addr).setMap lo) := by
    rw [← hm₂, ← hm₁]
  have hmono₂ : ∀ v a, m₁.pages v = some a → m₂.pages v = some a := by
    intro v a hv
    rw [hpages₂]
    exact laid_mono hfree'.2 hv
  refine Or.inr ⟨m₂, rfl, hfree_iff.mpr ⟨hfree, hfree₁.mp hfree'⟩, ?_, ?_⟩
  · -- the space has moved
    constructor
    case map =>
      rw [hspaces₂, Function.update_self]
      rfl
    case sub =>
      intro i hi
      rw [hsubs₂]
      unfold assigned Layout.desc LargeFrameDescriptor.size
      rw [if_pos (by omega)]
      have : (e.memoryStart + i * 24 - e.memoryStart) / 24 - 0 = i := by omega
      rw [this]
    case control =>
      intro b hb
      exact translate_mono hmono₂ (hcontrol₁ b hb)
    case pages =>
      intro i hi b hb
      have hmod₂ : (lo + e.controlSize) % pageSize = 0 := by
        unfold pageSize at hmod hcmod ⊢
        omega
      have h := translate_laid hpages₂ hmod₂ (Nat.le_trans hlo (Nat.le_add_right ..)) hi hb
      rw [Nat.zero_add, hsubeq i hi] at h
      exact h
  · constructor
    case translate =>
      intro v a hv
      exact translate_mono hmono₂ (translate_mono hmono₁ hv)
    case allocators => rw [← hm₂, ← hm₁]
    case mainAllocator => rw [← hm₂, ← hm₁]
    case record =>
      rw [hspaces₂]
      exact update_setMap m.spaces e.addr lo
    case spaces =>
      intro a hne
      rw [hspaces₂, Function.update_of_ne]
      rintro rfl
      exact hne (by simp)
    case sub =>
      intro d hd
      rw [hsubs₂, assigned, hsubs₁, if_neg]
      rintro ⟨h1, h2, -⟩
      refine hd e (by simp) ⟨?_, ?_⟩
      · omega
      · rwa [Nat.zero_add] at h2
    case pages =>
      intro v hv
      rw [Layout.span, ← Nat.add_assoc] at hv
      rw [hpages₂, laid_of_ge hv, hpages₁, laid_of_ge]
      rw [hcdiv]
      exact Nat.le_trans (Nat.le_add_right ..) hv

/-! ## All spaces -/

/-- The spaces are settled one after the other. -/
def SettledAll (m : Machine) : List Layout → Nat → Prop
  | [], _ => True
  | e :: es, lo => m.Settled e lo ∧ m.SettledAll es (lo + e.span)

/-- The pages that the structures of some spaces take. -/
def pageCounts : List Layout → Nat
  | [] => 0
  | e :: es => pageCount e + pageCounts es

/-- Each space leads to the one after it. -/
def Sequence (m : Machine) : List Layout → Prop
  | [] => True
  | [e] => (m.spaces e.addr).next = 0
  | e :: e' :: es => ((m.spaces e.addr).next ≠ 0 ∧
      m.translate (m.spaces e.addr).next = some e'.addr) ∧ m.Sequence (e' :: es)

/-- The structures of the spaces are apart from each other. -/
structure Apart (es : List Layout) : Prop where
  addr : (es.map Layout.addr).Nodup
  holds : es.Pairwise fun e e' => ∀ d, e.Holds d → ¬e'.Holds d

theorem Apart.tail (h : Apart (e :: es)) : Apart es :=
  ⟨(List.nodup_cons.mp h.addr).2, (List.pairwise_cons.mp h.holds).2⟩

theorem Apart.head_addr (h : Apart (e :: es)) : e.addr ∉ es.map Layout.addr :=
  (List.nodup_cons.mp h.addr).1

theorem Apart.head_holds (h : Apart (e :: es)) {e' : Layout} (he' : e' ∈ es) {d : Nat}
    (hd : e.Holds d) : ¬e'.Holds d :=
  (List.pairwise_cons.mp h.holds).1 e' he' d hd

theorem Touches.trans (h : m.Touches m' [e] lo) (h' : m'.Touches m'' es hi) (hle : lo ≤ hi) :
    m.Touches m'' (e :: es) hi where
  translate hv := h'.translate (h.translate hv)
  allocators := h'.allocators.trans h.allocators
  mainAllocator := h'.mainAllocator.trans h.mainAllocator
  record a := by
    rw [h'.record a, h.record a]
    rfl
  spaces a ha := by
    rw [h'.spaces a fun h => ha (List.mem_cons_of_mem _ h), h.spaces a fun h => ha (by simp_all)]
  sub d hd := by
    rw [h'.sub d fun e' he' => hd e' (List.mem_cons_of_mem _ he'), h.sub d fun e' he' => ?_]
    exact hd e' (by simp_all)
  pages v hv := (h'.pages v hv).trans (h.pages v (Nat.le_trans hle hv))

/-- The spaces that were not touched wait as before. -/
theorem Touches.pending (h : m.Touches m' [e] lo) (ha : Apart (e :: es)) {e' : Layout}
    (he' : e' ∈ es) (hp : m.Pending e') : m'.Pending e' := by
  have hspaces : m'.spaces e'.addr = m.spaces e'.addr := by
    refine h.spaces _ fun hmem => ha.head_addr ?_
    rw [← List.mem_singleton.mp hmem]
    exact List.mem_map_of_mem he'
  constructor
  case sub =>
    intro i hi
    rw [h.sub _ fun x hx hd => ?_]
    · exact hp.sub i hi
    · obtain rfl := List.mem_singleton.mp hx
      exact ha.head_holds he' hd (e'.holds_desc hi)
  all_goals rw [hspaces]
  · exact hp.memoryStart
  · exact hp.controlAreaSize
  · exact hp.largeFrameCount

/-- A space that has moved stays where it is. -/
theorem Touches.settled (h : m.Touches m' es hi) (ha : Apart (e :: es)) (hs : m.Settled e lo) :
    m'.Settled e lo where
  map := by
    rw [h.spaces _ ha.head_addr]
    exact hs.map
  sub i hi := by
    rw [h.sub _ fun e' he' => ha.head_holds he' (e.holds_desc hi)]
    exact hs.sub i hi
  control b hb := h.translate (hs.control b hb)
  pages i hi b hb := h.translate (hs.pages i hi b hb)

/-- Moving structures leaves the order of the spaces as it is. -/
theorem Touches.sequence {xs : List Layout} (h : m.Touches m' xs hi) (hl : m.Sequence es) :
    m'.Sequence es := by
  have hnext : ∀ a, (m'.spaces a).next = (m.spaces a).next := by
    intro a
    rw [h.record a]
    rfl
  induction es with
  | nil => trivial
  | cons e es ih =>
      cases es with
      | nil =>
          show (m'.spaces e.addr).next = 0
          rw [hnext]
          exact hl
      | cons e' es =>
          obtain ⟨⟨hne, htr⟩, hrest⟩ := hl
          refine ⟨?_, ih hrest⟩
          rw [hnext]
          exact ⟨hne, h.translate htr⟩

/-- One round of the loop, once the page with the links has moved. -/
theorem relocate_step (fuel n cur : Nat) (m : Machine) :
    m.relocate fuel (n + 1) cur false lo =
      match m.relocateSpace cur lo with
      | .error f => .error f
      | .ok (m', lo) =>
          match m'.fetch cur with
          | .error f => .error f
          | .ok a =>
              if (m'.spaces a).next = 0 then .ok (m', lo)
              else relocate fuel n (m'.spaces a).next false lo m' := by
  cases hspace : m.relocateSpace cur lo with
  | error f => simp [relocate, hspace]
  | ok r =>
      cases hfetch : r.1.fetch cur with
      | error f => simp [relocate, hspace, hfetch]
      | ok a => simp [relocate, hspace, hfetch]

/-- The loop from then on. -/
theorem relocate_spec (fuel n cur : Nat) (hn : es.length < n)
    (hcur : m.translate cur = some e.addr) (hseq : m.Sequence (e :: es))
    (hpend : ∀ x ∈ e :: es, m.Pending x) (halign : ∀ x ∈ e :: es, x.Aligned)
    (hapart : Apart (e :: es)) (hmod : lo % pageSize = 0)
    (hlo : higherHalfStart ≤ lo) (hhi : lo ≤ fractalStart) :
    ((∃ r, m.relocate fuel n cur false lo = .error (.mapping r)) ∧
        ¬m.Free lo (pageCounts (e :: es))) ∨
      ∃ m', m.relocate fuel n cur false lo =
          .ok (m', lo + pageCounts (e :: es) * pageSize) ∧
        m.Free lo (pageCounts (e :: es)) ∧ m'.SettledAll (e :: es) lo ∧
        m.Touches m' (e :: es) (lo + pageCounts (e :: es) * pageSize) := by
  induction es generalizing e n cur m lo with
  | nil =>
      obtain ⟨n, rfl⟩ := Nat.exists_eq_succ_of_ne_zero (Nat.ne_of_gt hn)
      rw [relocate_step]
      have hcount : pageCounts [e] = pageCount e := rfl
      rw [hcount, pageCount_mul]
      rcases relocateSpace_spec (hpend e (by simp)) (halign e (by simp)) hcur hmod hlo hhi
        with ⟨⟨r, herr⟩, hfree⟩ | ⟨m₁, hok, hfree, hset, htouch⟩
      · rw [herr]
        exact Or.inl ⟨⟨r, rfl⟩, hfree⟩
      · have hnext : (m₁.spaces e.addr).next = 0 := htouch.sequence hseq
        rw [hok]
        simp only
        rw [fetch_of_translate (htouch.translate hcur)]
        simp only
        rw [if_pos hnext]
        exact Or.inr ⟨m₁, rfl, hfree, ⟨hset, trivial⟩, htouch⟩
  | cons e' es ih =>
      obtain ⟨n, rfl⟩ := Nat.exists_eq_succ_of_ne_zero (Nat.ne_of_gt (Nat.zero_lt_of_lt hn))
      rw [relocate_step]
      have hsplit : m.Free lo (pageCounts (e :: e' :: es)) ↔ m.Free lo (pageCount e) ∧
          m.Free (lo + e.span) (pageCounts (e' :: es)) := by
        rw [pageCounts, free_append, pageCount_mul]
      have hsum : lo + pageCounts (e :: e' :: es) * pageSize =
          lo + e.span + pageCounts (e' :: es) * pageSize := by
        rw [pageCounts, Nat.add_mul, pageCount_mul, Nat.add_assoc]
      rcases relocateSpace_spec (hpend e (by simp)) (halign e (by simp)) hcur hmod hlo hhi
        with ⟨⟨r, herr⟩, hfree⟩ | ⟨m₁, hok, hfree, hset, htouch⟩
      · rw [herr]
        exact Or.inl ⟨⟨r, rfl⟩, fun h => hfree (hsplit.mp h).1⟩
      · obtain ⟨⟨hne, htr⟩, hseq₁⟩ := htouch.sequence hseq
        have hfree₁ : m₁.Free (lo + e.span) (pageCounts (e' :: es)) ↔
            m.Free (lo + e.span) (pageCounts (e' :: es)) := free_congr htouch.pages
        have hend := hfree.1
        rw [pageCount_mul] at hend
        have hmod₁ : (lo + e.span) % pageSize = 0 := by
          rw [Nat.add_mod, hmod, e.span_mod]
          rfl
        rw [hok]
        simp only
        rw [fetch_of_translate (htouch.translate hcur)]
        simp only
        rw [if_neg hne]
        rcases ih n (m₁.spaces e.addr).next (Nat.lt_of_succ_lt_succ hn) htr hseq₁
            (fun x hx => htouch.pending hapart hx (hpend x (List.mem_cons_of_mem _ hx)))
            (fun x hx => halign x (List.mem_cons_of_mem _ hx)) hapart.tail hmod₁
            (Nat.le_trans hlo (Nat.le_add_right ..)) hend
          with ⟨herr, hno⟩ | ⟨m₂, hok₂, hfree₂, hset₂, htouch₂⟩
        · exact Or.inl ⟨herr, fun h => hno (hfree₁.mpr (hsplit.mp h).2)⟩
        · refine Or.inr ⟨m₂, ?_, hsplit.mpr ⟨hfree, hfree₁.mp hfree₂⟩,
            ⟨htouch₂.settled hapart hset, hset₂⟩, ?_⟩
          · rw [hsum]
            exact hok₂
          · rw [hsum]
            exact htouch.trans htouch₂ (Nat.le_add_right ..)

end Machine

end Beelzebub.Memory
