import Beelzebub.Execution.Elf
import Mathlib

/-!
# What an accepted image keeps to

The checks are made on sums of 64 bits.  An accepted image is self-contained exactly if none of its
sums is too large for them.
-/

namespace Beelzebub.Execution

variable {σ : Type} {mem : Memory} {segval : Option (SegmentValidator σ)}

/-! ## What is asked -/

/-- The addresses of a range, as natural numbers. -/
def PointerAndSize.toSet (r : PointerAndSize) : Set ℕ :=
  Set.Ico r.start.toNat (r.start.toNat + r.size.toNat)

/-- The first address behind a range. -/
def PointerAndSize.endNat (r : PointerAndSize) : ℕ := r.start.toNat + r.size.toNat

/-- A range lies in another one. -/
def PointerAndSize.Inside (r s : PointerAndSize) : Prop :=
  s.start.toNat ≤ r.start.toNat ∧ r.endNat ≤ s.endNat

def ElfProgramHeader64.IsLoad (phdr : ElfProgramHeader64) : Prop := phdr.type = typeLoad

def ElfProgramHeader64.IsTls (phdr : ElfProgramHeader64) : Prop := phdr.type = typeTls

/-- The guarantees for an image, and for the object that it was parsed into. -/
structure SelfContained (mem : Memory) (image elf : Elf) : Prop where
  table : (image.programHeaderTableOffset mem).toNat +
    (image.programHeaderTableEntryCount mem).toNat * 56 ≤ image.size.toNat
  segments : ∀ p ∈ image.phdrs mem, p.offset.toNat + p.pSize.toNat ≤ image.size.toNat
  unwrapped : ∀ p ∈ image.phdrs mem, p.IsLoad → p.range.endNat ≤ 2 ^ 64
  disjoint : (image.phdrs mem).Pairwise fun p q =>
    p.IsLoad → q.IsLoad → Disjoint p.range.toSet q.range.toSet
  base : IsLeast {a | ∃ p ∈ image.phdrs mem, p.IsLoad ∧ a = p.range.start.toNat}
    elf.baseAddress.toNat
  greatest : IsGreatest {a | ∃ p ∈ image.phdrs mem, p.IsLoad ∧ a = p.range.endNat}
    elf.endAddress.toNat
  inside : ∀ p ∈ image.phdrs mem, ¬ p.IsLoad → ¬ p.IsTls →
    ∃ q ∈ image.phdrs mem, q.IsLoad ∧ p.range.Inside q.range

/-- No sum is too large. -/
structure Fits (mem : Memory) (image : Elf) : Prop where
  table : (image.programHeaderTableOffset mem).toNat +
    (image.programHeaderTableEntryCount mem).toNat * 56 < 2 ^ 64
  segments : ∀ p ∈ image.phdrs mem, p.offset.toNat + p.pSize.toNat < 2 ^ 64
  loads : ∀ p ∈ image.phdrs mem, p.IsLoad → p.range.endNat < 2 ^ 64

/-! ## Ranges -/

theorem toNat_add_of_lt {a b : UInt64} (h : a.toNat + b.toNat < 2 ^ 64) :
    (a + b).toNat = a.toNat + b.toNat := by
  rw [UInt64.toNat_add, Nat.mod_eq_of_lt h]

/-- The start and the end of an intersection. -/
theorem intersect_spec {a b : PointerAndSize} (h : (intersectMemoryRanges a b).size ≠ 0) :
    (intersectMemoryRanges a b).start.toNat = max a.start.toNat b.start.toNat ∧
    (intersectMemoryRanges a b).endNat =
      min (a.start + a.size).toNat (b.start + b.size).toNat := by
  unfold PointerAndSize.endNat
  unfold intersectMemoryRanges at h ⊢
  dsimp only at h ⊢
  split at h
  next => exact absurd rfl h
  next hlt =>
    rw [if_neg hlt]
    have hlt' := UInt64.lt_iff_toNat_lt.mp (UInt64.not_le.mp hlt)
    rw [UInt64.toNat_sub_of_le _ _ (UInt64.le_of_lt (UInt64.not_le.mp hlt))]
    refine ⟨UInt64.toNat_max _ _, ?_⟩
    rw [Nat.add_sub_of_le (Nat.le_of_lt hlt'), UInt64.toNat_min]

theorem intersect_inside {a b : PointerAndSize} (h : (intersectMemoryRanges a b).size ≠ 0)
    (hstart : (intersectMemoryRanges a b).start = a.start)
    (hsize : (intersectMemoryRanges a b).size = a.size) : a.Inside b := by
  obtain ⟨hmax, hmin⟩ := intersect_spec h
  unfold PointerAndSize.endNat at hmin
  rw [hstart] at hmax hmin
  rw [hsize] at hmin
  have hwrapped : (b.start + b.size).toNat ≤ b.endNat := by
    rw [UInt64.toNat_add]
    exact Nat.mod_le _ _
  constructor
  · rw [hmax]
    exact Nat.le_max_right _ _
  · calc a.endNat = min (a.start + a.size).toNat (b.start + b.size).toNat := hmin
      _ ≤ (b.start + b.size).toNat := Nat.min_le_right _ _
      _ ≤ b.endNat := hwrapped

/-- Where nothing wraps around, ranges with an empty intersection are disjoint. -/
theorem disjoint_of_intersect {a b : PointerAndSize} (ha : a.endNat < 2 ^ 64)
    (hb : b.endNat < 2 ^ 64) (h : (intersectMemoryRanges a b).size = 0) :
    Disjoint a.toSet b.toSet := by
  have hle : min a.endNat b.endNat ≤ max a.start.toNat b.start.toNat := by
    unfold PointerAndSize.endNat at ha hb ⊢
    rw [← toNat_add_of_lt ha, ← toNat_add_of_lt hb, ← UInt64.toNat_max, ← UInt64.toNat_min]
    refine UInt64.le_iff_toNat_le.mp ?_
    unfold intersectMemoryRanges at h
    dsimp only at h
    split at h
    next hle => exact hle
    next hlt =>
      have hlt' := UInt64.lt_iff_toNat_lt.mp (UInt64.not_le.mp hlt)
      have hzero := congrArg UInt64.toNat h
      rw [UInt64.toNat_sub_of_le _ _ (UInt64.le_of_lt (UInt64.not_le.mp hlt))] at hzero
      exact absurd (Nat.sub_eq_zero_iff_le.mp hzero) (Nat.not_le.mpr hlt')
  refine Set.disjoint_left.mpr ?_
  rintro x ⟨hax, hxa⟩ ⟨hbx, hxb⟩
  have hmax : max a.start.toNat b.start.toNat ≤ x := Nat.max_le.mpr ⟨hax, hbx⟩
  have hmin : x < min a.endNat b.endNat := Nat.lt_min.mpr ⟨hxa, hxb⟩
  exact absurd (Nat.lt_of_lt_of_le hmin (Nat.le_trans hle hmax)) (Nat.lt_irrefl x)

/-- A range that is loaded lies in a load segment. -/
theorem checkRange_inside {range : PointerAndSize} {phdrs : List ElfProgramHeader64}
    (habsent : checkRange range .none phdrs ≠ .completelyAbsent)
    (hpart : checkRange range .none phdrs ≠ .partiallyLoaded) :
    ∃ q ∈ phdrs, q.IsLoad ∧ range.Inside q.range := by
  induction phdrs with
  | nil => exact absurd rfl habsent
  | cons load rest ih =>
      have hrest (h : checkRange range .none (load :: rest) = checkRange range .none rest) :
          ∃ q ∈ load :: rest, q.IsLoad ∧ range.Inside q.range := by
        obtain ⟨q, hq, hload⟩ := ih (h ▸ habsent) (h ▸ hpart)
        exact ⟨q, List.mem_cons_of_mem _ hq, hload⟩
      rw [checkRange] at habsent hpart hrest
      split at hrest
      next => exact hrest rfl
      next htype =>
        dsimp only at hrest
        split at hrest
        next => exact hrest rfl
        next hsize =>
          rw [if_neg htype] at hpart
          dsimp only at hpart
          rw [if_neg hsize] at hpart
          split at hpart
          next hwhole =>
            refine ⟨load, List.mem_cons_self, not_not.mp htype, ?_⟩
            exact intersect_inside hsize hwhole.1 hwhole.2
          next => exact absurd rfl hpart

/-! ## The first loop -/

/-- What the loop has made sure of, for the segments before. -/
structure Gathered.Sound (image : Elf) (before : List ElfProgramHeader64) (g : Gathered σ) : Prop
    where
  size : g.elf.size = image.size
  start : g.elf.start = image.start
  segments : ∀ p ∈ before, p.offset + p.pSize ≤ image.size
  apart : before.Pairwise fun p q =>
    p.IsLoad → q.IsLoad → (intersectMemoryRanges q.range p.range).size = 0
  base_le : ∀ p ∈ before, p.IsLoad → g.elf.baseAddress ≤ p.vAddr
  base_mem : g.elf.baseAddress = 0xFFFFFFFFFFFFFFFF ∨
    ∃ p ∈ before, p.IsLoad ∧ g.elf.baseAddress = p.vAddr
  le_end : ∀ p ∈ before, p.IsLoad → p.vAddr + p.vSize ≤ g.elf.endAddress
  end_mem : g.elf.endAddress = 0 ∨
    ∃ p ∈ before, p.IsLoad ∧ g.elf.endAddress = p.vAddr + p.vSize
  count : 0 < g.loadableCount → ∃ p ∈ before, p.IsLoad

variable {image : Elf} {before : List ElfProgramHeader64} {phdr : ElfProgramHeader64}
variable {g g' : Gathered σ}

/-- What taking a segment does. -/
theorem take_cases {address : UInt64} (h : g.take segval before address phdr = .ok g') :
    phdr.offset + phdr.pSize ≤ g.elf.size ∧
    ((phdr.IsLoad ∧ overlaps phdr before = false ∧ ∃ valdata,
      g' = ⟨{ g.elf with
          baseAddress := min phdr.vAddr g.elf.baseAddress
          endAddress := max (phdr.vAddr + phdr.vSize) g.elf.endAddress },
        g.dts, g.loadableCount + 1, valdata⟩) ∨
    (¬ phdr.IsLoad ∧ g'.elf.size = g.elf.size ∧ g'.elf.start = g.elf.start ∧
      g'.elf.baseAddress = g.elf.baseAddress ∧ g'.elf.endAddress = g.elf.endAddress ∧
      g'.loadableCount = g.loadableCount)) := by
  obtain ⟨hsize, ⟨hload, htake⟩ | ⟨hdynamic, rfl⟩ | ⟨hload, -, tls64, rfl⟩⟩ := Gathered.take_eq_ok h
  · exact ⟨hsize, .inl ⟨hload, Gathered.load_eq_ok htake⟩⟩
  · refine ⟨hsize, .inr ⟨fun hload => ?_, rfl, rfl, rfl, rfl, rfl⟩⟩
    exact absurd (hdynamic.symm.trans hload) (by decide)
  · exact ⟨hsize, .inr ⟨hload, rfl, rfl, rfl, rfl, rfl⟩⟩

theorem overlaps_eq_false (h : overlaps phdr before = false) :
    ∀ p ∈ before, p.IsLoad → (intersectMemoryRanges phdr.range p.range).size = 0 := by
  intro p hp hload
  have hnot := List.any_eq_false.mp h p hp
  by_contra hne
  exact hnot (decide_eq_true ⟨hload, hne⟩)

/-- What holds before and for the segment holds with the segment. -/
theorem forall_snoc {P : ElfProgramHeader64 → Prop} (h : ∀ p ∈ before, P p) (hphdr : P phdr) :
    ∀ p ∈ before ++ [phdr], P p := by
  intro p hp
  rcases List.mem_append.mp hp with hp | hp
  · exact h p hp
  · obtain rfl := List.mem_singleton.mp hp
    exact hphdr

theorem exists_snoc {P : ElfProgramHeader64 → Prop} (h : ∃ p ∈ before, P p) :
    ∃ p ∈ before ++ [phdr], P p := by
  obtain ⟨p, hp, hP⟩ := h
  exact ⟨p, List.mem_append_left _ hp, hP⟩

theorem min_le {a b c : UInt64} (h : a ≤ c ∨ b ≤ c) : min a b ≤ c := by
  rw [UInt64.le_iff_toNat_le, UInt64.toNat_min]
  rcases h with h | h
  · exact Nat.le_trans (Nat.min_le_left _ _) (UInt64.le_iff_toNat_le.mp h)
  · exact Nat.le_trans (Nat.min_le_right _ _) (UInt64.le_iff_toNat_le.mp h)

theorem le_max {a b c : UInt64} (h : c ≤ a ∨ c ≤ b) : c ≤ max a b := by
  rw [UInt64.le_iff_toNat_le, UInt64.toNat_max]
  rcases h with h | h
  · exact Nat.le_trans (UInt64.le_iff_toNat_le.mp h) (Nat.le_max_left _ _)
  · exact Nat.le_trans (UInt64.le_iff_toNat_le.mp h) (Nat.le_max_right _ _)

/-- One more segment. -/
theorem Gathered.Sound.take (h : g.Sound image before) {address : UInt64}
    (htake : g.take segval before address phdr = .ok g') : g'.Sound image (before ++ [phdr]) := by
  obtain ⟨hsegment, ⟨hload, hover, valdata, rfl⟩ | ⟨hother, hsize, hstart, hbase, hend, hcount⟩⟩ :=
    take_cases htake
  · constructor
    case size => exact h.size
    case start => exact h.start
    case segments => exact forall_snoc h.segments (h.size ▸ hsegment)
    case apart =>
      refine List.pairwise_append.mpr ⟨h.apart, List.pairwise_singleton _ _, ?_⟩
      intro p hp q hq hpload _
      obtain rfl := List.mem_singleton.mp hq
      exact overlaps_eq_false hover p hp hpload
    case base_le =>
      refine forall_snoc ?_ fun _ => min_le (.inl (UInt64.le_refl _))
      intro p hp hpload
      exact min_le (.inr (h.base_le p hp hpload))
    case base_mem =>
      dsimp only
      rw [UInt64.min_def]
      split
      next =>
        exact .inr ⟨phdr, List.mem_append_right _ List.mem_cons_self, hload, rfl⟩
      next => exact h.base_mem.imp_right exists_snoc
    case le_end =>
      refine forall_snoc ?_ fun _ => le_max (.inl (UInt64.le_refl _))
      intro p hp hpload
      exact le_max (.inr (h.le_end p hp hpload))
    case end_mem =>
      dsimp only
      rw [UInt64.max_def]
      split
      next => exact h.end_mem.imp_right exists_snoc
      next =>
        exact .inr ⟨phdr, List.mem_append_right _ List.mem_cons_self, hload, rfl⟩
    case count =>
      intro _
      exact ⟨phdr, List.mem_append_right _ List.mem_cons_self, hload⟩
  · constructor
    case size => rw [hsize, h.size]
    case start => rw [hstart, h.start]
    case segments => exact forall_snoc h.segments (h.size ▸ hsegment)
    case apart =>
      refine List.pairwise_append.mpr ⟨h.apart, List.pairwise_singleton _ _, ?_⟩
      intro p hp q hq _ hqload
      obtain rfl := List.mem_singleton.mp hq
      exact absurd hqload hother
    case base_le => exact hbase ▸ forall_snoc h.base_le fun hload => absurd hload hother
    case base_mem => exact hbase ▸ h.base_mem.imp_right exists_snoc
    case le_end => exact hend ▸ forall_snoc h.le_end fun hload => absurd hload hother
    case end_mem => exact hend ▸ h.end_mem.imp_right exists_snoc
    case count =>
      intro hpos
      exact exists_snoc (h.count (hcount ▸ hpos))

/-- What each round of the first loop keeps, the loop keeps. -/
theorem Gathered.takeAll_keeps {P : List ElfProgramHeader64 → Gathered σ → Prop}
    (hstep : ∀ before phdr g g', P before g →
      g.take segval before (g.elf.phdrAddress mem before.length) phdr = .ok g' →
        P (before ++ [phdr]) g')
    {rest : List ElfProgramHeader64} (h : P before g)
    (htake : Gathered.takeAll mem segval before rest g = .ok g') : P (before ++ rest) g' := by
  induction rest generalizing before g with
  | nil =>
      obtain rfl := Except.ok.inj htake
      rw [List.append_nil]
      exact h
  | cons phdr rest ih =>
      unfold Gathered.takeAll at htake
      split at htake
      next => exact nomatch htake
      next g₁ hone =>
        have hrest := ih (hstep before phdr g g₁ h hone) htake
        rw [List.append_assoc] at hrest
        exact hrest

theorem Gathered.Sound.takeAll {rest : List ElfProgramHeader64} (h : g.Sound image before)
    (htake : Gathered.takeAll mem segval before rest g = .ok g') :
    g'.Sound image (before ++ rest) :=
  takeAll_keeps (P := fun before g => g.Sound image before) (fun _ _ _ _ h hone => h.take hone) h
    htake

theorem sound_start (addr size : UInt64) (valdata : σ) :
    (⟨Elf.new addr size, 0, 0, valdata⟩ : Gathered σ).Sound (Elf.new addr size) [] where
  size := rfl
  start := rfl
  segments := fun _ hp => nomatch hp
  apart := .nil
  base_le := fun _ hp => nomatch hp
  base_mem := .inl rfl
  le_end := fun _ hp => nomatch hp
  end_mem := .inl rfl
  count := fun hpos => nomatch hpos

/-! ## The second loop -/

theorem checkNonload_inside {elf : Elf} {rest : List ElfProgramHeader64}
    (h : elf.checkNonload mem rest = .ok ()) :
    ∀ p ∈ rest, ¬ p.IsLoad → ¬ p.IsTls →
      ∃ q ∈ elf.phdrs mem, q.IsLoad ∧ p.range.Inside q.range := by
  induction rest with
  | nil => exact fun p hp => nomatch hp
  | cons nonload rest ih =>
      unfold Elf.checkNonload at h
      refine List.forall_mem_cons.mpr ?_
      split at h
      next hskip =>
        refine ⟨?_, ih h⟩
        intro hload htls
        exact (hskip.elim hload htls).elim
      next =>
        split at h
        next => exact nomatch h
        next => exact nomatch h
        next habsent hpart =>
          refine ⟨?_, ih h⟩
          intro _ _
          exact checkRange_inside habsent hpart

/-! ## The dynamic entries -/

theorem validateParseDt64_same {elf elf' : Elf} {dts : UInt64}
    (h : elf.validateParseDt64 mem dts = some (.ok elf')) :
    elf'.baseAddress = elf.baseAddress ∧ elf'.endAddress = elf.endAddress := by
  unfold Elf.validateParseDt64 at h
  split at h
  next => exact nomatch h
  next => exact nomatch h
  next counters dynamic htake =>
    dsimp only at h
    cases hcheck : Elf.checkEntries mem { elf with dynamic := dynamic } counters with
    | error e =>
        rw [hcheck] at h
        exact nomatch Option.some.inj h
    | ok =>
        rw [hcheck] at h
        obtain rfl := Except.ok.inj (Option.some.inj h)
        exact ⟨rfl, rfl⟩

/-! ## Accepted images -/

/-- What the checks of an accepted image have made sure of. -/
theorem accepted_cases {elf : Elf} {addr size : UInt64} {valdata : σ}
    (h : (Elf.new addr size).validateParseElf64 mem segval valdata = some (.ok elf)) :
    let image := Elf.new addr size
    image.programHeaderTableOffset mem +
      UInt64.ofNat (image.programHeaderTableEntryCount mem).toNat * 56 ≤ size ∧
    ∃ g : Gathered σ, g.Sound image (image.phdrs mem) ∧ 0 < g.loadableCount ∧
      elf.baseAddress = g.elf.baseAddress ∧ elf.endAddress = g.elf.endAddress ∧
      ∀ p ∈ image.phdrs mem, ¬ p.IsLoad → ¬ p.IsTls →
        ∃ q ∈ image.phdrs mem, q.IsLoad ∧ p.range.Inside q.range := by
  intro image
  unfold Elf.validateParseElf64 at h
  split at h
  next => exact nomatch h
  next =>
  split at h
  next => exact nomatch h
  next =>
  split at h
  next => exact nomatch h
  next =>
  split at h
  next => exact nomatch h
  next htable =>
  split at h
  next => exact nomatch h
  next g htake =>
  split at h
  next => exact nomatch h
  next hnonload =>
  split at h
  next => exact nomatch h
  next => exact nomatch h
  next elf₁ hdynamic =>
  split at h
  next hcount =>
    have hsound := (sound_start addr size valdata).takeAll htake
    rw [List.nil_append] at hsound
    have hphdrs : g.elf.phdrs mem = image.phdrs mem := by
      have hstart := hsound.start
      unfold Elf.phdrs Elf.phdrAddress Elf.programHeaderTableEntryCount
        Elf.programHeaderTableOffset
      rw [hstart]
    have hsame : elf₁.baseAddress = g.elf.baseAddress ∧ elf₁.endAddress = g.elf.endAddress := by
      split at hdynamic
      next => exact validateParseDt64_same hdynamic
      next =>
        obtain rfl := Except.ok.inj (Option.some.inj hdynamic)
        exact ⟨rfl, rfl⟩
    obtain rfl := Except.ok.inj (Option.some.inj h)
    refine ⟨UInt64.not_lt.mp htable, g, hsound, hcount, hsame.1, hsame.2, ?_⟩
    intro p hp
    exact hphdrs ▸ checkNonload_inside hnonload p hp
  next => exact nomatch h

theorem toNat_table {offset : UInt64} {count : UInt16}
    (h : offset.toNat + count.toNat * 56 < 2 ^ 64) :
    (offset + UInt64.ofNat count.toNat * 56).toNat = offset.toNat + count.toNat * 56 := by
  have hcount : (UInt64.ofNat count.toNat).toNat = count.toNat :=
    UInt64.toNat_ofNat_of_lt' (Nat.lt_trans count.toNat_lt (by decide))
  have hmul : (UInt64.ofNat count.toNat * 56).toNat = count.toNat * 56 := by
    rw [UInt64.toNat_mul, hcount]
    exact Nat.mod_eq_of_lt (Nat.lt_of_le_of_lt (Nat.le_add_left _ _) h)
  rw [toNat_add_of_lt (by rw [hmul]; exact h), hmul]

/-- The least start. -/
theorem Gathered.Sound.isLeast (h : g.Sound image before) (hcount : 0 < g.loadableCount) :
    IsLeast {a | ∃ p ∈ before, p.IsLoad ∧ a = p.range.start.toNat} g.elf.baseAddress.toNat := by
  constructor
  · rcases h.base_mem with hmax | ⟨p, hp, hload, hbase⟩
    · obtain ⟨p, hp, hload⟩ := h.count hcount
      refine ⟨p, hp, hload, Nat.le_antisymm (UInt64.le_iff_toNat_le.mp (h.base_le p hp hload)) ?_⟩
      rw [hmax]
      exact Nat.le_of_lt_succ p.vAddr.toNat_lt
    · exact ⟨p, hp, hload, congrArg UInt64.toNat hbase⟩
  · rintro a ⟨p, hp, hload, rfl⟩
    exact UInt64.le_iff_toNat_le.mp (h.base_le p hp hload)

/-- The greatest end, where the ends are not too large. -/
theorem Gathered.Sound.isGreatest (h : g.Sound image before) (hcount : 0 < g.loadableCount)
    (hfits : ∀ p ∈ before, p.IsLoad → p.range.endNat < 2 ^ 64) :
    IsGreatest {a | ∃ p ∈ before, p.IsLoad ∧ a = p.range.endNat} g.elf.endAddress.toNat := by
  have hend : ∀ p ∈ before, p.IsLoad → (p.vAddr + p.vSize).toNat = p.range.endNat := by
    intro p hp hload
    exact toNat_add_of_lt (hfits p hp hload)
  constructor
  · rcases h.end_mem with hzero | ⟨p, hp, hload, hlast⟩
    · obtain ⟨p, hp, hload⟩ := h.count hcount
      have hle := UInt64.le_iff_toNat_le.mp (h.le_end p hp hload)
      rw [hend p hp hload, hzero] at hle
      exact ⟨p, hp, hload, by rw [hzero]; exact (Nat.le_zero.mp hle).symm⟩
    · exact ⟨p, hp, hload, by rw [hlast, hend p hp hload]⟩
  · rintro a ⟨p, hp, hload, rfl⟩
    rw [← hend p hp hload]
    exact UInt64.le_iff_toNat_le.mp (h.le_end p hp hload)

/-- An image that is accepted is self-contained if and only if its sums fit. -/
theorem selfContained_iff {elf : Elf} {addr size : UInt64} {valdata : σ}
    (h : (Elf.new addr size).validateParseElf64 mem segval valdata = some (.ok elf)) :
    SelfContained mem (Elf.new addr size) elf ↔ Fits mem (Elf.new addr size) := by
  obtain ⟨htable, g, hsound, hcount, hbase, hend, hinside⟩ := accepted_cases h
  constructor
  · intro hself
    constructor
    case table => exact Nat.lt_of_le_of_lt hself.table (Elf.new addr size).size.toNat_lt
    case segments =>
      intro p hp
      exact Nat.lt_of_le_of_lt (hself.segments p hp) (Elf.new addr size).size.toNat_lt
    case loads =>
      intro p hp hload
      exact Nat.lt_of_le_of_lt (hself.greatest.2 ⟨p, hp, hload, rfl⟩) elf.endAddress.toNat_lt
  · intro hfits
    constructor
    case table =>
      rw [← toNat_table hfits.table]
      exact UInt64.le_iff_toNat_le.mp htable
    case segments =>
      intro p hp
      rw [← toNat_add_of_lt (hfits.segments p hp)]
      exact UInt64.le_iff_toNat_le.mp (hsound.segments p hp)
    case unwrapped =>
      intro p hp hload
      exact Nat.le_of_lt (hfits.loads p hp hload)
    case disjoint =>
      refine hsound.apart.imp_of_mem ?_
      intro p q hp hq hapart hpload hqload
      exact (disjoint_of_intersect (hfits.loads q hq hqload) (hfits.loads p hp hpload)
        (hapart hpload hqload)).symm
    case base => exact hbase ▸ hsound.isLeast hcount
    case greatest => exact hend ▸ hsound.isGreatest hcount hfits.loads
    case inside => exact hinside

/-! An image with a single load segment, at `4096` in memory. -/

def bytesOf : ℕ → ℕ → List UInt8
  | 0, _ => []
  | n + 1, v => UInt8.ofNat v :: bytesOf n (v / 256)

def oneSegment (offset vAddr pSize vSize : ℕ) : Memory :=
  let header1 := [0x7F, 0x45, 0x4C, 0x46, 2, 1, 1] ++ bytesOf 9 0 ++
    bytesOf 2 2 ++ bytesOf 2 62 ++ bytesOf 4 1
  let header2 := bytesOf 8 vAddr ++ bytesOf 8 64 ++ bytesOf 8 0
  let header3 := bytesOf 4 0 ++ bytesOf 2 64 ++ bytesOf 2 56 ++ bytesOf 2 1 ++ bytesOf 6 0
  let segment := bytesOf 4 1 ++ bytesOf 4 5 ++ bytesOf 8 offset ++ bytesOf 8 vAddr ++
    bytesOf 8 0 ++ bytesOf 8 pSize ++ bytesOf 8 vSize ++ bytesOf 8 4096
  fun addr => (header1 ++ header2 ++ header3 ++ segment).getD (addr.toNat - 4096) 0

def loadableAt (base last : UInt64) : Elf :=
  { Elf.new 4096 120 with baseAddress := base, endAddress := last, loadable := true }

theorem selfContained_iff_page : ∃ elf,
    (Elf.new 4096 120).validateParseElf64 (oneSegment 0 0x400000 120 4096) none () =
      some (.ok elf) ∧
    (SelfContained (oneSegment 0 0x400000 120 4096) (Elf.new 4096 120) elf ↔
      Fits (oneSegment 0 0x400000 120 4096) (Elf.new 4096 120)) := by
  have haccepted : (Elf.new 4096 120).validateParseElf64 (oneSegment 0 0x400000 120 4096) none () =
      some (.ok (loadableAt 0x400000 0x401000)) := by decide +kernel
  exact ⟨_, haccepted, selfContained_iff haccepted⟩

/-- A segment of almost all of the `2 ^ 64` bytes is taken to end within the image. -/
theorem not_selfContained : ¬ ∀ (mem : Memory) (addr size : UInt64) (elf : Elf), 64 ≤ size →
    (Elf.new addr size).validateParseElf64 mem none () = some (.ok elf) →
    SelfContained mem (Elf.new addr size) elf := by
  intro h
  have haccepted : (Elf.new 4096 120).validateParseElf64
      (oneSegment 64 0x400040 0xFFFFFFFFFFFFFFC0 4096) none () =
      some (.ok (loadableAt 0x400040 0x401040)) := by decide +kernel
  have hphdrs : (Elf.new 4096 120).phdrs (oneSegment 64 0x400040 0xFFFFFFFFFFFFFFC0 4096) =
      [⟨1, 5, 64, 0x400040, 0xFFFFFFFFFFFFFFC0, 4096⟩] := by decide +kernel
  have hsegments := (h _ _ _ _ (by decide) haccepted).segments
  rw [hphdrs] at hsegments
  exact absurd (hsegments _ List.mem_cons_self) (by decide)

end Beelzebub.Execution
