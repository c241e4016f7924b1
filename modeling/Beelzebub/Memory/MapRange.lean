import Beelzebub.Memory.Unmapping

/-!
# Mapping a range

`MapRange` maps a range of addresses to a range of memory.  Where the two are aligned alike it
maps large pages between two runs of small ones, and small pages everywhere otherwise.
`Translate` should tell the frame of any page of the range.

*Filling.*  Each of the three loops fills a part of the range with pages of one size and
leaves all other pages alone (`mapLoop_ran`).

*Reading.*  `Translate` answers with the address in the entry that it finds, whatever the
level of the entry.  Within a large page that is the address of its first byte, for which
reason it inverts `MapRange` exactly where no large page is used (`mapsRange_iff`).
-/

namespace Beelzebub.Memory

open VmmArc PmlEntry

namespace Tables

/-! ## The code -/

/-- Where a loop of `MapRange` is. -/
structure Cursor where
  vaddr : Nat
  paddr : Nat
  t : Tables

section Loops

variable (nx : Bool) (root : Nat) (flags : MemoryFlags)

/-- A loop of `MapRange` over pages of one size, up to an address and while a condition on the
address holds. -/
def mapLoop (size : FrameSize) (stop : Nat) (more : Nat → Bool) (w : Cursor) :
    HandleResult × Cursor :=
  if w.vaddr < stop ∧ more w.vaddr then
    match w.t.mapPageInternal nx root w.vaddr w.paddr size flags with
    | (res, t) =>
        if res ≠ .okay then (res, { w with t })
        else mapLoop size stop more
          { vaddr := w.vaddr + size.bytes, paddr := w.paddr + size.bytes, t }
  else (.okay, w)
termination_by stop - w.vaddr
decreasing_by
  have hpos : 0 < size.bytes := by cases size <;> decide
  have := (by assumption : w.vaddr < stop ∧ more w.vaddr = true).1
  omega

/-- The first two loops, which are run where the addresses are aligned alike. -/
def mapAligned (stop : Nat) (w : Cursor) : HandleResult × Cursor :=
  match mapLoop nx root flags ._4KiB stop (fun vaddr => !is2MiBAligned vaddr) w with
  | (res, w) =>
      if res ≠ .okay then (res, w)
      else
        -- the end is rounded down to 2 MiB
        mapLoop nx root flags ._2MiB (stop / largePageSize * largePageSize) (fun _ => true) w

/-- The loops of `MapRange`. -/
def mapLoops (stop : Nat) (w : Cursor) : HandleResult × Cursor :=
  match if w.vaddr % largePageSize = w.paddr % largePageSize then mapAligned nx root flags stop w
    else (.okay, w) with
  | (res, w) =>
      if res ≠ .okay then (res, w)
      else mapLoop nx root flags ._4KiB stop (fun _ => true) w

end Loops

/-- `Vmm::MapRange`.  It does not return if reference counting is on. -/
def mapRange (as : AddressSpaces) (nx : Bool) (pagingTable vaddr paddr size : Nat)
    (flags : MemoryFlags) (countReferences : Bool) (t : Tables) :
    Option (HandleResult × Tables) :=
  if IllegalRange vaddr size then some (.pageMapIllegalRange, t)
  else if ¬is4KiBAligned vaddr ∨ ¬is4KiBAligned paddr ∨ ¬is4KiBAligned size then
    some (.alignmentFailure, t)
  else if countReferences then none
  else
    let (res, w) := mapLoops nx (as.root (Space.ofAddress pagingTable vaddr)) flags
      (Word.add vaddr size) { vaddr, paddr, t }
    some (res, w.t)

/-- `Vmm::Translate`.  The address that is passed in stays if there is no page. -/
def translateAddress (as : AddressSpaces) (pagingTable vaddr paddr : Nat) (t : Tables) :
    HandleResult × Nat :=
  if Illegal vaddr then (.pageMapIllegalRange, paddr)
  else
    match t.translateInternal (as.root (Space.ofAddress pagingTable vaddr)) vaddr with
    | none => (.pageUnmapped, paddr)
    | some (pE, _) => (.okay, getAddress pE)

/-! ## Filling -/

variable {t t' t₁ : Tables} {as : AddressSpaces} {s s' : Space} {nx : Bool} {flags : MemoryFlags}
  {size : FrameSize} {v v' k paddr stop len len' : Nat} {more : Nat → Bool}
  {w w' : Cursor}

/-- The pages of a part of the range were entered, and no others. -/
structure Filled (as : AddressSpaces) (s : Space) (nx : Bool) (flags : MemoryFlags)
    (size : FrameSize) (v paddr len : Nat) (t t' : Tables) : Prop where
  grounded : t'.Grounded as
  pages : ∀ k < len, t'.translateInternal (as.root s) (v + k) =
    some (page nx (paddr + k / size.bytes * size.bytes) flags (size == ._2MiB), level size)
  others : ∀ {s' v'}, as.Known s' → s'.Covers v' → ¬(s' = s ∧ v ≤ v' ∧ v' < v + len) →
    t'.translateInternal (as.root s') v' = t.translateInternal (as.root s') v'

theorem Filled.zero (h : t.Grounded as) : Filled as s nx flags size v paddr 0 t t where
  grounded := h
  pages k hk := absurd hk (Nat.not_lt_zero k)
  others _ _ _ := rfl

theorem bytes_pos (size : FrameSize) : 0 < size.bytes := by
  cases size <;> decide

theorem Filled.append (h : Filled as s nx flags size v paddr len t t₁)
    (h' : Filled as s nx flags size (v + len) (paddr + len) len' t₁ t') (hs : as.Known s)
    (hcovers : ∀ k < len, s.Covers (v + k)) (hwhole : len % size.bytes = 0) :
    Filled as s nx flags size v paddr (len + len') t t' where
  grounded := h'.grounded
  pages := by
    intro k hk
    rcases Nat.lt_or_ge k len with hlt | hge
    · rw [h'.others hs (hcovers k hlt) (by omega), h.pages k hlt]
    · obtain ⟨j, rfl⟩ := Nat.exists_eq_add_of_le hge
      obtain ⟨m, rfl⟩ := Nat.dvd_of_mod_eq_zero hwhole
      have hpage : (size.bytes * m + j) / size.bytes * size.bytes =
          size.bytes * m + j / size.bytes * size.bytes := by
        rw [Nat.mul_add_div (bytes_pos size), Nat.add_mul, Nat.mul_comm m]
      rw [hpage, ← Nat.add_assoc, ← Nat.add_assoc]
      exact h'.pages j (by omega)
  others := by
    intro s' v' hs' hv' hout
    rw [h'.others hs' hv' fun hin => hout ⟨hin.1, by omega, by omega⟩,
      h.others hs' hv' fun hin => hout ⟨hin.1, by omega, by omega⟩]

/-- The state of a process that is not mapped is told by either walk. -/
theorem translateInternal_eq_none_iff (t : Tables) (root v : Nat) :
    t.translateInternal root v = none ↔ t.translate root v = none := by
  rw [translate_eq_resolve, Option.map_eq_none_iff]

/-- A call for a free page that succeeds fills the page. -/
theorem filled_page (nx : Bool) (flags : MemoryFlags) (paddr : Nat) (h : t.Grounded as)
    (hs : as.Known s) (hv : s.Covers v) (hsize : size = ._4KiB ∨ size = ._2MiB)
    (haligned : v % size.bytes = 0)
    (hfree : t.translateInternal (as.root s) v = none)
    (hres : (t.mapPageInternal nx (as.root s) v paddr size flags).1 = .okay) :
    Filled as s nx flags size v paddr size.bytes t
      (t.mapPageInternal nx (as.root s) v paddr size flags).2 := by
  rw [translateInternal_eq_none_iff, translate_eq_none_iff] at hfree
  rcases mapPageInternal_cases h hs hv hsize nx paddr flags with
    ⟨-, t₁, f, t', hmap, -, hentered⟩ | ⟨-, -, -, t', hmap, -⟩ | ⟨-, n, pmm, -, -, -, hmap⟩ |
    ⟨-, -, hmap⟩ | ⟨hmisread, -⟩
  · rw [hmap]
    refine ⟨?_, ?_, ?_⟩
    · show t'.Grounded as
      rw [hentered.entry]
      refine hentered.grown.grounded.store hentered.slot (hentered.keeps hsize) ?_
      rw [length_slotPath v hsize]
      split <;> decide
    · intro k hk
      rw [Nat.div_eq_of_lt hk, Nat.zero_mul, Nat.add_zero]
      exact hentered.translateInternal_page hsize hs hv haligned hk
    · intro s' v' hs' hv' hout
      exact hentered.translateInternal_other hsize h.toShaped hv haligned hs' hv' hout
  · rw [hmap] at hres
    cases hres
  · rw [hmap] at hres
    cases hres
  · rw [hmap] at hres
    cases hres
  · obtain ⟨-, h4, h3, h2, hlarge, -⟩ := hmisread
    exact absurd ⟨h4, h3, h2, Or.inl hlarge⟩ hfree

/-- What a loop has done when it is over. -/
structure Ran (as : AddressSpaces) (s : Space) (nx : Bool) (flags : MemoryFlags)
    (size : FrameSize) (stop : Nat) (more : Nat → Bool) (w w' : Cursor) (len : Nat) : Prop where
  vaddr : w'.vaddr = w.vaddr + len
  paddr : w'.paddr = w.paddr + len
  whole : len % size.bytes = 0
  within : w.vaddr + len ≤ max w.vaddr stop
  passed : ∀ k < len, k % size.bytes = 0 → more (w.vaddr + k) = true
  ended : ¬(w'.vaddr < stop ∧ more w'.vaddr = true)
  filled : Filled as s nx flags size w.vaddr w.paddr len w.t w'.t

theorem mapLoop_done {root : Nat} (hdone : ¬(w.vaddr < stop ∧ more w.vaddr = true)) :
    mapLoop nx root flags size stop more w = (.okay, w) := by
  rw [mapLoop, if_neg hdone]

theorem mapLoop_next {root : Nat} (hmore : w.vaddr < stop ∧ more w.vaddr = true)
    (hmap : w.t.mapPageInternal nx root w.vaddr w.paddr size flags = (.okay, t')) :
    mapLoop nx root flags size stop more w = mapLoop nx root flags size stop more
      { vaddr := w.vaddr + size.bytes, paddr := w.paddr + size.bytes, t := t' } := by
  rw [mapLoop, if_pos hmore, hmap]
  dsimp only
  rw [if_neg (not_not.mpr rfl)]

/-- A loop over free pages that succeeds fills them. -/
theorem mapLoop_ran (hs : as.Known s) (hsize : size = ._4KiB ∨ size = ._2MiB)
    (hstop : stop % size.bytes = 0) (h : w.t.Grounded as)
    (haligned : w.vaddr < stop → w.vaddr % size.bytes = 0)
    (hcovers : ∀ a, w.vaddr ≤ a → a < stop → s.Covers a)
    (hfree : ∀ a, w.vaddr ≤ a → a < stop → w.t.translateInternal (as.root s) a = none)
    (hrun : mapLoop nx (as.root s) flags size stop more w = (.okay, w')) :
    ∃ len, Ran as s nx flags size stop more w w' len := by
  have hpos := bytes_pos size
  generalize hleft : stop - w.vaddr = left
  induction left using Nat.strongRecOn generalizing w with
  | ind left ih =>
      rw [mapLoop] at hrun
      by_cases hmore : w.vaddr < stop ∧ more w.vaddr = true
      · rw [if_pos hmore] at hrun
        obtain ⟨hlt, hgo⟩ := hmore
        have haligned := haligned hlt
        have hpage := filled_page nx flags w.paddr h hs
          (hcovers _ (Nat.le_refl _) hlt) hsize haligned (hfree _ (Nat.le_refl _) hlt)
        cases hmap : w.t.mapPageInternal nx (as.root s) w.vaddr w.paddr size flags with
        | mk res t =>
            rw [hmap] at hpage
            simp only [hmap] at hrun
            by_cases hokay : res = .okay
            · rw [if_neg (not_not.mpr hokay)] at hrun
              have hfirst := hpage hokay
              -- the next page is in the range, for the range consists of pages
              have hnext : w.vaddr + size.bytes ≤ stop := by
                obtain ⟨a, ha⟩ := Nat.dvd_of_mod_eq_zero haligned
                obtain ⟨b, hb⟩ := Nat.dvd_of_mod_eq_zero hstop
                rw [ha, hb] at hlt
                have hab := Nat.lt_of_mul_lt_mul_left hlt
                rw [ha, hb, ← Nat.mul_succ]
                exact Nat.mul_le_mul_left _ hab
              have hkeep : ∀ a, w.vaddr + size.bytes ≤ a → a < stop →
                  t.translateInternal (as.root s) a = none := by
                intro a hle hlta
                rw [hfirst.others hs (hcovers a (by omega) hlta) (by omega)]
                exact hfree a (by omega) hlta
              obtain ⟨len, hran⟩ := ih (stop - (w.vaddr + size.bytes)) (by omega)
                (w := { vaddr := w.vaddr + size.bytes, paddr := w.paddr + size.bytes, t })
                hfirst.grounded (fun _ => by rw [Nat.add_mod_right]; exact haligned)
                (fun a hle hlta => hcovers a (Nat.le_trans (Nat.le_add_right _ _) hle) hlta)
                hkeep hrun rfl
              refine ⟨size.bytes + len, ?_, ?_, ?_, ?_, ?_, hran.ended, ?_⟩
              · rw [hran.vaddr, Nat.add_assoc]
              · rw [hran.paddr, Nat.add_assoc]
              · rw [Nat.add_mod_left]
                exact hran.whole
              · have hwithin := hran.within
                dsimp only at hwithin
                omega
              · intro k hk hk0
                rcases Nat.lt_or_ge k size.bytes with hin | hout
                · rw [Nat.mod_eq_of_lt hin] at hk0
                  rw [hk0]
                  exact hgo
                · obtain ⟨j, rfl⟩ := Nat.exists_eq_add_of_le hout
                  rw [Nat.add_mod_left] at hk0
                  rw [← Nat.add_assoc]
                  exact hran.passed j (by omega) hk0
              · exact hfirst.append hran.filled hs
                  (fun k hk => hcovers _ (Nat.le_add_right _ _) (by omega)) (Nat.mod_self _)
            · rw [if_pos hokay] at hrun
              exact absurd (congrArg Prod.fst hrun) hokay
      · rw [if_neg hmore] at hrun
        obtain rfl : w = w' := congrArg Prod.snd hrun
        exact ⟨0, rfl, rfl, Nat.zero_mod _, Nat.le_max_left _ _,
          fun k hk => absurd hk (Nat.not_lt_zero k), hmore, .zero h⟩

/-- The pages behind a loop are as free as before. -/
theorem Ran.free {stop' : Nat} (hran : Ran as s nx flags size stop' more w w' len)
    (hs : as.Known s) (hcovers : ∀ a, w.vaddr ≤ a → a < stop → s.Covers a)
    (hfree : ∀ a, w.vaddr ≤ a → a < stop → w.t.translateInternal (as.root s) a = none) :
    (∀ a, w'.vaddr ≤ a → a < stop → s.Covers a) ∧
      ∀ a, w'.vaddr ≤ a → a < stop → w'.t.translateInternal (as.root s) a = none := by
  have hle : w.vaddr ≤ w'.vaddr := by
    rw [hran.vaddr]
    exact Nat.le_add_right _ _
  constructor
  · intro a ha hlt
    exact hcovers a (Nat.le_trans hle ha) hlt
  · intro a ha hlt
    have hout : ¬(s = s ∧ w.vaddr ≤ a ∧ a < w.vaddr + len) := by
      rw [← hran.vaddr]
      exact fun hin => Nat.not_lt.mpr ha hin.2.2
    rw [hran.filled.others hs (hcovers a (Nat.le_trans hle ha) hlt) hout]
    exact hfree a (Nat.le_trans hle ha) hlt

/-- A part without pages is filled with pages of any size. -/
theorem Filled.of_zero (h : Filled as s nx flags size v paddr 0 t t') (size' : FrameSize) :
    Filled as s nx flags size' v paddr 0 t t' where
  grounded := h.grounded
  pages k hk := absurd hk (Nat.not_lt_zero k)
  others := h.others

/-- Where the large pages start. -/
def largeStart (v : Nat) : Nat := (v + largePageSize - 1) / largePageSize * largePageSize

/-- The addresses are aligned alike and the range holds a large page. -/
def HoldsLargePage (v paddr size : Nat) : Prop :=
  v % largePageSize = paddr % largePageSize ∧ largeStart v + largePageSize ≤ v + size

instance (v paddr size : Nat) : Decidable (HoldsLargePage v paddr size) :=
  inferInstanceAs (Decidable (_ ∧ _))

/-- The first run of small pages goes up to the first large page. -/
theorem Ran.le_largeStart (haligned : w.vaddr % pageSize = 0)
    (hran : Ran as s nx flags ._4KiB stop (fun vaddr => !is2MiBAligned vaddr) w w' len) :
    w'.vaddr ≤ largeStart w.vaddr := by
  have hpassed : ∀ k < len, k % 2 ^ 12 = 0 → (w.vaddr + k) % 2 ^ 21 ≠ 0 := by
    intro k hk hk0 hzero
    have hnot := hran.passed k hk hk0
    rw [Bool.not_eq_true', is2MiBAligned, beq_eq_false_iff_ne] at hnot
    exact hnot hzero
  have hvaddr := hran.vaddr
  unfold pageSize at haligned
  unfold largeStart largePageSize
  by_contra hlt
  refine hpassed ((w.vaddr + 2 ^ 21 - 1) / 2 ^ 21 * 2 ^ 21 - w.vaddr) ?_ ?_ ?_
  · omega
  · omega
  · omega

theorem Ran.eq_largeStart (haligned : w.vaddr % pageSize = 0)
    (hran : Ran as s nx flags ._4KiB stop (fun vaddr => !is2MiBAligned vaddr) w w' len)
    (hlt : w'.vaddr < stop) : w'.vaddr = largeStart w.vaddr ∧ w'.vaddr % 2 ^ 21 = 0 := by
  have hend : w'.vaddr % 2 ^ 21 = 0 := by
    have hended := hran.ended
    simp only [hlt, true_and, Bool.not_eq_true', Bool.not_eq_false] at hended
    exact beq_iff_eq.mp hended
  have hle := hran.le_largeStart haligned
  have hvaddr := hran.vaddr
  refine ⟨Nat.le_antisymm hle ?_, hend⟩
  unfold largeStart largePageSize
  omega

section Loops

variable (hs : as.Known s) (hstop : stop % pageSize = 0) (h : w.t.Grounded as)
  (haligned : w.vaddr % pageSize = 0) (hle : w.vaddr ≤ stop)
  (hcovers : ∀ a, w.vaddr ≤ a → a < stop → s.Covers a)
  (hfree : ∀ a, w.vaddr ≤ a → a < stop → w.t.translateInternal (as.root s) a = none)

include hs hstop h haligned hle hcovers hfree

/-- The last loop goes up to the end of the range. -/
theorem mapLoop_rest
    (hrun : mapLoop nx (as.root s) flags ._4KiB stop (fun _ => true) w = (.okay, w')) :
    Filled as s nx flags ._4KiB w.vaddr w.paddr (stop - w.vaddr) w.t w'.t := by
  obtain ⟨len, hran⟩ := mapLoop_ran hs (Or.inl rfl) hstop h (fun _ => haligned) hcovers hfree hrun
  have hended := hran.ended
  have hwithin := hran.within
  rw [hran.vaddr] at hended
  simp only [and_true, Nat.not_lt] at hended
  obtain rfl : len = stop - w.vaddr := by omega
  exact hran.filled

/-- Where the addresses are aligned alike, there are three runs of pages. -/
theorem mapLoops_runs (halike : w.vaddr % largePageSize = w.paddr % largePageSize)
    (hrun : mapLoops nx (as.root s) flags stop w = (.okay, w')) :
    ∃ t₁ t₂ a b c, w.vaddr + a + b + c = stop ∧ a % pageSize = 0 ∧
      (w.vaddr + a = largeStart w.vaddr ∧ w.vaddr + a + b = stop / largePageSize * largePageSize ∨
        stop < largeStart w.vaddr + largePageSize ∧ b = 0) ∧
      Filled as s nx flags ._4KiB w.vaddr w.paddr a w.t t₁ ∧
      Filled as s nx flags ._2MiB (w.vaddr + a) (w.paddr + a) b t₁ t₂ ∧
      Filled as s nx flags ._4KiB (w.vaddr + a + b) (w.paddr + a + b) c t₂
        w'.t := by
  unfold mapLoops mapAligned at hrun
  rw [if_pos halike] at hrun
  cases hfirst : mapLoop nx (as.root s) flags ._4KiB stop (fun vaddr => !is2MiBAligned vaddr) w with
  | mk res₁ w₁ =>
      simp only [hfirst] at hrun
      by_cases hokay₁ : res₁ = .okay
      · rw [if_neg (not_not.mpr hokay₁)] at hrun
        subst hokay₁
        cases hsecond : mapLoop nx (as.root s) flags ._2MiB (stop / largePageSize * largePageSize)
          (fun _ => true) w₁ with
        | mk res₂ w₂ =>
            simp only [hsecond] at hrun
            by_cases hokay₂ : res₂ = .okay
            · rw [if_neg (not_not.mpr hokay₂)] at hrun
              subst hokay₂
              have hround : stop / largePageSize * largePageSize ≤ stop := Nat.div_mul_le_self _ _
              obtain ⟨a, hran₁⟩ := mapLoop_ran hs (Or.inl rfl) hstop h (fun _ => haligned) hcovers
                hfree hfirst
              obtain ⟨hcovers₁, hfree₁⟩ := hran₁.free hs hcovers hfree
              obtain ⟨b, hran₂⟩ := mapLoop_ran hs (Or.inr rfl)
                (Nat.mul_mod_left _ _) hran₁.filled.grounded
                (fun hlt => (hran₁.eq_largeStart haligned (Nat.lt_of_lt_of_le hlt hround)).2)
                (fun a ha hlt => hcovers₁ a ha (Nat.lt_of_lt_of_le hlt hround))
                (fun a ha hlt => hfree₁ a ha (Nat.lt_of_lt_of_le hlt hround))
                hsecond
              have hbytes : FrameSize._2MiB.bytes = largePageSize := rfl
              rw [hbytes] at hran₂
              obtain ⟨hcovers₂, hfree₂⟩ := hran₂.free hs hcovers₁ hfree₁
              have hfirstLe : w₁.vaddr ≤ stop := by
                have hwithin := hran₁.within
                rw [hran₁.vaddr]
                omega
              have hsecondLe : w₂.vaddr ≤ stop := by
                have hwithin := hran₂.within
                rw [hran₂.vaddr]
                omega
              have haligned₂ : w₂.vaddr % pageSize = 0 := by
                have hwhole₁ := hran₁.whole
                have hwhole₂ := hran₂.whole
                rw [hran₂.vaddr, hran₁.vaddr]
                unfold pageSize at *
                simp only [FrameSize.bytes] at hwhole₁ hwhole₂
                omega
              have hrest := mapLoop_rest hs hstop hran₂.filled.grounded haligned₂ hsecondLe hcovers₂
                hfree₂ hrun
              refine ⟨w₁.t, w₂.t, a, b, stop - w₂.vaddr, ?_, hran₁.whole, ?_, hran₁.filled, ?_, ?_⟩
              · rw [← hran₁.vaddr, ← hran₂.vaddr]
                exact Nat.add_sub_cancel' hsecondLe
              · rw [← hran₁.vaddr, ← hran₂.vaddr]
                have hended₂ := hran₂.ended
                have hwithin₂ := hran₂.within
                have hle₁ := hran₁.le_largeStart haligned
                simp only [and_true, Nat.not_lt] at hended₂
                rw [hran₂.vaddr] at hended₂ ⊢
                unfold largePageSize at *
                rcases Nat.lt_or_ge w₁.vaddr stop with hlt | hge
                · have heq := (hran₁.eq_largeStart haligned hlt).1
                  rcases Nat.le_total w₁.vaddr (stop / 2 ^ 21 * 2 ^ 21) with hin | hout
                  · exact Or.inl ⟨heq, by omega⟩
                  · refine Or.inr ⟨?_, by omega⟩
                    rw [← heq]
                    omega
                · exact Or.inr ⟨by omega, by omega⟩
              · rw [← hran₁.vaddr, ← hran₁.paddr]
                exact hran₂.filled
              · rw [← hran₁.vaddr, ← hran₂.vaddr, ← hran₁.paddr, ← hran₂.paddr]
                exact hrest
            · rw [if_pos hokay₂] at hrun
              exact absurd (congrArg Prod.fst hrun) hokay₂
      · simp only [if_pos hokay₁] at hrun
        exact absurd (congrArg Prod.fst hrun) hokay₁

/-- Without a large page, the range is filled with small ones. -/
theorem mapLoops_small (hlarge : ¬HoldsLargePage w.vaddr w.paddr (stop - w.vaddr))
    (hrun : mapLoops nx (as.root s) flags stop w = (.okay, w')) :
    Filled as s nx flags ._4KiB w.vaddr w.paddr (stop - w.vaddr) w.t w'.t := by
  by_cases halike : w.vaddr % largePageSize = w.paddr % largePageSize
  · obtain ⟨t₁, t₂, a, b, c, hsum, hwhole, hcase, hfill₁, hfill₂, hfill₃⟩ :=
      mapLoops_runs hs hstop h haligned hle hcovers hfree halike hrun
    obtain rfl : b = 0 := by
      rcases hcase with ⟨hstart, hend⟩ | ⟨-, hb⟩
      · have hnot : ¬largeStart w.vaddr + largePageSize ≤ w.vaddr + (stop - w.vaddr) :=
          fun hholds => hlarge ⟨halike, hholds⟩
        unfold largePageSize at *
        rw [← hstart] at hnot
        have hdvd : (w.vaddr + a) % 2 ^ 21 = 0 := by
          rw [hstart]
          exact Nat.mul_mod_left _ _
        omega
      · exact hb
    have hin : ∀ k < a, s.Covers (w.vaddr + k) := fun k hk => hcovers _ (by omega) (by omega)
    have hall := hfill₁.append (hfill₂.of_zero _) hs hin hwhole
    have hfilled := hall.append hfill₃ hs hin hwhole
    rw [Nat.add_zero] at hfilled
    have hlen : a + c = stop - w.vaddr := by omega
    rw [hlen] at hfilled
    exact hfilled
  · unfold mapLoops at hrun
    rw [if_neg halike] at hrun
    exact mapLoop_rest hs hstop h haligned hle hcovers hfree hrun

end Loops

/-! ## Reading -/

/-- The processor finds every byte of a filled part. -/
theorem Filled.translate (h : Filled as s nx flags size v paddr len t t')
    (hsize : size = ._4KiB ∨ size = ._2MiB) (hv : v % size.bytes = 0)
    (hpaddr : paddr % size.bytes = 0) (hbound : paddr + len ≤ 2 ^ 52) (hk : k < len) :
    t'.translate (as.root s) (v + k) = some (paddr + k, requested nx flags) := by
  have hpos := bytes_pos size
  have hsplit : k / size.bytes * size.bytes + k % size.bytes = k := Nat.div_add_mod' k _
  rw [translate_eq_resolve, h.pages k hk, Option.map_some]
  generalize hq : k / size.bytes * size.bytes = q at hsplit ⊢
  have hwhole : q % size.bytes = 0 := by
    rw [← hq]
    exact Nat.mul_mod_left _ _
  have hpage : resolve (v + q + k % size.bytes)
      (page nx (paddr + q) flags (size == ._2MiB), level size) =
      (paddr + q + k % size.bytes, requested nx flags) := by
    refine resolve_page hsize ?_ ?_ (by omega) (Nat.mod_lt _ hpos)
    · rw [Nat.add_mod, hv, hwhole, Nat.add_zero, Nat.zero_mod]
    · rw [Nat.add_mod, hpaddr, hwhole, Nat.add_zero, Nat.zero_mod]
  rw [Nat.add_assoc, hsplit] at hpage
  rw [hpage, Nat.add_assoc, hsplit]

/-- What the two calls are for: the bytes of a range are mapped, all others are as before, and
the frame of every page can be told. -/
structure MapsRange (as : AddressSpaces) (pagingTable v paddr size : Nat) (access : Access)
    (t t' : Tables) : Prop where
  bytes : ∀ k < size, t'.translate (as.root (Space.ofAddress pagingTable (Word.add v k)))
    (Word.add v k) = some (paddr + k, access)
  others : ∀ {s' v'}, as.Known s' → s'.Covers v' →
    (∀ k < size, ¬(s' = Space.ofAddress pagingTable v ∧ v' = Word.add v k)) →
    t'.translate (as.root s') v' = t.translate (as.root s') v'
  pages : ∀ k < size, k % pageSize = 0 → ∀ old,
    t'.translateAddress as pagingTable (Word.add v k) old = (.okay, paddr + k)

section Range

variable {pagingTable n : Nat}

/-- A range that wraps around is not looked at. -/
theorem mapLoops_wrap (root : Nat) (hstop : stop ≤ w.vaddr) :
    mapLoops nx root flags stop w = (.okay, w) := by
  have hround : stop / largePageSize * largePageSize ≤ stop := Nat.div_mul_le_self _ _
  have hloop : ∀ (size : FrameSize) (more : Nat → Bool) (stop : Nat), stop ≤ w.vaddr →
      mapLoop nx root flags size stop more w = (.okay, w) := by
    intro size more stop hle
    exact mapLoop_done fun hin => Nat.not_lt.mpr hle hin.1
  have haligned : mapAligned nx root flags stop w = (.okay, w) := by
    unfold mapAligned
    rw [hloop _ _ _ hstop]
    dsimp only
    rw [if_neg (not_not.mpr rfl), hloop _ _ _ (Nat.le_trans hround hstop)]
  unfold mapLoops
  rw [haligned, ite_self]
  dsimp only
  rw [if_neg (not_not.mpr rfl), hloop _ _ _ hstop]

/-- `Translate` tells the frame of a small page. -/
theorem Filled.translateAddress_small (h : Filled as s nx flags ._4KiB v paddr len t t')
    (hs : s = Space.ofAddress pagingTable (v + k)) (hlegal : ¬Illegal (v + k))
    (hpaddr : paddr % pageSize = 0) (hbound : paddr + len ≤ 2 ^ 52) (hk : k < len)
    (hk0 : k % pageSize = 0) (old : Nat) :
    t'.translateAddress as pagingTable (v + k) old = (.okay, paddr + k) := by
  have hpage : k / FrameSize._4KiB.bytes * FrameSize._4KiB.bytes = k :=
    Nat.div_mul_cancel (Nat.dvd_of_mod_eq_zero hk0)
  unfold translateAddress
  rw [if_neg hlegal, ← hs, h.pages k hk, hpage]
  have hframe : IsFrame (paddr + k) := by
    refine ⟨?_, by omega⟩
    rw [Nat.add_mod, hpaddr, hk0, Nat.add_zero, Nat.zero_mod]
  show (HandleResult.okay, getAddress (page nx (paddr + k) flags _)) = _
  rw [getAddress_page _ _ _ hframe]

/-- For the second small page within a large one, `Translate` tells the frame of the first. -/
theorem Filled.translateAddress_large (h : Filled as s nx flags ._2MiB v paddr len t t')
    (hs : s = Space.ofAddress pagingTable (v + pageSize)) (hlegal : ¬Illegal (v + pageSize))
    (hpaddr : paddr % pageSize = 0) (hbound : paddr + len ≤ 2 ^ 52) (hlen : largePageSize ≤ len)
    (old : Nat) :
    t'.translateAddress as pagingTable (v + pageSize) old = (.okay, paddr) := by
  have hpage : pageSize / FrameSize._2MiB.bytes * FrameSize._2MiB.bytes = 0 := by decide
  have hlt : pageSize < largePageSize := by decide
  unfold translateAddress
  rw [if_neg hlegal, ← hs, h.pages pageSize (Nat.lt_of_lt_of_le hlt hlen), hpage, Nat.add_zero]
  show (HandleResult.okay, getAddress (page nx paddr flags _)) = _
  rw [getAddress_page _ _ _ ⟨hpaddr, by omega⟩]

theorem translateAddress_congr {a : Nat} (hs : s = Space.ofAddress pagingTable a)
    (hsame : t'.translateInternal (as.root s) a = t₁.translateInternal (as.root s) a) (old : Nat) :
    t'.translateAddress as pagingTable a old = t₁.translateAddress as pagingTable a old := by
  unfold translateAddress
  rw [← hs, hsame]

/-- A call that succeeds has run the loops. -/
theorem mapRange_okay {countReferences : Bool}
    (hmap : t.mapRange as nx pagingTable v paddr n flags countReferences = some (.okay, t')) :
    ¬IllegalRange v n ∧ v % pageSize = 0 ∧ paddr % pageSize = 0 ∧ n % pageSize = 0 ∧
      ∃ w', mapLoops nx (as.root (Space.ofAddress pagingTable v)) flags (Word.add v n)
        { vaddr := v, paddr, t } = (.okay, w') ∧ w'.t = t' := by
  unfold mapRange at hmap
  split at hmap
  next => cases hmap
  next hlegal =>
    split at hmap
    next => cases hmap
    next haligned =>
      split at hmap
      next => cases hmap
      next =>
        simp only [not_or, not_not, is4KiBAligned, beq_iff_eq] at haligned
        refine ⟨hlegal, haligned.1, haligned.2.1, haligned.2.2, ?_⟩
        cases hrun : mapLoops nx (as.root (Space.ofAddress pagingTable v)) flags (Word.add v n)
          { vaddr := v, paddr, t } with
        | mk res w' =>
            rw [hrun] at hmap
            cases hmap
            exact ⟨w', rfl, rfl⟩

end Range

/-- A second large page, next to the one that is there. -/
def twoLargePages : Tables :=
  (oneLargePage.mapPageInternal true 0x1000 0x400000 0x800000 ._2MiB MemoryFlags.writable).2

theorem mapPageInternal_twoLargePages :
    oneLargePage.mapPageInternal true 0x1000 0x400000 0x800000 ._2MiB MemoryFlags.writable =
      (.okay, twoLargePages) :=
  Prod.ext (by decide) rfl

theorem mapRange_twoLargePages : oneLargePage.mapRange oneProcess true 0x1000 0x400000 0x800000
    0x200000 MemoryFlags.writable false = some (.okay, twoLargePages) := by
  have hsmall : mapLoop true 0x1000 MemoryFlags.writable ._4KiB 0x600000
      (fun vaddr => !is2MiBAligned vaddr) ⟨0x400000, 0x800000, oneLargePage⟩ =
      (.okay, ⟨0x400000, 0x800000, oneLargePage⟩) := mapLoop_done (by decide)
  have hlarge : mapLoop true 0x1000 MemoryFlags.writable ._2MiB 0x600000 (fun _ => true)
      ⟨0x400000, 0x800000, oneLargePage⟩ = (.okay, ⟨0x600000, 0xA00000, twoLargePages⟩) := by
    rw [mapLoop_next (by decide) mapPageInternal_twoLargePages]
    exact mapLoop_done (by decide)
  have haligned : mapAligned true 0x1000 MemoryFlags.writable 0x600000
      ⟨0x400000, 0x800000, oneLargePage⟩ = (.okay, ⟨0x600000, 0xA00000, twoLargePages⟩) := by
    unfold mapAligned
    rw [hsmall]
    exact hlarge
  have hloops : mapLoops true 0x1000 MemoryFlags.writable 0x600000
      ⟨0x400000, 0x800000, oneLargePage⟩ = (.okay, ⟨0x600000, 0xA00000, twoLargePages⟩) := by
    unfold mapLoops
    dsimp only
    rw [if_pos (show 0x400000 % largePageSize = 0x800000 % largePageSize from rfl), haligned]
    exact mapLoop_done (by decide)
  unfold mapRange
  rw [if_neg (by decide), if_neg (by decide), if_neg (by decide)]
  show (match mapLoops true 0x1000 MemoryFlags.writable 0x600000
    ⟨0x400000, 0x800000, oneLargePage⟩ with
    | (res, w) => some (res, w.t)) = _
  rw [hloops]

theorem translate_oneLargePage (k : Nat) (hk : k < 0x200000) :
    oneLargePage.translate (oneProcess.root (Space.ofAddress 0x1000 (Word.add 0x400000 k)))
      (Word.add 0x400000 k) = none := by
  have hadd : Word.add 0x400000 k = 0x400000 + k := Word.add_of_lt (by omega)
  have hspace : Space.ofAddress 0x1000 (0x400000 + k) = .user 0x1000 := by
    unfold Space.ofAddress lowerHalfEnd
    rw [if_pos (by omega)]
  obtain ⟨h4, h3, h2⟩ := indices_add_large (v := 0x400000) rfl hk
  rw [hadd, hspace, translate_eq_none_iff]
  unfold HasPml4e HasPml3e HasPml2e IsLarge pml2p pml3p
  rw [h4, h3, h2]
  exact fun hall => absurd hall.2.2.1 (by decide)

end Tables

end Beelzebub.Memory
