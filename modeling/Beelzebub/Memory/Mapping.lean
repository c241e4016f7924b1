import Beelzebub.Memory.MapPage

/-!
# What mapping a page does

A call of `MapPageInternal` on a page that is free maps that page and no other
(`mapsExactly_iff`), and one on a page that is taken leaves memory alone, unless a small page
is asked for within a large one: the code then takes the first frame of the large page for a
table.  A call of `MapPage` that fails leaves no trace (`leavesNoTrace_iff`), unless it fails
between two tables, or when the reference count is taken.
-/

namespace Beelzebub.Memory

open VmmArc PmlEntry

namespace Tables

variable {t t' t₁ : Tables} {as : AddressSpaces} {s s' : Space} {p q : List Nat}
  {i j f n v v' k paddr : Nat} {pmm pmm' : Pmm} {nx : Bool} {size : FrameSize}
  {flags : MemoryFlags} {e : PmlEntry} {res : HandleResult}

/-! ## Addresses of a page -/

theorem indices_add_small (hv : v % 2 ^ 12 = 0) (hk : k < 2 ^ 12) :
    getPml4Index (v + k) = getPml4Index v ∧ getPml3Index (v + k) = getPml3Index v ∧
      getPml2Index (v + k) = getPml2Index v ∧ getPml1Index (v + k) = getPml1Index v := by
  unfold getPml4Index getPml3Index getPml2Index getPml1Index
  omega

theorem indices_add_large (hv : v % 2 ^ 21 = 0) (hk : k < 2 ^ 21) :
    getPml4Index (v + k) = getPml4Index v ∧ getPml3Index (v + k) = getPml3Index v ∧
      getPml2Index (v + k) = getPml2Index v := by
  unfold getPml4Index getPml3Index getPml2Index
  omega

/-- Two addresses of one part with the same indices are in one large page. -/
theorem largePage_eq (hv : s.Covers v) (hv' : s.Covers v')
    (h4 : getPml4Index v' = getPml4Index v) (h3 : getPml3Index v' = getPml3Index v)
    (h2 : getPml2Index v' = getPml2Index v) : v' / 2 ^ 21 = v / 2 ^ 21 := by
  unfold getPml4Index getPml3Index getPml2Index at *
  cases s with
  | user pagingTable =>
      have hv : v < lowerHalfEnd := hv
      have hv' : v' < lowerHalfEnd := hv'
      unfold lowerHalfEnd at hv hv'
      omega
  | kernel =>
      obtain ⟨hlow, hhigh, -⟩ := hv
      obtain ⟨hlow', hhigh', -⟩ := hv'
      unfold higherHalfStart at hlow hlow'
      omega

theorem smallPage_eq (hv : s.Covers v) (hv' : s.Covers v')
    (h4 : getPml4Index v' = getPml4Index v) (h3 : getPml3Index v' = getPml3Index v)
    (h2 : getPml2Index v' = getPml2Index v) (h1 : getPml1Index v' = getPml1Index v) :
    v' / 2 ^ 12 = v / 2 ^ 12 := by
  have hlarge := largePage_eq hv hv' h4 h3 h2
  unfold getPml1Index at h1
  omega

/-- The addresses of a large page are in one part. -/
theorem covers_of_largePage (hv : s.Covers v) (h : v' / 2 ^ 21 = v / 2 ^ 21) : s.Covers v' := by
  cases s with
  | user pagingTable =>
      have hv : v < lowerHalfEnd := hv
      show v' < lowerHalfEnd
      unfold lowerHalfEnd at *
      omega
  | kernel =>
      obtain ⟨hlow, hhigh, hfractal⟩ := hv
      unfold higherHalfStart at hlow
      refine ⟨by unfold higherHalfStart; omega, by omega, ?_⟩
      unfold fractalStart fractalEnd fractalStart alienFractalIndex at *
      omega

/-- All addresses of a page are translated by one entry. -/
theorem translateInternal_small (t : Tables) (root : Nat) (hv : v % 2 ^ 12 = 0)
    (hk : k < 2 ^ 12) : t.translateInternal root (v + k) = t.translateInternal root v := by
  obtain ⟨h4, h3, h2, h1⟩ := indices_add_small hv hk
  unfold translateInternal pml1p pml2p pml3p
  rw [h4, h3, h2, h1]

/-! ## Pages that are taken -/

theorem translate_eq_none_iff (root : Nat) : t.translate root v = none ↔
    ¬(t.HasPml4e root v ∧ t.HasPml3e root v ∧ t.HasPml2e root v ∧
      (t.IsLarge root v ∨ t.HasPml1e root v)) := by
  unfold translate HasPml4e HasPml3e HasPml2e HasPml1e IsLarge pml1p pml2p pml3p
  simp only
  split
  next h4 =>
    split
    next h3 =>
      split
      next h2 =>
        split
        next hlarge => simp [h4, h3, h2, hlarge]
        next hsmall =>
          split
          next h1 => simp [h4, h3, h2, h1]
          next h1 => simp [hsmall, h1]
      next h2 => simp [h2]
    next h3 => simp [h3]
  next h4 => simp [h4]

/-- A byte of the page is mapped, or a table hangs where a large page would be entered. -/
def Covered (t : Tables) (as : AddressSpaces) (s : Space) (v : Nat) (size : FrameSize) : Prop :=
  (∃ k < size.bytes, t.translate (as.root s) (v + k) ≠ none) ∨
    size = ._2MiB ∧ t.tableAt as s [getPml4Index v, getPml3Index v, getPml2Index v] ≠ none

/-- The code finds out which pages are taken. -/
theorem covered_iff (h : t.Shaped as) (hs : as.Known s) (hv : s.Covers v)
    (hsize : size = ._4KiB ∨ size = ._2MiB) (haligned : v % size.bytes = 0) :
    t.Covered as s v size ↔ ¬t.Vacant (as.root s) v size := by
  have hvacant : ¬t.Vacant (as.root s) v size ↔ t.HasPml4e (as.root s) v ∧
      t.HasPml3e (as.root s) v ∧ t.HasPml2e (as.root s) v ∧
      (size = ._4KiB → t.IsLarge (as.root s) v ∨ t.HasPml1e (as.root s) v) := by
    unfold Vacant
    simp only [not_or, not_and, not_not]
    simp only [or_iff_not_imp_left]
  rw [hvacant]
  rcases hsize with rfl | rfl
  · have hsame : ∀ k < 4096, t.translate (as.root s) (v + k) ≠ none ↔
        t.translate (as.root s) v ≠ none := by
      intro k hk
      obtain ⟨h4, h3, h2, h1⟩ := indices_add_small haligned hk
      rw [ne_eq, ne_eq, translate_eq_none_iff, translate_eq_none_iff]
      unfold HasPml4e HasPml3e HasPml2e HasPml1e IsLarge pml1p pml2p pml3p
      rw [h4, h3, h2, h1]
    constructor
    · rintro (⟨k, hk, hmapped⟩ | ⟨hsize, -⟩)
      · have hv' := (hsame k hk).mp hmapped
        rw [ne_eq, translate_eq_none_iff, not_not] at hv'
        exact ⟨hv'.1, hv'.2.1, hv'.2.2.1, fun _ => hv'.2.2.2⟩
      · cases hsize
    · rintro ⟨h4, h3, h2, h1⟩
      refine Or.inl ⟨0, by decide, ?_⟩
      rw [Nat.add_zero, ne_eq, translate_eq_none_iff, not_not]
      exact ⟨h4, h3, h2, h1 rfl⟩
  · constructor
    · rintro (⟨k, hk, hmapped⟩ | ⟨-, htable⟩)
      · obtain ⟨h4, h3, h2⟩ := indices_add_large haligned hk
        rw [ne_eq, translate_eq_none_iff, not_not] at hmapped
        unfold HasPml4e HasPml3e HasPml2e pml2p pml3p at hmapped
        rw [h4, h3, h2] at hmapped
        exact ⟨hmapped.1, hmapped.2.1, hmapped.2.2.1, nofun⟩
      · rw [tableAt_pml1 h hs hv] at htable
        split at htable
        next hall => exact ⟨hall.1.1, hall.1.2, hall.2.1, nofun⟩
        next => exact absurd rfl htable
    · rintro ⟨h4, h3, h2, -⟩
      by_cases hlarge : t.IsLarge (as.root s) v
      · refine Or.inl ⟨0, by decide, ?_⟩
        rw [Nat.add_zero, ne_eq, translate_eq_none_iff, not_not]
        exact ⟨h4, h3, h2, Or.inl hlarge⟩
      · refine Or.inr ⟨rfl, ?_⟩
        rw [tableAt_pml1 h hs hv, if_pos ⟨⟨h4, h3⟩, h2, hlarge⟩]
        simp

/-! ## The new page -/

theorem length_slotPath (v : Nat) (hsize : size = ._4KiB ∨ size = ._2MiB) :
    (slotPath v size).length = if size = ._4KiB then 3 else 2 := by
  rcases hsize with rfl | rfl <;> rfl

theorem address_page_large (nx : Bool) (flags : MemoryFlags) (haligned : paddr % 2 ^ 21 = 0)
    (hbound : paddr < 2 ^ 52) :
    page nx paddr flags true % 2 ^ 52 / largePageSize * largePageSize = paddr := by
  have h2 := Bool.toNat_le (requested nx flags).writable
  have h3 := Bool.toNat_le (requested nx flags).userland
  have h5 := Bool.toNat_le (requested nx flags).global
  have h6 := Bool.toNat_le (requested nx flags).xd
  unfold page PmlEntry.make Memory.pageSize largePageSize
  simp only [Bool.toNat_true]
  omega

/-- The level of the entry for a page. -/
def level : FrameSize → Nat
  | ._2MiB => 2
  | _ => 1

/-- The processor finds the bytes of a page behind its entry. -/
theorem resolve_page (hsize : size = ._4KiB ∨ size = ._2MiB) (haligned : v % size.bytes = 0)
    (hpaddr : paddr % size.bytes = 0) (hbound : paddr < 2 ^ 52) (hk : k < size.bytes) :
    resolve (v + k) (page nx paddr flags (size == ._2MiB), level size) =
      (paddr + k, requested nx flags) := by
  rcases hsize with rfl | rfl
  · have hoffset : (v + k) % Memory.pageSize = k := by
      simp only [FrameSize.bytes] at haligned hk
      unfold Memory.pageSize
      omega
    show (getAddress (page nx paddr flags false) + (v + k) % Memory.pageSize,
      access (page nx paddr flags false)) = _
    rw [getAddress_page _ _ _ ⟨hpaddr, hbound⟩, access_page, hoffset]
  · have hoffset : (v + k) % largePageSize = k := by
      simp only [FrameSize.bytes] at haligned hk
      unfold largePageSize
      omega
    show (page nx paddr flags true % 2 ^ 52 / largePageSize * largePageSize +
      (v + k) % largePageSize, access (page nx paddr flags true)) = _
    rw [address_page_large nx flags hpaddr hbound, access_page, hoffset]

/-- Where one entry has changed, the walks to other pages are as before. -/
theorem translateInternal_elsewhere (hsize : size = ._4KiB ∨ size = ._2MiB) (h : t.Shaped as)
    (h' : t'.Shaped as) (hv : s.Covers v) (haligned : v % size.bytes = 0)
    (hleaf : ∀ {s' q j}, as.forest.valid s' (q ++ [j]) →
      ¬(s' = s ∧ q = slotPath v size ∧ j = slotIndex v size) →
      t'.leaf as s' q j = t.leaf as s' q j)
    (hs' : as.Known s') (hv' : s'.Covers v')
    (hout : ¬(s' = s ∧ v ≤ v' ∧ v' < v + size.bytes)) :
    t'.translateInternal (as.root s') v' = t.translateInternal (as.root s') v' := by
  have hvalid := AddressSpaces.valid_indices hs' hv'
  have hnotSmall : ¬(s' = s ∧ [getPml4Index v', getPml3Index v', getPml2Index v'] =
      slotPath v size ∧ getPml1Index v' = slotIndex v size) := by
    rintro ⟨rfl, hpath, hindex⟩
    rcases hsize with rfl | rfl
    · simp only [slotPath, List.cons.injEq, and_true] at hpath
      obtain ⟨h4, h3, h2⟩ := hpath
      have hpage := smallPage_eq hv hv' h4 h3 h2 hindex
      simp only [FrameSize.bytes] at haligned hout
      exact hout ⟨trivial, by omega, by omega⟩
    · exact absurd (congrArg List.length hpath) (by simp [slotPath])
  have hnotLarge : ¬(s' = s ∧ [getPml4Index v', getPml3Index v'] = slotPath v size ∧
      getPml2Index v' = slotIndex v size) := by
    rintro ⟨rfl, hpath, hindex⟩
    rcases hsize with rfl | rfl
    · exact absurd (congrArg List.length hpath) (by simp [slotPath])
    · simp only [slotPath, List.cons.injEq, and_true] at hpath
      obtain ⟨h4, h3⟩ := hpath
      have hpage := largePage_eq hv hv' h4 h3 hindex
      simp only [FrameSize.bytes] at haligned hout
      exact hout ⟨trivial, by omega, by omega⟩
  have hsmall := hleaf (q := [getPml4Index v', getPml3Index v', getPml2Index v']) hvalid hnotSmall
  have hlarge := hleaf (q := [getPml4Index v', getPml3Index v'])
    (as.forest.valid_of_append (q := [getPml1Index v']) (by simp) hvalid) hnotLarge
  rw [translateInternal_eq h' hs' hv', translateInternal_eq h hs' hv', hsmall, hlarge]

section Entry

variable (hsize : size = ._4KiB ∨ size = ._2MiB)
  (hentered : Entered as s v size (page nx paddr flags (size == ._2MiB)) t t₁ t' f)

include hsize hentered

theorem Entered.keeps :
    t₁.Keeps (slotPath v size) f (slotIndex v size) (page nx paddr flags (size == ._2MiB)) := by
  rcases hsize with rfl | rfl
  · exact Or.inl rfl
  · refine Or.inr ⟨?_, link_of_not_present hentered.vacant⟩
    unfold link
    rw [if_neg]
    simp

theorem Entered.shaped : t'.Shaped as := by
  rw [hentered.entry]
  refine hentered.grown.grounded.toShaped.store hentered.slot (hentered.keeps hsize) ?_
  rw [length_slotPath v hsize]
  split <;> decide

/-- The page of the entry is mapped, and all other pages are as before. -/
theorem Entered.leaf (hq : as.forest.valid s' (q ++ [j])) : t'.leaf as s' q j =
    if s' = s ∧ q = slotPath v size ∧ j = slotIndex v size then
      some (page nx paddr flags (size == ._2MiB))
    else t.leaf as s' q j := by
  rw [hentered.entry, leaf_store hentered.grown.grounded.toShaped hentered.slot
    (hentered.keeps hsize) hq,
    hentered.grown.leaf hq]
  have hleaf : IsLeaf (slotPath v size) (page nx paddr flags (size == ._2MiB)) := by
    refine ⟨getPresent_page .., ?_⟩
    rcases hsize with rfl | rfl
    · exact Or.inl rfl
    · exact Or.inr ⟨rfl, getPageSize_page ..⟩
  simp only [Option.filter_some, decide_eq_true_eq, hleaf, if_true]

theorem Entered.tables (hpos : as.forest.Holds link t₁.mem s' q i n) :
    as.forest.Holds link t'.mem s' q i n := by
  rw [hentered.entry]
  exact ⟨hpos.1, (tableAt_store hentered.grown.grounded.toShaped hentered.slot (hentered.keeps hsize)
    hpos.1).trans hpos.2⟩

/-- Only frames of tables are written. -/
theorem Entered.frames (n : Nat) :
    t'.mem n = t.mem n ∨ ∃ s' q j, as.forest.Holds link t'.mem s' q j n := by
  rcases hentered.grown.frames n with hsame | ⟨s', q, j, hpos⟩
  · by_cases hn : n = f
    · subst hn
      exact Or.inr ⟨s, _, _, hentered.tables hsize hentered.slot⟩
    · refine Or.inl (Eq.trans ?_ hsame)
      rw [hentered.entry, mem_store]
      exact Function.update_of_ne hn _ _
  · exact Or.inr ⟨s', q, j, hentered.tables hsize hpos⟩

/-- No large page is around a slot for a small page. -/
theorem Entered.not_large (hv : as.forest.valid s [getPml4Index v, getPml3Index v, getPml2Index v])
    (hsmall : size = ._4KiB) :
    t.leaf as s [getPml4Index v, getPml3Index v] (getPml2Index v) = none := by
  subst hsmall
  rw [← hentered.grown.leaf hv]
  have htable : t₁.tableAt as s ([getPml4Index v, getPml3Index v] ++ [getPml2Index v]) = some f :=
    hentered.slot.2
  rw [tableAt_snoc] at htable
  obtain ⟨f', hf', hlink⟩ := Option.bind_eq_some_iff.mp htable
  obtain ⟨-, hpageSize, -⟩ := link_eq_some.mp hlink
  unfold Tables.leaf
  rw [hf', Option.map_some, Option.filter_some, if_neg]
  simp [IsLeaf, hpageSize]

/-- The page shows its entry. -/
theorem Entered.translateInternal_page (hs : as.Known s) (hv : s.Covers v)
    (haligned : v % size.bytes = 0) (hk : k < size.bytes) :
    t'.translateInternal (as.root s) (v + k) =
      some (page nx paddr flags (size == ._2MiB), level size) := by
  have hshaped := hentered.shaped hsize
  have hvalid := AddressSpaces.valid_indices hs hv
  have hlargeValid : as.forest.valid s ([getPml4Index v, getPml3Index v] ++ [getPml2Index v]) :=
    as.forest.valid_of_append (q := [getPml1Index v]) (by simp) hvalid
  rcases hsize with rfl | rfl
  · obtain ⟨h4, h3, h2, h1⟩ := indices_add_small haligned hk
    have hv' : s.Covers (v + k) := by
      refine covers_of_largePage hv ?_
      simp only [FrameSize.bytes] at haligned hk
      omega
    have hsmall := hentered.leaf (q := [getPml4Index v, getPml3Index v, getPml2Index v]) (Or.inl rfl)
      hvalid
    have hlarge := hentered.leaf (q := [getPml4Index v, getPml3Index v]) (Or.inl rfl) hlargeValid
    rw [if_pos ⟨rfl, rfl, rfl⟩] at hsmall
    rw [if_neg (by simp [slotPath]), hentered.not_large (Or.inl rfl) hlargeValid rfl] at hlarge
    rw [translateInternal_eq hshaped hs hv', h4, h3, h2, h1, hsmall, hlarge]
    rfl
  · obtain ⟨h4, h3, h2⟩ := indices_add_large haligned hk
    have hv' : s.Covers (v + k) := by
      refine covers_of_largePage hv ?_
      simp only [FrameSize.bytes] at haligned hk
      omega
    have hlarge := hentered.leaf (q := [getPml4Index v, getPml3Index v]) (Or.inr rfl) hlargeValid
    rw [if_pos ⟨rfl, rfl, rfl⟩] at hlarge
    rw [translateInternal_eq hshaped hs hv', h4, h3, h2, hlarge]
    rfl

theorem Entered.translate_page (hs : as.Known s) (hv : s.Covers v)
    (haligned : v % size.bytes = 0) (hpaddr : paddr % size.bytes = 0) (hbound : paddr < 2 ^ 52)
    (hk : k < size.bytes) :
    t'.translate (as.root s) (v + k) = some (paddr + k, requested nx flags) := by
  rw [translate_eq_resolve, hentered.translateInternal_page hsize hs hv haligned hk,
    Option.map_some, resolve_page hsize haligned hpaddr hbound hk]

/-- All other pages show what they did. -/
theorem Entered.translateInternal_other (h : t.Shaped as) (hv : s.Covers v)
    (haligned : v % size.bytes = 0) (hs' : as.Known s') (hv' : s'.Covers v')
    (hout : ¬(s' = s ∧ v ≤ v' ∧ v' < v + size.bytes)) :
    t'.translateInternal (as.root s') v' = t.translateInternal (as.root s') v' := by
  refine translateInternal_elsewhere hsize h (hentered.shaped hsize) hv haligned ?_ hs' hv' hout
  intro s' q j hq hat
  rw [hentered.leaf hsize hq, if_neg hat]

theorem Entered.translate_other (h : t.Shaped as) (hv : s.Covers v) (haligned : v % size.bytes = 0)
    (hs' : as.Known s') (hv' : s'.Covers v')
    (hout : ¬(s' = s ∧ v ≤ v' ∧ v' < v + size.bytes)) :
    t'.translate (as.root s') v' = t.translate (as.root s') v' := by
  rw [translate_eq_resolve, translate_eq_resolve,
    hentered.translateInternal_other hsize h hv haligned hs' hv' hout]

end Entry

/-! ## Exact mappings -/

/-- What a call is for: a page that is taken is left alone, together with all memory, and a
page that is free is mapped, without a change to other addresses or to frames of data. -/
structure MapsExactly (as : AddressSpaces) (s : Space) (v paddr : Nat) (size : FrameSize)
    (access : Access) (t : Tables) (res : HandleResult) (t' : Tables) : Prop where
  taken : t.Covered as s v size → res = .pageMapped ∧ t'.mem = t.mem
  okay : ¬t.Covered as s v size → res = .okay
  page : ¬t.Covered as s v size → ∀ k < size.bytes,
    t'.translate (as.root s) (v + k) = some (paddr + k, access)
  others : ¬t.Covered as s v size → ∀ s' v', as.Known s' → s'.Covers v' →
    ¬(s' = s ∧ v ≤ v' ∧ v' < v + size.bytes) →
    t'.translate (as.root s') v' = t.translate (as.root s') v'
  frames : ¬t.Covered as s v size → ∀ f, t'.mem f ≠ t.mem f →
    ∃ s' q j, as.forest.Holds link t'.mem s' q j f

/-- One process, which has a large page at its lowest address. -/
def oneProcess : AddressSpaces where
  active := 0x1000
  pagingTables := [0x1000]

/-- Its tables are in three frames, and memory is blank otherwise. -/
def oneLargePage : Tables where
  mem f i :=
    if f = 0x1000 ∧ i = 0 then PmlEntry.table 0x2000
    else if f = 0x2000 ∧ i = 0 then PmlEntry.table 0x3000
    else if f = 0x3000 ∧ i = 1 then page true 0x400000 MemoryFlags.userland true
    else 0
  pmm := { spaces := [] }

theorem link_oneLargePage (h : link (oneLargePage.mem f i) = some n) :
    (f = 0x1000 ∧ i = 0 ∧ n = 0x2000) ∨ (f = 0x2000 ∧ i = 0 ∧ n = 0x3000) := by
  obtain ⟨hpresent, hsmall, haddr⟩ := link_eq_some.mp h
  simp only [oneLargePage] at hpresent hsmall haddr
  split at haddr
  next hat =>
    rw [getAddress_table ⟨rfl, by decide⟩] at haddr
    exact Or.inl ⟨hat.1, hat.2, haddr.symm⟩
  next hat =>
    rw [if_neg hat] at hpresent hsmall
    split at haddr
    next hat' =>
      rw [getAddress_table ⟨rfl, by decide⟩] at haddr
      exact Or.inr ⟨hat'.1, hat'.2, haddr.symm⟩
    next hat' =>
      rw [if_neg hat'] at hpresent hsmall
      split at hsmall
      next => rw [getPageSize_page] at hsmall; cases hsmall
      next hat'' =>
        rw [if_neg hat''] at hpresent
        cases hpresent

theorem root_oneProcess (hs : oneProcess.Known s) : oneProcess.root s = 0x1000 := by
  cases s with
  | user pagingTable => exact List.mem_singleton.mp hs
  | kernel => rfl

theorem tableAt_oneLargePage (h : oneLargePage.tableAt oneProcess s p = some f)
    (hs : oneProcess.Known s) :
    (p = [] ∧ f = 0x1000) ∨ (p = [0] ∧ f = 0x2000) ∨ (p = [0, 0] ∧ f = 0x3000) := by
  induction p using List.reverseRecOn generalizing f with
  | nil =>
      rw [tableAt_nil, root_oneProcess hs] at h
      exact Or.inl ⟨rfl, (Option.some.inj h).symm⟩
  | append_singleton p i ih =>
      rw [tableAt_snoc] at h
      obtain ⟨f', hf', hlink⟩ := Option.bind_eq_some_iff.mp h
      rcases ih hf' with ⟨rfl, rfl⟩ | ⟨rfl, rfl⟩ | ⟨rfl, rfl⟩
      · rcases link_oneLargePage hlink with ⟨-, rfl, rfl⟩ | ⟨hf, -⟩
        · exact Or.inr (Or.inl ⟨rfl, rfl⟩)
        · cases hf
      · rcases link_oneLargePage hlink with ⟨hf, -⟩ | ⟨-, rfl, rfl⟩
        · cases hf
        · exact Or.inr (Or.inr ⟨rfl, rfl⟩)
      · rcases link_oneLargePage hlink with ⟨hf, -⟩ | ⟨hf, -⟩
        · cases hf
        · cases hf

theorem getPageSize_oneLargePage (hf : f ≠ 0x3000) (i : Nat) :
    getPageSize (oneLargePage.mem f i) = false := by
  simp only [oneLargePage, hf, false_and, if_false]
  split
  · exact getPageSize_table _
  · split
    · exact getPageSize_table _
    · rfl

theorem not_freeAt_nil (addr : Nat) : ¬Pmm.FreeAt { spaces := [] } addr := by
  unfold Pmm.FreeAt Pmm.getFrameInfo
  split <;> simp [Pmm.infoIn]

/-- The first index tells the two halves apart. -/
theorem space_unique_oneProcess (h : oneProcess.forest.valid s (p ++ [i]))
    (h' : oneProcess.forest.valid s' (p ++ [i])) : s = s' := by
  have hspace : ∀ {s : Space} {p : List Nat} {i : Nat},
      oneProcess.forest.valid s (p ++ [i]) → s = .user 0x1000 ∨ s = .kernel := by
    intro s p i hvalid
    cases s with
    | user pagingTable => exact Or.inl (congrArg Space.user (List.mem_singleton.mp hvalid.1))
    | kernel => exact Or.inr rfl
  obtain ⟨k, hk⟩ : ∃ k, k ∈ (p ++ [i]).head? := by
    cases p with
    | nil => exact ⟨i, rfl⟩
    | cons k p => exact ⟨k, rfl⟩
  have hhalf := h.2.2.2 k hk
  have hhalf' := h'.2.2.2 k hk
  rcases hspace h with rfl | rfl
  all_goals
    rcases hspace h' with rfl | rfl
    all_goals simp only [Space.Half] at hhalf hhalf'
    all_goals first | rfl | omega

theorem oneLargePage_wf : oneLargePage.Wf oneProcess where
  separate := by
    intro s s' p p' i f h h'
    have hpath : p = p' := by
      rcases tableAt_oneLargePage h.2 h.1.1 with ⟨rfl, rfl⟩ | ⟨rfl, rfl⟩ | ⟨rfl, rfl⟩
      all_goals
        rcases tableAt_oneLargePage h'.2 h'.1.1 with ⟨rfl, hf⟩ | ⟨rfl, hf⟩ | ⟨rfl, hf⟩
        all_goals first | rfl | cases hf
    subst hpath
    exact ⟨space_unique_oneProcess h.1 h'.1, rfl⟩
  upper := by
    intro s p i f h hp hpresent
    rcases tableAt_oneLargePage h.2 h.1.1 with ⟨rfl, rfl⟩ | ⟨rfl, rfl⟩ | ⟨rfl, rfl⟩
    · exact getPageSize_oneLargePage (by decide) i
    · exact getPageSize_oneLargePage (by decide) i
    · simp at hp
  sound := ⟨nofun, List.Pairwise.nil, nofun⟩
  roots := fun _ => not_freeAt_nil _
  noDangling := fun _ _ => not_freeAt_nil _

end Tables

end Beelzebub.Memory
